import Mathlib.Algebra.Order.BigOperators.Group.List
import Mathlib.Algebra.Order.Ring.Int
import Mathlib.Data.Finset.Max
import Mathlib.Data.List.Induction
import Mathlib.Data.List.Nodup
import Mathlib.Data.List.Perm.Subperm
import Mathlib.Tactic.Common

/-!
# Turns

Items take turns in the order of a list. What an item does is a number, its
`effect`, which depends on what the items before it that count for it have done
(`met`). An `Outcome` of a list says what each of its items does.

The items of a `nest` of loops come in rounds, a round in stages, a stage in
parts. The stages of a round have their order, and so have the items of a part;
the rounds, and the parts of a stage, come in any order. So an item meets what
is `bound` to come before it, and on top some of the rounds and parts that are
`free` to. `outcome_nest` and `effect_of_outcomes` say that an outcome is the
same in every order exactly when no item cares which these are. For an item that
cares only about the excess over a limit, `indifferent_iff` says when that is.

An outcome is determined by the list (`Outcome.unique`), one item after the
other, so both directions compare an order with another. For the first, an item
of a nest is located (`met_before`): before it stand some whole rounds, the
earlier stages of its own, some whole parts of its stage and the earlier items
of its part. For the second, every choice of free rounds and parts is the
beginning of some order, so the orders show what the item does in each case.

The excess over a limit is monotone in what it meets, and what comes on top is
largest with the positive numbers only. That is why three choices are enough to
tell whether it ever changes.
-/

namespace Turns

variable {ι : Type} {n m : ι → Int} {l l' : List ι} {p : ι}

section met

variable {κ : Type} {counts : ι → κ → Prop} [∀ q x, Decidable (counts q x)] {x : κ}

/-- What the items of a list that count for `x` have done. -/
def met (counts : ι → κ → Prop) [∀ q x, Decidable (counts q x)] (n : ι → Int) (l : List ι)
    (x : κ) : Int :=
  ((l.filter fun q => counts q x).map n).sum

/-- What is met, by the ways a list is put together. -/
@[simp] theorem met_nil : met counts n [] x = 0 := rfl

theorem met_append : met counts n (l ++ l') x = met counts n l x + met counts n l' x := by
  simp only [met]
  rw [List.filter_append, List.map_append, List.sum_append]

theorem met_singleton : met counts n [p] x = if counts p x then n p else 0 := by
  simp only [met]
  by_cases h : counts p x <;> simp [h]

/-- It is a sum, so the order of what was met does not matter. -/
theorem met_perm (h : l.Perm l') : met counts n l x = met counts n l' x :=
  ((h.filter _).map n).sum_eq

/-- Only items that count matter. -/
theorem met_congr (h : ∀ q ∈ l, counts q x → n q = m q) :
    met counts n l x = met counts m l x := by
  simp only [met]
  refine congrArg List.sum (List.map_congr_left fun q hq => ?_)
  obtain ⟨hmem, hcounts⟩ := List.mem_filter.mp hq
  exact h q hmem (of_decide_eq_true hcounts)

/-- Counting among some of the items is counting for less. -/
theorem met_filter {κ' : Type} {counts' : ι → κ' → Prop} [∀ q y, Decidable (counts' q y)] {y : κ'}
    {P : ι → Prop} [DecidablePred P] (h : ∀ q, counts q x ∧ P q ↔ counts' q y) :
    met counts n (l.filter fun q => P q) x = met counts' n l y := by
  simp only [met]
  rw [List.filter_filter]
  refine congrArg (fun l => (l.map n).sum) (List.filter_congr fun q _ => ?_)
  rw [← Bool.decide_and]
  exact decide_eq_decide.mpr (h q)

/-- What the rounds of a loop have done. -/
theorem met_flatMap {σ : Type} (f : σ → List ι) (xs : List σ) :
    met counts n (xs.flatMap f) x = (xs.map fun y => met counts n (f y) x).sum := by
  induction xs with
  | nil => rfl
  | cons y xs ih => rw [List.flatMap_cons, met_append, ih, List.map_cons, List.sum_cons]

/-- Items of different dates are determined by what they amount to up to each of
them. -/
theorem eq_of_met {δ : Type} [LinearOrder δ] [DecidableEq ι] {date : ι → δ} (hl : l.Nodup)
    (hdate : ∀ q ∈ l, ∀ p ∈ l, date q = date p → q = p)
    (h : ∀ p ∈ l, met (fun q day => date q ≤ day) n l (date p)
      = met (fun q day => date q ≤ day) m l (date p)) :
    ∀ p ∈ l, n p = m p := by
  by_contra hsome
  push Not at hsome
  obtain ⟨p₀, hp₀, hne₀⟩ := hsome
  -- the first that differs
  obtain ⟨p, hp, hfirst⟩ := (l.filter fun q => n q ≠ m q).toFinset.exists_min_image date
    ⟨p₀, List.mem_toFinset.mpr (List.mem_filter.mpr ⟨hp₀, decide_eq_true hne₀⟩)⟩
  obtain ⟨hp, hne⟩ := List.mem_filter.mp (List.mem_toFinset.mp hp)
  have hrest : met (fun q day => date q ≤ day) n (l.erase p) (date p)
      = met (fun q day => date q ≤ day) m (l.erase p) (date p) := by
    refine met_congr fun q hq hle => ?_
    have hmem := List.mem_of_mem_erase hq
    by_contra hqne
    have hmin := hfirst q (List.mem_toFinset.mpr (List.mem_filter.mpr ⟨hmem, decide_eq_true hqne⟩))
    have hsame := hdate q hmem p hp (le_antisymm hle hmin)
    exact hl.not_mem_erase (hsame ▸ hq)
  have hself := h p hp
  rw [met_perm (List.perm_cons_erase hp), met_perm (n := m) (List.perm_cons_erase hp),
    ← List.singleton_append, met_append, met_append, hrest, met_singleton, met_singleton,
    if_pos (le_refl _), if_pos (le_refl _)] at hself
  exact of_decide_eq_true hne (by omega)

end met

variable {counts : ι → ι → Prop} [DecidableRel counts] {effect : ι → Int → Int}

/-! ## Outcomes

What each element leaves is a function of what it has met so far. Along a list
there is just one such outcome. -/

/-- `n` is what each item of the list does when it takes its turn. -/
def Outcome (counts : ι → ι → Prop) [DecidableRel counts] (effect : ι → Int → Int) (n : ι → Int)
    (l : List ι) : Prop :=
  ∀ pre p post, l = pre ++ p :: post → n p = effect p (met counts n pre p)

namespace Outcome

/-- There is nothing to do. -/
theorem nil : Outcome counts effect n [] := by
  intro pre p post h
  exact absurd h.symm (List.append_ne_nil_of_right_ne_nil pre (List.cons_ne_nil p post))

theorem snoc (h : Outcome counts effect n l) (hp : n p = effect p (met counts n l p)) :
    Outcome counts effect n (l ++ [p]) := by
  intro pre q post hsplit
  rcases List.append_eq_append_iff.mp hsplit with ⟨as, rfl, has⟩ | ⟨bs, rfl, hbs⟩
  · -- the turn of the new item
    cases as with
    | nil =>
      obtain ⟨rfl, -⟩ := List.cons.inj has
      rwa [List.append_nil]
    | cons a as =>
      have hlength := congrArg List.length has
      simp at hlength
  · cases bs with
    | nil =>
      obtain ⟨rfl, -⟩ := List.cons.inj hbs
      rwa [List.append_nil] at hp
    | cons b bs =>
      obtain ⟨rfl, rfl⟩ := List.cons.inj hbs
      exact h pre q bs rfl

/-- An outcome is about the items of the list. -/
theorem congr (h : Outcome counts effect n l) (hnm : ∀ q ∈ l, n q = m q) :
    Outcome counts effect m l := by
  rintro pre p post rfl
  have hmet : met counts n pre p = met counts m pre p :=
    met_congr fun q hq _ => hnm q (List.mem_append_left _ hq)
  rw [← hnm p (by simp), h pre p post rfl, hmet]

/-- What the items do is determined. -/
theorem unique (h : Outcome counts effect n l) (h' : Outcome counts effect m l) :
    ∀ q ∈ l, n q = m q := by
  -- on every beginning of the list
  have hagree : ∀ pre post, l = pre ++ post → ∀ q ∈ pre, n q = m q := by
    intro pre
    induction pre using List.reverseRecOn with
    | nil => exact fun _ _ q hq => absurd hq List.not_mem_nil
    | append_singleton pre p ih =>
      intro post hl
      have hsplit : l = pre ++ p :: post := by rw [hl, List.append_assoc, List.singleton_append]
      have hpre := ih (p :: post) hsplit
      have hmet : met counts n pre p = met counts m pre p := met_congr fun q hq _ => hpre q hq
      intro q hq
      rcases List.mem_append.mp hq with hq | hq
      · exact hpre q hq
      · rw [List.mem_singleton.mp hq, h pre p post hsplit, h' pre p post hsplit, hmet]
  exact hagree l [] (List.append_nil l).symm

/-- Items that do not count for any that is kept can be left out. -/
theorem filter (h : Outcome counts effect n l) {keep : ι → Bool}
    (hkeep : ∀ q p, counts q p → keep p = true → keep q = true) :
    Outcome counts effect n (l.filter keep) := by
  intro pre p post hsplit
  obtain ⟨l₁, l₂, rfl, rfl, hl₂⟩ := List.filter_eq_append_iff.mp hsplit
  obtain ⟨l₃, l₄, rfl, hl₃, hp, rfl⟩ := List.filter_eq_cons_iff.mp hl₂
  have hdropped : met counts n l₃ p = 0 := by
    have hnone : (l₃.filter fun q => counts q p) = [] := by
      refine List.filter_eq_nil_iff.mpr fun q hq hcounts => ?_
      exact hl₃ q hq (hkeep q p (of_decide_eq_true hcounts) hp)
    simp only [met]
    rw [hnone]
    rfl
  have hkept : met counts n (l₁.filter keep) p = met counts n l₁ p := by
    simp only [met]
    rw [List.filter_filter]
    refine congrArg (fun l => (l.map n).sum) (List.filter_congr fun q _ => ?_)
    by_cases hcounts : counts q p
    · simp [hcounts, hkeep q p hcounts hp]
    · simp [hcounts]
  rw [h (l₁ ++ l₃) p l₄ (by rw [List.append_assoc]), met_append, hdropped, hkept, Int.add_zero]

end Outcome

/-! ## Nests of loops

Lists of lists of lists, where the elements of one list stay together and may be
permuted: what comes before an element lies between what comes before it in
every order and that together with all that may. -/

/-- The beginning of a loop's list is some whole rounds and the beginning of the
next. -/
theorem exists_of_flatMap_eq {κ : Type} {f : κ → List ι} {xs : List κ} {pre post : List ι}
    (h : xs.flatMap f = pre ++ p :: post) :
    ∃ xs₁ x xs₂ pre' post', xs = xs₁ ++ x :: xs₂ ∧ f x = pre' ++ p :: post' ∧
      pre = xs₁.flatMap f ++ pre' := by
  induction xs generalizing pre with
  | nil => exact absurd h.symm (List.append_ne_nil_of_right_ne_nil pre (List.cons_ne_nil p post))
  | cons x xs ih =>
    rw [List.flatMap_cons] at h
    rcases List.append_eq_append_iff.mp h with ⟨as, rfl, has⟩ | ⟨bs, hx, hbs⟩
    · obtain ⟨xs₁, y, xs₂, pre', post', rfl, hy, rfl⟩ := ih has
      exact ⟨x :: xs₁, y, xs₂, pre', post', rfl, hy,
        by rw [List.flatMap_cons, List.append_assoc]⟩
    · cases bs with
      | nil =>
        obtain ⟨xs₁, y, xs₂, pre', post', rfl, hy, hpre⟩ := @ih [] hbs.symm
        refine ⟨x :: xs₁, y, xs₂, pre', post', rfl, hy, ?_⟩
        rw [List.flatMap_cons, List.append_assoc, ← hpre, hx]
        simp
      | cons b bs =>
        obtain ⟨rfl, -⟩ := List.cons.inj hbs
        exact ⟨[], x, xs, pre, bs, rfl, hx, rfl⟩

section nest

variable {α β γ : Type} {stages : α → List β} {items : α → β → γ → List ι} {as as' : List α}
  {parts parts' : β → List γ} {a : α} {b : β} {r : γ} {pre post : List ι}

/-- A stage of a round: its parts. -/
def stage (items : α → β → γ → List ι) (parts : β → List γ) (a : α) (b : β) : List ι :=
  (parts b).flatMap (items a b)

/-- A round: its stages. -/
def round (stages : α → List β) (items : α → β → γ → List ι) (parts : β → List γ) (a : α) :
    List ι :=
  (stages a).flatMap (stage items parts a)

/-- The items of the rounds `as`, with the parts of each stage as in `parts`. -/
def nest (stages : α → List β) (items : α → β → γ → List ι) (as : List α) (parts : β → List γ) :
    List ι :=
  as.flatMap (round stages items parts)

/-- The items of a round, and of a nest. -/
theorem mem_round :
    p ∈ round stages items parts a ↔ ∃ b ∈ stages a, ∃ r ∈ parts b, p ∈ items a b r := by
  simp only [round, stage, List.mem_flatMap]

theorem mem_nest :
    p ∈ nest stages items as parts ↔
      ∃ a ∈ as, ∃ b ∈ stages a, ∃ r ∈ parts b, p ∈ items a b r := by
  simp only [nest, List.mem_flatMap, mem_round]

/-- Another order of the parts, or of the rounds, has the same items. -/
theorem stage_perm (hparts : ∀ b, (parts' b).Perm (parts b)) (a : α) (b : β) :
    (stage items parts' a b).Perm (stage items parts a b) :=
  (hparts b).flatMap_right _

theorem round_perm (hparts : ∀ b, (parts' b).Perm (parts b)) (a : α) :
    (round stages items parts' a).Perm (round stages items parts a) :=
  List.Perm.flatMap_left _ fun b _ => stage_perm hparts a b

theorem nest_perm (has : as'.Perm as) (hparts : ∀ b, (parts' b).Perm (parts b)) :
    (nest stages items as' parts').Perm (nest stages items as parts) :=
  (has.flatMap_right _).trans (List.Perm.flatMap_left _ fun a _ => round_perm hparts a)

/-- What an item meets, given the rounds, stages and parts before it. -/
theorem met_before (hparts : ∀ b, (parts' b).Perm (parts b)) {as₁ : List α} {bs₁ : List β}
    {rs₁ : List γ} :
    met counts n (as₁.flatMap (round stages items parts') ++
        (bs₁.flatMap (stage items parts' a) ++ (rs₁.flatMap (items a b) ++ pre))) p
      = met counts n (bs₁.flatMap (stage items parts a)) p + met counts n pre p
        + ((as₁.map fun a' => met counts n (round stages items parts a') p)
          ++ rs₁.map fun r' => met counts n (items a b r') p).sum := by
  have hrounds : met counts n (as₁.flatMap (round stages items parts')) p
      = (as₁.map fun a' => met counts n (round stages items parts a') p).sum := by
    rw [met_flatMap]
    exact congrArg List.sum (List.map_congr_left fun a' _ => met_perm (round_perm hparts a'))
  have hstages : met counts n (bs₁.flatMap (stage items parts' a)) p
      = met counts n (bs₁.flatMap (stage items parts a)) p :=
    met_perm (List.Perm.flatMap_left _ fun b' _ => stage_perm hparts a b')
  rw [met_append, met_append, met_append, hrounds, hstages, met_flatMap (items a b),
    List.sum_append]
  omega

variable [DecidableEq α] [DecidableEq β] [DecidableEq γ]

/-- What the items have done that come before `p` in every order: those of the
earlier stages of its round and the earlier ones of its part. -/
def bound (counts : ι → ι → Prop) [DecidableRel counts] (stages : α → List β)
    (items : α → β → γ → List ι) (parts : β → List γ) (n : ι → Int) (a : α) (b : β)
    (pre : List ι) (p : ι) : Int :=
  met counts n (((stages a).takeWhile (· ≠ b)).flatMap (stage items parts a)) p
    + met counts n pre p

/-- What the other rounds, and the other parts of the stage, do. -/
def free (counts : ι → ι → Prop) [DecidableRel counts] (stages : α → List β)
    (items : α → β → γ → List ι) (as : List α) (parts : β → List γ) (n : ι → Int) (a : α) (b : β)
    (r : γ) (p : ι) : List Int :=
  ((as.erase a).map fun a' => met counts n (round stages items parts a') p)
    ++ ((parts b).erase r).map fun r' => met counts n (items a b r') p

omit [DecidableEq α] [DecidableEq γ] in

/-- What stands before an element that occurs once. -/
theorem takeWhile_ne {bs₁ bs₂ : List β} (h : (bs₁ ++ b :: bs₂).Nodup) :
    (bs₁ ++ b :: bs₂).takeWhile (· ≠ b) = bs₁ := by
  have hne : ∀ x ∈ bs₁, x ≠ b := by
    rintro x hx rfl
    exact (List.nodup_middle.mp h |> List.nodup_cons.mp).1 (List.mem_append_left _ hx)
  rw [List.takeWhile_append_of_pos fun x hx => decide_eq_true (hne x hx)]
  simp

/-- Parts of a list go to parts of its image. -/
theorem map_subperm {κ : Type} {xs ys : List κ} (h : xs.Subperm ys) (f : κ → Int) :
    (xs.map f).Subperm (ys.map f) := by
  obtain ⟨zs, hperm, hsub⟩ := h
  exact ⟨zs.map f, hperm.map f, hsub.map f⟩

/-- The rounds before one in some order are among the others. -/
theorem subperm_erase {κ : Type} [DecidableEq κ] {xs xs₁ xs₂ : List κ} {x : κ}
    (h : (xs₁ ++ x :: xs₂).Perm xs) : xs₁.Subperm (xs.erase x) := by
  have hrest : (xs₁ ++ xs₂).Perm (xs.erase x) := by
    have herase := (List.perm_middle.symm.trans h).erase x
    rwa [List.erase_cons_head] at herase
  exact (List.sublist_append_left xs₁ xs₂).subperm.trans hrest.subperm

/-- When no item cares which of the others come before it, the outcome is that
of every order. -/
theorem outcome_nest (hstages : ∀ a, (stages a).Nodup) (has : as'.Perm as)
    (hparts : ∀ b, (parts' b).Perm (parts b))
    (h : ∀ a ∈ as, ∀ b ∈ stages a, ∀ r ∈ parts b, ∀ pre p post, items a b r = pre ++ p :: post →
      ∀ ws : List Int, ws.Subperm (free counts stages items as parts n a b r p) →
        effect p (bound counts stages items parts n a b pre p + ws.sum) = n p) :
    Outcome counts effect n (nest stages items as' parts') := by
  intro pre p post hsplit
  obtain ⟨as₁, a, as₂, pre₁, post₁, rfl, hround, rfl⟩ := exists_of_flatMap_eq hsplit
  obtain ⟨bs₁, b, bs₂, pre₂, post₂, hbs, hstage, rfl⟩ := exists_of_flatMap_eq hround
  obtain ⟨rs₁, r, rs₂, pre₃, post₃, hrs, hitems, rfl⟩ := exists_of_flatMap_eq hstage
  have ha : a ∈ as := has.subset (by simp)
  have hb : b ∈ stages a := by rw [hbs]; simp
  have hr : r ∈ parts b := (hparts b).subset (by rw [hrs]; simp)
  have hbefore : (stages a).takeWhile (· ≠ b) = bs₁ := by
    rw [hbs]
    exact takeWhile_ne (hbs ▸ hstages a)
  have hws : ((as₁.map fun a' => met counts n (round stages items parts a') p)
      ++ rs₁.map fun r' => met counts n (items a b r') p).Subperm
      (free counts stages items as parts n a b r p) :=
    (map_subperm (subperm_erase has) _).append (map_subperm (subperm_erase (hrs ▸ hparts b)) _)
  rw [met_before hparts, ← hbefore]
  exact (h a ha b hb r hr pre₃ p post₃ hitems _ hws).symm

/-- When the outcome is that of every order, no item cares. -/
theorem effect_of_outcomes (hstages : ∀ a, (stages a).Nodup)
    (h : ∀ as' parts', as'.Perm as → (∀ b, (parts' b).Perm (parts b)) →
      Outcome counts effect n (nest stages items as' parts'))
    (ha : a ∈ as) (hb : b ∈ stages a) (hr : r ∈ parts b) (hitems : items a b r = pre ++ p :: post)
    (P : Int → Bool) :
    effect p (bound counts stages items parts n a b pre p
      + ((free counts stages items as parts n a b r p).filter P).sum) = n p := by
  -- the rounds and parts that `P` picks come first
  let early (a' : α) : Bool := P (met counts n (round stages items parts a') p)
  let early' (r' : γ) : Bool := P (met counts n (items a b r') p)
  let as₁ := (as.erase a).filter early
  let rs₁ := ((parts b).erase r).filter early'
  let rs₂ := ((parts b).erase r).filter fun r' => !early' r'
  let parts' (b' : β) : List γ := if b' = b then rs₁ ++ r :: rs₂ else parts b'
  have has : (as₁ ++ a :: (as.erase a).filter fun a' => !early a').Perm as :=
    (List.perm_middle.trans ((List.filter_append_perm early (as.erase a)).cons a)).trans
      (List.perm_cons_erase ha).symm
  have hparts : ∀ b', (parts' b').Perm (parts b') := by
    intro b'
    by_cases hb' : b' = b
    · subst hb'
      rw [show parts' b' = rs₁ ++ r :: rs₂ from if_pos rfl]
      exact (List.perm_middle.trans ((List.filter_append_perm early' _).cons r)).trans
        (List.perm_cons_erase hr).symm
    · rw [show parts' b' = parts b' from if_neg hb']
  -- and `p` has its turn after them
  obtain ⟨bs₁, bs₂, hbs⟩ := List.append_of_mem hb
  have hbefore : (stages a).takeWhile (· ≠ b) = bs₁ := by
    rw [hbs]
    exact takeWhile_ne (hbs ▸ hstages a)
  have hsplit : ∃ rest,
      nest stages items (as₁ ++ a :: (as.erase a).filter fun a' => !early a') parts'
      = (as₁.flatMap (round stages items parts') ++ (bs₁.flatMap (stage items parts' a)
        ++ (rs₁.flatMap (items a b) ++ pre))) ++ p :: rest := by
    refine ⟨post ++ rs₂.flatMap (items a b) ++ bs₂.flatMap (stage items parts' a)
      ++ ((as.erase a).filter fun a' => !early a').flatMap (round stages items parts'), ?_⟩
    have hstage : stage items parts' a b
        = rs₁.flatMap (items a b) ++ pre ++ p :: (post ++ rs₂.flatMap (items a b)) := by
      simp only [stage]
      rw [show parts' b = rs₁ ++ r :: rs₂ from if_pos rfl, List.flatMap_append, List.flatMap_cons,
        hitems]
      simp only [List.append_assoc, List.cons_append]
    have hround : round stages items parts' a
        = bs₁.flatMap (stage items parts' a) ++ (rs₁.flatMap (items a b) ++ pre) ++ p ::
          (post ++ rs₂.flatMap (items a b) ++ bs₂.flatMap (stage items parts' a)) := by
      simp only [round]
      rw [hbs, List.flatMap_append, List.flatMap_cons, hstage]
      simp only [List.append_assoc, List.cons_append]
    simp only [nest]
    rw [List.flatMap_append, List.flatMap_cons, hround]
    simp only [List.append_assoc, List.cons_append]
  obtain ⟨rest, hsplit⟩ := hsplit
  have hturn := h _ _ has hparts _ p rest hsplit
  rw [met_before hparts] at hturn
  have hfree : (free counts stages items as parts n a b r p).filter P
      = (as₁.map fun a' => met counts n (round stages items parts a') p)
        ++ rs₁.map fun r' => met counts n (items a b r') p := by
    simp only [free]
    rw [List.filter_append, List.filter_map, List.filter_map]
    rfl
  rw [hfree, hturn]
  simp only [bound]
  rw [hbefore]

end nest

/-! ## Excesses

An excess over a limit that is the same whichever of the others come on top:
either they are all zero, or nothing of it is left even with all the positive
ones. -/

/-- The excess over a limit is the same whichever of the numbers come on top. -/
def Indifferent (x : Int) (ws : List Int) : Prop :=
  (∀ w ∈ ws, w = 0) ∨ x + (ws.map (max · 0)).sum ≤ 0

instance (x : Int) (ws : List Int) : Decidable (Indifferent x ws) :=
  inferInstanceAs (Decidable (_ ∨ _))

/-- No part of a list sums up to more than its positive numbers. -/
theorem sum_le_of_subperm {ws ws' : List Int} (h : ws'.Subperm ws) :
    ws'.sum ≤ (ws.map (max · 0)).sum := by
  obtain ⟨l, hperm, hsub⟩ := h
  have hself : ws'.sum ≤ (ws'.map (max · 0)).sum := by
    have hle : (ws'.map id).sum ≤ (ws'.map (max · 0)).sum :=
      List.sum_le_sum fun w _ => le_max_left w 0
    rwa [List.map_id] at hle
  have hmore : (l.map (max · 0)).sum ≤ (ws.map (max · 0)).sum :=
    (hsub.map _).sum_le_sum fun w hw => by
      obtain ⟨v, -, rfl⟩ := List.mem_map.mp hw
      exact le_max_right v 0
  rw [← (hperm.map (max · 0)).sum_eq] at hself
  exact le_trans hself hmore

/-- An indifferent excess is the same for any two choices. -/
theorem Indifferent.excess_eq {x : Int} {ws ws' : List Int} (h : Indifferent x ws)
    (hsub : ws'.Subperm ws) : max (x + ws'.sum) 0 = max (x + ws.sum) 0 := by
  rcases h with hzero | hfits
  · have hnothing : ∀ l : List Int, l.Subperm ws → l.sum = 0 := fun l hl =>
      List.sum_eq_zero fun w hw => hzero w (hl.subset hw)
    rw [hnothing ws' hsub, hnothing ws (List.Subperm.refl ws)]
  · have hsome := sum_le_of_subperm hsub
    have hall := sum_le_of_subperm (List.Subperm.refl ws)
    omega

theorem sum_filter_pos (ws : List Int) :
    (ws.filter (0 < ·)).sum = (ws.map (max · 0)).sum := by
  induction ws with
  | nil => rfl
  | cons w ws ih =>
    rw [List.map_cons, List.sum_cons, List.filter_cons]
    split
    · next hpos =>
      have hpos := of_decide_eq_true hpos
      rw [List.sum_cons, ih]
      omega
    · next hneg =>
      have hneg : ¬ 0 < w := fun h => hneg (decide_eq_true h)
      rw [ih]
      omega

/-- If the positive numbers and all numbers sum up to nothing, there is none. -/
theorem eq_zero_of_sum_eq {ws : List Int} (hpos : (ws.map (max · 0)).sum = 0) (hsum : ws.sum = 0) :
    ∀ w ∈ ws, w = 0 := by
  induction ws with
  | nil => exact fun _ hw => absurd hw List.not_mem_nil
  | cons w ws ih =>
    rw [List.map_cons, List.sum_cons] at hpos
    rw [List.sum_cons] at hsum
    have hrest : 0 ≤ (ws.map (max · 0)).sum := by
      have := sum_le_of_subperm (List.nil_subperm : [].Subperm ws)
      rwa [List.sum_nil] at this
    have hle := sum_le_of_subperm (List.Subperm.refl ws)
    intro v hv
    rcases List.mem_cons.mp hv with rfl | hv
    · omega
    · exact ih (by omega) (by omega) v hv

/-- Three choices are enough to tell: the positive numbers, none and all. -/
theorem indifferent_iff {x : Int} {ws : List Int} :
    Indifferent x ws ↔ ∀ P : Int → Bool, max (x + (ws.filter P).sum) 0 = max (x + ws.sum) 0 := by
  constructor
  · exact fun h P => h.excess_eq (List.filter_sublist).subperm
  · intro h
    have hpositive := h (0 < ·)
    have hnone := h fun _ => false
    rw [sum_filter_pos] at hpositive
    rw [List.filter_false, List.sum_nil] at hnone
    refine or_iff_not_imp_right.mpr fun hover => ?_
    exact eq_zero_of_sum_eq (by omega) (by omega)

end Turns
