import Mathlib.Algebra.Order.BigOperators.Group.List
import Mathlib.Algebra.Order.Ring.Int
import Mathlib.Data.List.Nodup
import Mathlib.Tactic.Common

/-!
# Tables with a unique key

A `Table` is a list of rows in insertion order together with the proof that no
two rows share a key: a unique index, so a state that violates it cannot be
built. Inserting fails on a taken key (`insert?`) or silently keeps the table
(`insertNew`, the `ON CONFLICT DO NOTHING` of SQL); updating a row by key
(`modify`) must keep the key.

Sums over the rows (`sum`) are how balances and counters read a table, so each
operation comes with the equation for what it does to a sum.

The lemmas about an operation are always the same few: which keys are taken
afterwards (`has_insertNew`, `has_modify`), which rows are there
(`mem_insertNew`, `mem_modify`), what is found under a key
(`find?_insertNew_self`, `find?_modify_of_ne`) and what a sum comes to
(`sum_insertNew`, `sum_modify`). Invariants of tables are proved from these and
never from the list below.

A `Relation` is the plainer thing: rows under any constraint, rewritten as a
whole, where a rewrite that violates the constraint is refused.
-/

/-- Rows in the order of their insertion, no two with one key. -/
structure Table (κ ρ : Type) (key : ρ → κ) where
  rows : List ρ
  nodup : (rows.map key).Nodup

namespace Table

variable {κ ρ : Type} {key : ρ → κ}

/-- A table is its rows. -/
theorem ext' {t u : Table κ ρ key} (h : t.rows = u.rows) : t = u := by
  cases t
  cases u
  cases h
  rfl

/-- The table without rows. -/
def empty : Table κ ρ key := ⟨[], List.nodup_nil⟩

/-- The table of one row. -/
def singleton (r : ρ) : Table κ ρ key := ⟨[r], List.nodup_singleton _⟩

/-- The key is taken. -/
def Has (t : Table κ ρ key) (k : κ) : Prop := k ∈ t.rows.map key

theorem has_of_mem {t : Table κ ρ key} {r : ρ} (h : r ∈ t.rows) : t.Has (key r) :=
  List.mem_map_of_mem h

/-- Rows are determined by their key. -/
theorem eq_of_key {t : Table κ ρ key} {r s : ρ} (hr : r ∈ t.rows) (hs : s ∈ t.rows)
    (h : key r = key s) : r = s :=
  List.inj_on_of_nodup_map t.nodup hr hs h

/-! ## Deleting -/

/-- Keep the rows that satisfy `p`. -/
def filter (t : Table κ ρ key) (p : ρ → Bool) : Table κ ρ key :=
  ⟨t.rows.filter p, t.nodup.sublist ((List.filter_sublist).map key)⟩

/-- Deleting rows keeps the others. -/
theorem mem_filter {t : Table κ ρ key} {p : ρ → Bool} {r : ρ} :
    r ∈ (t.filter p).rows ↔ r ∈ t.rows ∧ p r = true :=
  List.mem_filter

/-! ## Sums

Sums over the rows, and the row of a key. -/

/-- The sum of `w` over the rows. -/
def sum (t : Table κ ρ key) (w : ρ → Int) : Int := (t.rows.map w).sum

/-- A sum depends on what it adds up. -/
theorem sum_congr {t : Table κ ρ key} {v w : ρ → Int} (h : ∀ r ∈ t.rows, v r = w r) :
    t.sum v = t.sum w :=
  congrArg List.sum (List.map_congr_left h)

theorem sum_eq_zero {t : Table κ ρ key} {w : ρ → Int} (h : ∀ r ∈ t.rows, w r = 0) :
    t.sum w = 0 :=
  List.sum_eq_zero fun x hx => by
    obtain ⟨r, hr, rfl⟩ := List.mem_map.mp hx
    exact h r hr

/-- A sum over the rows with a property. -/
theorem sum_ite {t : Table κ ρ key} {p : ρ → Prop} [DecidablePred p] {w : ρ → Int} :
    (t.sum fun r => if p r then w r else 0) = ((t.rows.filter fun r => p r).map w).sum := by
  unfold sum
  induction t.rows with
  | nil => rfl
  | cons r rows ih =>
    rw [List.map_cons, List.sum_cons, ih]
    by_cases hp : p r
    · simp [hp]
    · simp [hp]

/-- One row is at most the sum, when no row is negative. -/
theorem le_sum {t : Table κ ρ key} {w : ρ → Int} (h : ∀ r ∈ t.rows, 0 ≤ w r) {r : ρ}
    (hr : r ∈ t.rows) : w r ≤ t.sum w := by
  unfold sum
  refine List.single_le_sum ?_ _ (List.mem_map_of_mem hr)
  intro x hx
  obtain ⟨s, hs, rfl⟩ := List.mem_map.mp hx
  exact h s hs

/-- A sum to which one key contributes is bounded by what bounds that row. -/
theorem sum_le_of_key {t : Table κ ρ key} {w : ρ → Int} {k : κ} {b : Int} (hb : 0 ≤ b)
    (hle : ∀ r ∈ t.rows, key r = k → w r ≤ b) (hzero : ∀ r ∈ t.rows, key r ≠ k → w r = 0) :
    t.sum w ≤ b := by
  by_cases h : ∃ r ∈ t.rows, key r = k
  · obtain ⟨r, hr, rfl⟩ := h
    obtain ⟨as, bs, hsplit⟩ := List.append_of_mem hr
    have hnd := t.nodup
    rw [hsplit, List.map_append, List.map_cons, List.nodup_append] at hnd
    obtain ⟨-, hbs, hdisj⟩ := hnd
    have hsum : ∀ l : List ρ, (∀ s ∈ l, w s = 0) → (l.map w).sum = 0 := by
      intro l hl
      refine List.sum_eq_zero fun x hx => ?_
      obtain ⟨s, hs, rfl⟩ := List.mem_map.mp hx
      exact hl s hs
    have has : ∀ s ∈ as, w s = 0 := fun s hs => hzero s
      (hsplit ▸ List.mem_append_left _ hs)
      (hdisj _ (List.mem_map_of_mem hs) _ (List.mem_cons_self ..))
    have hbs' : ∀ s ∈ bs, w s = 0 := fun s hs => hzero s
      (hsplit ▸ List.mem_append_right _ (List.mem_cons_of_mem _ hs))
      fun he => (List.nodup_cons.mp hbs).1 (he ▸ List.mem_map_of_mem hs)
    unfold sum
    rw [hsplit, List.map_append, List.map_cons, List.sum_append, List.sum_cons, hsum as has,
      hsum bs hbs']
    have := hle r hr rfl
    omega
  · push Not at h
    rw [sum_eq_zero fun r hr => hzero r hr (h r hr)]
    exact hb

variable [DecidableEq κ]

instance (t : Table κ ρ key) (k : κ) : Decidable (t.Has k) :=
  inferInstanceAs (Decidable (k ∈ t.rows.map key))

/-- The row with key `k`. -/
def find? (t : Table κ ρ key) (k : κ) : Option ρ := t.rows.find? fun r => key r = k

/-- The row found under a key is the one that has it. -/
theorem find?_eq_some {t : Table κ ρ key} {k : κ} {r : ρ} :
    t.find? k = some r ↔ r ∈ t.rows ∧ key r = k := by
  constructor
  · intro h
    exact ⟨List.mem_of_find?_eq_some h, by simpa using List.find?_some h⟩
  · rintro ⟨hr, rfl⟩
    unfold find?
    cases hf : t.rows.find? fun s => key s = key r with
    | none =>
      have := List.find?_eq_none.mp hf r hr
      simp at this
    | some s =>
      rw [eq_of_key (List.mem_of_find?_eq_some hf) hr (by simpa using List.find?_some hf)]

/-- Nothing is found under a free key. -/
theorem find?_eq_none {t : Table κ ρ key} {k : κ} : t.find? k = none ↔ ¬ t.Has k := by
  unfold find? Has
  rw [List.find?_eq_none]
  simp

theorem has_iff {t : Table κ ρ key} {k : κ} : t.Has k ↔ ∃ r, t.find? k = some r := by
  cases h : t.find? k with
  | none => simpa using find?_eq_none.mp h
  | some r =>
    obtain ⟨hr, rfl⟩ := find?_eq_some.mp h
    exact ⟨fun _ => ⟨r, rfl⟩, fun _ => has_of_mem hr⟩

/-! ## Inserting

Three ways to insert: fail on a taken key, do nothing on one, or go through a
list. -/

/-- Insert a row, unless its key is taken. -/
def insert? (t : Table κ ρ key) (r : ρ) : Option (Table κ ρ key) :=
  if h : t.Has (key r) then none
  else some ⟨t.rows ++ [r], by
    rw [List.map_append, List.map_singleton]
    exact List.Nodup.append t.nodup (List.nodup_singleton _)
      (List.disjoint_singleton.mpr h)⟩

/-- Insert a row; on a taken key keep the table. -/
def insertNew (t : Table κ ρ key) (r : ρ) : Table κ ρ key := (t.insert? r).getD t

/-- An insert that goes through had a free key and appends the row. -/
theorem insert?_eq_some {t u : Table κ ρ key} {r : ρ} (h : t.insert? r = some u) :
    ¬ t.Has (key r) ∧ u.rows = t.rows ++ [r] := by
  unfold insert? at h
  split at h
  · cases h
  · next hn =>
    cases h
    exact ⟨hn, rfl⟩

/-- On a free key the two inserts agree. -/
theorem insert?_of_not_has {t : Table κ ρ key} {r : ρ} (h : ¬ t.Has (key r)) :
    t.insert? r = some (t.insertNew r) := by
  unfold insertNew insert?
  rw [dif_neg h]
  rfl

theorem insert?_of_has {t : Table κ ρ key} {r : ρ} (h : t.Has (key r)) : t.insert? r = none := by
  unfold insert?
  rw [dif_pos h]

/-- On a taken key nothing is inserted. -/
theorem insertNew_of_has {t : Table κ ρ key} {r : ρ} (h : t.Has (key r)) : t.insertNew r = t := by
  unfold insertNew
  rw [insert?_of_has h]
  rfl

theorem rows_insertNew {t : Table κ ρ key} {r : ρ} (h : ¬ t.Has (key r)) :
    (t.insertNew r).rows = t.rows ++ [r] :=
  (insert?_eq_some (insert?_of_not_has h)).2

/-- Every row was there or is the inserted one. -/
theorem mem_insertNew {t : Table κ ρ key} {r s : ρ} (h : s ∈ (t.insertNew r).rows) :
    s ∈ t.rows ∨ (s = r ∧ ¬ t.Has (key r)) := by
  by_cases hr : t.Has (key r)
  · rw [insertNew_of_has hr] at h
    exact Or.inl h
  · rw [rows_insertNew hr, List.mem_append, List.mem_singleton] at h
    exact h.imp_right fun h => ⟨h, hr⟩

/-- No row is lost. -/
theorem subset_insertNew (t : Table κ ρ key) (r : ρ) : t.rows ⊆ (t.insertNew r).rows := by
  intro s hs
  by_cases hr : t.Has (key r)
  · rwa [insertNew_of_has hr]
  · rw [rows_insertNew hr]
    exact List.mem_append_left _ hs

/-- The key of the row is taken afterwards, whoever has it. -/
theorem has_insertNew {t : Table κ ρ key} {r : ρ} {k : κ} :
    (t.insertNew r).Has k ↔ t.Has k ∨ k = key r := by
  by_cases hr : t.Has (key r)
  · rw [insertNew_of_has hr]
    exact ⟨Or.inl, fun h => h.elim id fun h => h ▸ hr⟩
  · unfold Has
    rw [rows_insertNew hr, List.map_append, List.mem_append]
    simp

theorem find?_insertNew_self {t : Table κ ρ key} {r : ρ} (h : ¬ t.Has (key r)) :
    (t.insertNew r).find? (key r) = some r := by
  refine find?_eq_some.mpr ⟨?_, rfl⟩
  rw [rows_insertNew h]
  exact List.mem_append_right _ (List.mem_singleton.mpr rfl)

/-- Other keys find what they found. -/
theorem find?_insertNew_of_ne {t : Table κ ρ key} {r : ρ} {k : κ} (h : k ≠ key r) :
    (t.insertNew r).find? k = t.find? k := by
  by_cases hr : t.Has (key r)
  · rw [insertNew_of_has hr]
  · unfold find?
    rw [rows_insertNew hr, List.find?_append]
    have hnone : [r].find? (fun s => decide (key s = k)) = none := by
      simpa using fun he => h he.symm
    rw [hnone, Option.or_none]

/-- Insert rows in turn; the first row with a key wins. -/
def insertAll (t : Table κ ρ key) (rs : List ρ) : Table κ ρ key := rs.foldl insertNew t

@[simp] theorem insertAll_nil {t : Table κ ρ key} : t.insertAll [] = t := rfl

@[simp] theorem insertAll_cons {t : Table κ ρ key} {r : ρ} {rs : List ρ} :
    t.insertAll (r :: rs) = (t.insertNew r).insertAll rs := rfl

/-- Inserting two lists is inserting one after the other. -/
theorem insertAll_append {t : Table κ ρ key} {rs ss : List ρ} :
    t.insertAll (rs ++ ss) = (t.insertAll rs).insertAll ss := List.foldl_append

/-- When keys determine the inserted rows, the order of the inserts is
irrelevant: what is there afterwards is what was there, and the rows whose key
was free. -/
theorem mem_insertAll {t : Table κ ρ key} {rs : List ρ}
    (hkey : ∀ r ∈ rs, ∀ s ∈ rs, key r = key s → r = s) {x : ρ} :
    x ∈ (t.insertAll rs).rows ↔ x ∈ t.rows ∨ (x ∈ rs ∧ ¬ t.Has (key x)) := by
  induction rs generalizing t with
  | nil => simp
  | cons r rs ih =>
    have htail := ih (t := t.insertNew r) fun a ha b hb =>
      hkey a (List.mem_cons_of_mem _ ha) b (List.mem_cons_of_mem _ hb)
    rw [insertAll_cons, htail, List.mem_cons, has_insertNew]
    by_cases hr : t.Has (key r)
    · rw [insertNew_of_has hr]
      constructor
      · rintro (hx | ⟨hx, hfree⟩)
        · exact Or.inl hx
        · exact Or.inr ⟨Or.inr hx, fun h => hfree (Or.inl h)⟩
      · rintro (hx | ⟨rfl | hx, hfree⟩)
        · exact Or.inl hx
        · exact absurd hr hfree
        · refine Or.inr ⟨hx, fun h => h.elim hfree fun he => hfree (he ▸ hr)⟩
    · rw [rows_insertNew hr, List.mem_append, List.mem_singleton]
      constructor
      · rintro ((hx | rfl) | ⟨hx, hfree⟩)
        · exact Or.inl hx
        · exact Or.inr ⟨Or.inl rfl, hr⟩
        · exact Or.inr ⟨Or.inr hx, fun h => hfree (Or.inl h)⟩
      · rintro (hx | ⟨rfl | hx, hfree⟩)
        · exact Or.inl (Or.inl hx)
        · exact Or.inl (Or.inr rfl)
        · by_cases he : key x = key r
          · -- the key is the first row's, so the row is
            exact Or.inl (Or.inr (hkey x (List.mem_cons_of_mem _ hx) r (List.mem_cons_self ..) he))
          · exact Or.inr ⟨hx, fun h => h.elim hfree he⟩

/-! ## Updating -/

/-- Update the row with key `k`, if there is one. -/
def modify (t : Table κ ρ key) (k : κ) (f : ρ → ρ) (hf : ∀ r, key (f r) = key r) :
    Table κ ρ key :=
  ⟨t.rows.map fun r => if key r = k then f r else r, by
    rw [List.map_map]
    have : (key ∘ fun r => if key r = k then f r else r) = key := by
      funext r
      show key (if key r = k then f r else r) = key r
      split
      · exact hf r
      · rfl
    rw [this]
    exact t.nodup⟩

section modify
variable {t : Table κ ρ key} {k : κ} {f : ρ → ρ} {hf : ∀ r, key (f r) = key r}

/-- An update keeps the keys and their order. -/
theorem keys_modify : (t.modify k f hf).rows.map key = t.rows.map key := by
  unfold modify
  rw [List.map_map]
  refine List.map_congr_left fun r _ => ?_
  show key (if key r = k then f r else r) = key r
  split
  · exact hf r
  · rfl

theorem has_modify {j : κ} : (t.modify k f hf).Has j ↔ t.Has j := by
  unfold Has modify
  rw [List.map_map]
  have : (key ∘ fun r => if key r = k then f r else r) = key := by
    funext r
    show key (if key r = k then f r else r) = key r
    split
    · exact hf r
    · rfl
  rw [this]

/-- The rows after an update are the old ones, the one with the key changed. -/
theorem mem_modify {s : ρ} :
    s ∈ (t.modify k f hf).rows ↔ ∃ r ∈ t.rows, s = if key r = k then f r else r := by
  unfold modify
  rw [List.mem_map]
  exact ⟨fun ⟨r, hr, h⟩ => ⟨r, hr, h.symm⟩, fun ⟨r, hr, h⟩ => ⟨r, hr, h.symm⟩⟩

/-- A row after the update of `r` is the updated one, or an old one with another key. -/
theorem eq_or_mem_of_mem_modify {r s : ρ} (hr : r ∈ t.rows)
    (hs : s ∈ (t.modify (key r) f hf).rows) : s = f r ∨ (s ∈ t.rows ∧ key s ≠ key r) := by
  obtain ⟨x, hx, rfl⟩ := mem_modify.mp hs
  split
  · next hk => exact Or.inl (congrArg f (eq_of_key hx hr hk))
  · next hk => exact Or.inr ⟨hx, hk⟩

/-- The updated row is found under its key. -/
theorem find?_modify_self {r : ρ} (h : t.find? k = some r) :
    (t.modify k f hf).find? k = some (f r) := by
  obtain ⟨hr, hk⟩ := find?_eq_some.mp h
  refine find?_eq_some.mpr ⟨mem_modify.mpr ⟨r, hr, ?_⟩, (hf r).trans hk⟩
  rw [if_pos hk]

theorem find?_modify_of_ne {j : κ} (h : j ≠ k) : (t.modify k f hf).find? j = t.find? j := by
  cases hj : t.find? j with
  | none => exact find?_eq_none.mpr fun hh => find?_eq_none.mp hj (has_modify.mp hh)
  | some r =>
    obtain ⟨hr, hk⟩ := find?_eq_some.mp hj
    refine find?_eq_some.mpr ⟨mem_modify.mpr ⟨r, hr, ?_⟩, hk⟩
    rw [if_neg (hk ▸ h)]

/-- An update without a row does nothing. -/
theorem modify_of_not_has (h : ¬ t.Has k) : t.modify k f hf = t := by
  apply ext'
  unfold modify
  conv_rhs => rw [← List.map_id t.rows]
  refine List.map_congr_left fun r hr => ?_
  rw [if_neg, id]
  rintro rfl
  exact h (has_of_mem hr)

end modify

/-! ## What inserting and updating do to a sum -/

/-- A new row adds its part to a sum. -/
theorem sum_insertNew {t : Table κ ρ key} {r : ρ} (h : ¬ t.Has (key r)) (w : ρ → Int) :
    (t.insertNew r).sum w = t.sum w + w r := by
  unfold sum
  rw [rows_insertNew h, List.map_append, List.sum_append, List.map_singleton, List.sum_singleton]

/-- Updating one row changes a sum by that row's difference. -/
theorem sum_modify {t : Table κ ρ key} {k : κ} {f : ρ → ρ} {hf : ∀ r, key (f r) = key r} {r : ρ}
    (h : t.find? k = some r) (w : ρ → Int) :
    (t.modify k f hf).sum w = t.sum w - w r + w (f r) := by
  obtain ⟨hr, rfl⟩ := find?_eq_some.mp h
  show ((t.rows.map fun s => if key s = key r then f s else s).map w).sum
    = (t.rows.map w).sum - w r + w (f r)
  obtain ⟨as, bs, hsplit⟩ := List.append_of_mem hr
  have hnd := t.nodup
  rw [hsplit, List.map_append, List.map_cons, List.nodup_append] at hnd
  obtain ⟨-, hbs, hdisj⟩ := hnd
  have hkeep : ∀ l : List ρ, (∀ s ∈ l, key s ≠ key r) →
      (l.map fun s => if key s = key r then f s else s).map w = l.map w := by
    intro l hl
    rw [List.map_map]
    refine List.map_congr_left fun s hs => ?_
    show w (if key s = key r then f s else s) = w s
    rw [if_neg (hl s hs)]
  have has : ∀ s ∈ as, key s ≠ key r := fun s hs =>
    hdisj _ (List.mem_map_of_mem hs) _ (List.mem_cons_self ..)
  have hbs' : ∀ s ∈ bs, key s ≠ key r := fun s hs he =>
    (List.nodup_cons.mp hbs).1 (he ▸ List.mem_map_of_mem hs)
  rw [hsplit, List.map_append, List.map_append, List.map_cons, List.map_cons, hkeep as has,
    hkeep bs hbs', if_pos rfl]
  simp only [List.map_append, List.map_cons, List.sum_append, List.sum_cons]
  omega

end Table

/-- Images of a list that are the same up to order are the same throughout if
they agree on a key. -/
theorem List.eq_of_map_perm {α β κ : Type} {l : List α} {f g : α → β} {key : β → κ}
    (hkey : ∀ x ∈ l, key (f x) = key (g x)) (hnodup : (l.map fun x => key (g x)).Nodup)
    (h : (l.map f).Perm (l.map g)) {x : α} (hx : x ∈ l) : f x = g x := by
  obtain ⟨y, hy, heq⟩ := List.mem_map.mp (h.subset (List.mem_map_of_mem hx))
  have hxy : x = y := List.inj_on_of_nodup_map hnodup hx hy (by rw [heq, hkey x hx])
  rw [hxy] at heq ⊢
  exact heq.symm

/-! ## Rows under a constraint -/

/-- Rows that satisfy a constraint. -/
structure Relation {ρ : Type} (C : List ρ → Prop) where
  rows : List ρ
  holds : C rows

namespace Relation

variable {ρ : Type} {C : List ρ → Prop}

def empty (h : C []) : Relation C := ⟨[], h⟩

theorem eq_of_rows {t u : Relation C} (h : t.rows = u.rows) : t = u := by
  cases t
  cases u
  cases h
  rfl

/-- Replace the rows, unless the constraint forbids it. -/
def set? [DecidablePred C] (rows : List ρ) : Option (Relation C) :=
  if h : C rows then some ⟨rows, h⟩ else none

/-- A rewrite that is accepted leaves just those rows. -/
theorem rows_of_set? [DecidablePred C] {rows : List ρ} {t : Relation C} (h : set? rows = some t) :
    t.rows = rows := by
  unfold set? at h
  split at h
  · cases h
    rfl
  · cases h

end Relation
