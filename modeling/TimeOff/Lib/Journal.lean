import Mathlib.Algebra.Order.Ring.Int
import Mathlib.Order.Lattice
import Mathlib.Tactic.Common

/-!
# Journals

What an append-only journal of dated amounts says, and nothing else: which
sources it has recorded, and the balance of every account up to every date. An
item whose source is recorded leaves the journal alone (`enter`).

A capped credit (`credit`) enters an amount and then, under a source of its own,
the loss that brings the balance of its date back to the cap. Entering the same
credits again is harmless exactly when every one of them is `Settled` by then
(`replay_iff`): its loss is recorded, or its amount would fit a second time.

The key is that a credit which changes a journal at all records a source that
was not recorded (`credit_eq_self_or_new`), and recorded sources stay. So in a
second round none of the credits can undo what another did: if all of them
together change nothing, then none of them changes anything
(`credits_eq_self_iff`), and a single recorded credit changes nothing if and
only if it is settled (`credit_eq_self_iff`).
-/

/-- Recorded sources, and balances up to a date. -/
@[ext]
structure Journal (κ α δ : Type) where
  recorded : κ → Prop
  asOf : α → δ → Int

namespace Journal

variable {κ α δ : Type} [LinearOrder δ]

/-- An amount for an account on a date. -/
structure Item (κ α δ : Type) where
  source : κ
  account : α
  date : δ
  amount : Int

/-- An amount under a cap; what the cap takes has a source of its own. -/
structure Credit (κ α δ : Type) where
  source : κ
  lossSource : κ
  account : α
  date : δ
  amount : Int
  cap : Option Int

namespace Credit

/-- The amount itself. -/
def item (c : Credit κ α δ) : Item κ α δ := ⟨c.source, c.account, c.date, c.amount⟩

/-- What the cap does not let stand, from a balance of `before`. -/
def excess (c : Credit κ α δ) (before : Int) : Int :=
  match c.cap with
  | none => 0
  | some cap => max (before + c.amount - cap) 0

/-- What the cap takes from it. -/
def lossItem (c : Credit κ α δ) (excess : Int) : Item κ α δ :=
  ⟨c.lossSource, c.account, c.date, -excess⟩

end Credit

open Classical in
/-- Enter an item, unless its source is recorded. -/
noncomputable def enter (j : Journal κ α δ) (x : Item κ α δ) : Journal κ α δ :=
  if j.recorded x.source then j
  else
    { recorded := fun k => j.recorded k ∨ k = x.source
      asOf := fun a d => j.asOf a d + if x.account = a ∧ x.date ≤ d then x.amount else 0 }

/-- Enter a credit, and the loss its cap calls for. -/
noncomputable def credit (j : Journal κ α δ) (c : Credit κ α δ) : Journal κ α δ :=
  if c.excess (j.asOf c.account c.date) = 0 then j.enter c.item
  else (j.enter c.item).enter (c.lossItem (c.excess (j.asOf c.account c.date)))

/-- Enter credits in turn. -/
noncomputable def credits (j : Journal κ α δ) (cs : List (Credit κ α δ)) : Journal κ α δ :=
  cs.foldl credit j

/-- Nothing is left for the credit's cap to take. -/
def Settled (j : Journal κ α δ) (c : Credit κ α δ) : Prop :=
  ∀ cap ∈ c.cap, j.recorded c.lossSource ∨ j.asOf c.account c.date + c.amount ≤ cap

variable {j : Journal κ α δ} {x : Item κ α δ} {c : Credit κ α δ} {k : κ}

/-- A recorded item is not entered again. -/
theorem enter_of_recorded (h : j.recorded x.source) : j.enter x = j := if_pos h

/-- An item is recorded from then on. -/
theorem recorded_enter : (j.enter x).recorded k ↔ j.recorded k ∨ k = x.source := by
  simp only [enter]
  split
  · next h => exact ⟨Or.inl, fun hk => hk.elim id fun hk => hk ▸ h⟩
  · exact Iff.rfl

/-- A credit that fits is entered alone. -/
theorem credit_of_excess_eq (h : c.excess (j.asOf c.account c.date) = 0) :
    j.credit c = j.enter c.item := if_pos h

/-- One that does not takes its loss with it. -/
theorem credit_of_excess_ne (h : c.excess (j.asOf c.account c.date) ≠ 0) :
    j.credit c = (j.enter c.item).enter (c.lossItem (c.excess (j.asOf c.account c.date))) :=
  if_neg h

/-- Nothing recorded is forgotten. -/
theorem recorded_credit_mono (h : j.recorded k) : (j.credit c).recorded k := by
  simp only [credit]
  split
  · exact recorded_enter.mpr (Or.inl h)
  · exact recorded_enter.mpr (Or.inl (recorded_enter.mpr (Or.inl h)))

theorem recorded_credit_source : (j.credit c).recorded c.source := by
  simp only [credit]
  split
  · exact recorded_enter.mpr (Or.inr rfl)
  · exact recorded_enter.mpr (Or.inl (recorded_enter.mpr (Or.inr rfl)))

theorem recorded_credits_mono {cs : List (Credit κ α δ)} (h : j.recorded k) :
    (j.credits cs).recorded k := by
  induction cs generalizing j with
  | nil => exact h
  | cons c cs ih => exact ih (recorded_credit_mono h)

/-- After entering credits, each of their sources is recorded. -/
theorem recorded_credits {cs : List (Credit κ α δ)} (h : c ∈ cs) :
    (j.credits cs).recorded c.source := by
  induction cs generalizing j with
  | nil => cases h
  | cons d cs ih =>
    rcases List.mem_cons.mp h with rfl | h
    · exact recorded_credits_mono (j := j.credit c) recorded_credit_source
    · exact ih h

omit [LinearOrder δ] in
/-- The excess is zero when there is no cap or the amount fits under it. -/
theorem excess_eq_zero_iff {before : Int} :
    c.excess before = 0 ↔ ∀ cap ∈ c.cap, before + c.amount ≤ cap := by
  simp only [Credit.excess]
  cases c.cap with
  | none => simp
  | some cap =>
    simp only [Option.mem_def, Option.some.injEq, forall_eq']
    omega

/-- A recorded credit changes nothing exactly when it is settled. -/
theorem credit_eq_self_iff (h : j.recorded c.source) : j.credit c = j ↔ j.Settled c := by
  have henter : j.enter c.item = j := enter_of_recorded h
  by_cases hexcess : c.excess (j.asOf c.account c.date) = 0
  · rw [credit_of_excess_eq hexcess]
    exact ⟨fun _ cap hcap => Or.inr (excess_eq_zero_iff.mp hexcess cap hcap), fun _ => henter⟩
  · rw [credit_of_excess_ne hexcess, henter]
    by_cases hloss : j.recorded c.lossSource
    · have hself := enter_of_recorded
        (x := c.lossItem (c.excess (j.asOf c.account c.date))) hloss
      exact ⟨fun _ _ _ => Or.inl hloss, fun _ => hself⟩
    · constructor
      · intro heq
        refine absurd ?_ hloss
        rw [← heq]
        exact recorded_enter.mpr (Or.inr rfl)
      · intro hsettled
        refine absurd (excess_eq_zero_iff.mpr fun cap hcap => ?_) hexcess
        exact (hsettled cap hcap).resolve_left hloss

/-- A credit that changes a journal records a new source. -/
theorem credit_eq_self_or_new :
    j.credit c = j ∨ ∃ k, ¬ j.recorded k ∧ (j.credit c).recorded k := by
  by_cases h : j.recorded c.source
  · by_cases hloss : j.recorded c.lossSource
    · exact Or.inl ((credit_eq_self_iff h).mpr fun _ _ => Or.inl hloss)
    · by_cases hexcess : c.excess (j.asOf c.account c.date) = 0
      · exact Or.inl ((credit_of_excess_eq hexcess).trans (enter_of_recorded h))
      · refine Or.inr ⟨c.lossSource, hloss, ?_⟩
        rw [credit_of_excess_ne hexcess]
        exact recorded_enter.mpr (Or.inr rfl)
  · exact Or.inr ⟨c.source, h, recorded_credit_source⟩

/-- Recorded credits change nothing exactly when all of them are settled. -/
theorem credits_eq_self_iff {cs : List (Credit κ α δ)} (h : ∀ c ∈ cs, j.recorded c.source) :
    j.credits cs = j ↔ ∀ c ∈ cs, j.Settled c := by
  induction cs with
  | nil => exact ⟨fun _ _ hc => absurd hc List.not_mem_nil, fun _ => rfl⟩
  | cons c cs ih =>
    have ih := ih fun d hd => h d (List.mem_cons_of_mem _ hd)
    have hc := credit_eq_self_iff (h c (List.mem_cons_self ..))
    rw [List.forall_mem_cons, ← hc, ← ih]
    constructor
    · intro heq
      have hfirst : j.credit c = j := by
        rcases credit_eq_self_or_new (j := j) (c := c) with hself | ⟨k, hk, hnew⟩
        · exact hself
        · refine absurd ?_ hk
          rw [← heq]
          exact recorded_credits_mono (j := j.credit c) hnew
      refine ⟨hfirst, ?_⟩
      show cs.foldl credit j = j
      conv_lhs => rw [← hfirst]
      exact heq
    · rintro ⟨hfirst, hrest⟩
      show (j.credit c).credits cs = j
      rw [hfirst]
      exact hrest

/-- **Replaying capped credits**: the second round changes nothing exactly when
the first leaves every credit settled. -/
theorem replay_iff {cs : List (Credit κ α δ)} :
    (j.credits cs).credits cs = j.credits cs ↔ ∀ c ∈ cs, (j.credits cs).Settled c :=
  credits_eq_self_iff fun _ hc => recorded_credits hc

end Journal
