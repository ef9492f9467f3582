import Mathlib.Tactic.Common

/-!
# One system refining another

Two systems with the same labels, each with a fallible step. The first refines
the second through `abs` when, in the states of an invariant, a step and the
step it stands for fail with the same error or end in states that correspond
(`Refines`). Whoever tries labels in turn then cannot tell the two apart: the
same ones are refused, with the same errors, and the states keep corresponding.

- `attempt`: the state after a step was tried, unchanged when it failed;
- `attempts_rel`: what steps keep and do, attempts in turn keep and do;
- `outcomes`: what a caller sees of a list of attempts;
- `Refines.attempts_eq`, `Refines.outcomes_eq`: both agree along every list.
-/

variable {σ τ α ε : Type}

/-- The state after a step was tried. -/
def attempt (run : α → σ → Except ε σ) (s : σ) (a : α) : σ :=
  match run a s with
  | .ok t => t
  | .error _ => s

/-- The errors of attempts in turn, `none` for those that succeed. -/
def outcomes (run : α → σ → Except ε σ) : List α → σ → List (Option ε)
  | [], _ => []
  | a :: as, s =>
    match run a s with
    | .ok t => none :: outcomes run as t
    | .error e => some e :: outcomes run as s

/-- What every step keeps, and does to the state, attempts in turn keep and do. -/
theorem attempts_rel {run : α → σ → Except ε σ} {I : σ → Prop} {R : σ → σ → Prop}
    (hrefl : ∀ s, R s s) (htrans : ∀ {s t u}, R s t → R t u → R s u) {as : List α}
    (hstep : ∀ a ∈ as, ∀ {s t}, I s → run a s = .ok t → I t ∧ R s t) {s : σ} (hs : I s) :
    I (as.foldl (attempt run) s) ∧ R s (as.foldl (attempt run) s) := by
  induction as generalizing s with
  | nil => exact ⟨hs, hrefl s⟩
  | cons a as ih =>
    have hrest : ∀ b ∈ as, ∀ {s t}, I s → run b s = .ok t → I t ∧ R s t :=
      fun b hb => hstep b (List.mem_cons_of_mem a hb)
    cases hrun : run a s with
    | ok t =>
      obtain ⟨ht, hst⟩ := hstep a (List.mem_cons_self ..) hs hrun
      have hfirst : attempt run s a = t := by
        simp only [attempt]
        rw [hrun]
      rw [List.foldl_cons, hfirst]
      exact (ih hrest ht).imp_right (htrans hst)
    | error e =>
      have hfirst : attempt run s a = s := by
        simp only [attempt]
        rw [hrun]
      rw [List.foldl_cons, hfirst]
      exact ih hrest hs

/-- In the states of `I`, steps and the plain steps they stand for succeed and
fail alike. -/
structure Refines (run : α → σ → Except ε σ) (plain : α → τ → Except ε τ) (abs : σ → τ)
    (I : σ → Prop) : Prop where
  keeps : ∀ {s t a}, I s → run a s = .ok t → I t
  commutes : ∀ {s} a, I s → (run a s).map abs = plain a (abs s)

namespace Refines

variable {run : α → σ → Except ε σ} {plain : α → τ → Except ε τ} {abs : σ → τ} {I : σ → Prop}

/-- A step that fails is refused by both. -/
theorem error (h : Refines run plain abs I) {s : σ} {a : α} {e : ε} (hs : I s)
    (hrun : run a s = .error e) : plain a (abs s) = .error e := by
  rw [← h.commutes a hs, hrun]
  rfl

/-- A step that succeeds is the plain step between the states that correspond. -/
theorem ok (h : Refines run plain abs I) {s t : σ} {a : α} (hs : I s) (hrun : run a s = .ok t) :
    plain a (abs s) = .ok (abs t) := by
  rw [← h.commutes a hs, hrun]
  rfl

/-- So the two correspond after an attempt, successful or not. -/
theorem attempt_eq (h : Refines run plain abs I) {s : σ} (hs : I s) (a : α) :
    I (attempt run s a) ∧ abs (attempt run s a) = attempt plain (abs s) a := by
  cases hrun : run a s with
  | ok t =>
    simp only [attempt]
    rw [hrun, h.ok hs hrun]
    exact ⟨h.keeps hs hrun, rfl⟩
  | error e =>
    simp only [attempt]
    rw [hrun, h.error hs hrun]
    exact ⟨hs, rfl⟩

/-- The states correspond along every list of attempts. -/
theorem attempts_eq (h : Refines run plain abs I) (as : List α) {s : σ} (hs : I s) :
    abs (as.foldl (attempt run) s) = as.foldl (attempt plain) (abs s) := by
  induction as generalizing s with
  | nil => rfl
  | cons a as ih =>
    obtain ⟨hkept, heq⟩ := h.attempt_eq hs a
    rw [List.foldl_cons, ih hkept, heq]
    rfl

/-- And the same attempts fail, with the same errors. -/
theorem outcomes_eq (h : Refines run plain abs I) (as : List α) {s : σ} (hs : I s) :
    outcomes run as s = outcomes plain as (abs s) := by
  induction as generalizing s with
  | nil => rfl
  | cons a as ih =>
    cases hrun : run a s with
    | ok t =>
      simp only [outcomes]
      rw [hrun, h.ok hs hrun]
      exact congrArg (none :: ·) (ih (h.keeps hs hrun))
    | error e =>
      simp only [outcomes]
      rw [hrun, h.error hs hrun]
      exact congrArg (some e :: ·) (ih hs)

end Refines
