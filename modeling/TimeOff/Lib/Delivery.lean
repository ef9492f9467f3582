import TimeOff.Lib.Refinement

/-!
# Delivery at least once

Whoever gets no answer sends again, so a label may arrive several times in a row
(`Redelivered`). Where a step that succeeded leaves a state that its repetitions
do not change, it makes no difference how often each arrives
(`Redelivered.attempts_eq`).

What is sent runs step by step, and all of it succeeds; what arrives is
attempted, and an attempt that fails leaves the state as it is. The proof is by
induction over the deliveries: behind the first arrival of a label the state is
the one it was sent for, and the repetitions that follow leave that state alone,
whether they are refused or accepted once more (`attempts_of_fixed`).
-/

variable {σ α ε : Type}

/-- What arrives when each label that is sent may be followed by repetitions. -/
inductive Redelivered (again : α → α → Prop) : List α → List α → Prop
  | nil : Redelivered again [] []
  | cons {a : α} {sent arrived : List α} (repeats : List α) (hagain : ∀ b ∈ repeats, again a b)
      (h : Redelivered again sent arrived) :
      Redelivered again (a :: sent) (a :: repeats ++ arrived)

/-- Attempts that leave a state alone leave it alone in turn. -/
theorem attempts_of_fixed {run : α → σ → Except ε σ} {s : σ} {as : List α}
    (h : ∀ a ∈ as, attempt run s a = s) : as.foldl (attempt run) s = s := by
  induction as with
  | nil => rfl
  | cons a as ih =>
    rw [List.foldl_cons, h a (List.mem_cons_self ..)]
    exact ih fun b hb => h b (List.mem_cons_of_mem a hb)

/-- Where a step that succeeded is not changed by its repetitions, what arrives
leads to the state that was sent for. -/
theorem Redelivered.attempts_eq {run : α → σ → Except ε σ} {again : α → α → Prop}
    {sent arrived : List α} (h : Redelivered again sent arrived)
    (hagain : ∀ {a b : α} {s t : σ}, run a s = .ok t → again a b → attempt run t b = t) {s t : σ}
    (hsent : sent.foldlM (fun s a => run a s) s = .ok t) :
    arrived.foldl (attempt run) s = t := by
  induction h generalizing s with
  | nil =>
    cases hsent
    rfl
  | @cons a sent arrived repeats hrepeats _ ih =>
    rw [List.foldlM_cons] at hsent
    cases hrun : run a s with
    | error e =>
      rw [hrun] at hsent
      cases hsent
    | ok u =>
      rw [hrun] at hsent
      have hfirst : attempt run s a = u := by
        simp only [attempt]
        rw [hrun]
      have hkept : repeats.foldl (attempt run) u = u :=
        attempts_of_fixed fun b hb => hagain hrun (hrepeats b hb)
      rw [List.cons_append, List.foldl_cons, hfirst, List.foldl_append, hkept]
      exact ih hsent
