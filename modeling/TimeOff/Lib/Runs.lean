import Mathlib.Tactic.Common

/-!
# Runs of a labelled transition relation

A `Trail` is a run with its transitions spelled out, so that "in every state of
the run" and "at every step of the run" are statements about one list.

- `Trail.invariant`: what every step preserves holds at the end of every run;
- `Trail.guarded`: what every step satisfying a guard preserves holds in every
  state of a run whose steps all satisfy it;
- `Trail.guard_iff`: when a step that misses the guard also breaks the property,
  the runs all of whose states have the property are exactly the guarded ones.

All of them are inductions over the list from its end, the latest transition. In
the last the property and an auxiliary invariant go together: the invariant is
there in every state of every run and may be used to show that a step keeps or
breaks the property.

Passes over a list whose steps each settle their own label are idempotent
(`List.foldl_foldl_of_settled`).
-/

variable {σ α : Type}

/-- A run from `s`, as the list of its transitions (state, label, next state),
oldest first, together with its last state. -/
inductive Trail (step : σ → α → σ → Prop) (s : σ) : List (σ × α × σ) → σ → Prop
  | nil : Trail step s [] s
  | snoc {l : List (σ × α × σ)} {t u : σ} {a : α} :
      Trail step s l t → step t a u → Trail step s (l ++ [(t, a, u)]) u

namespace Trail

variable {step : σ → α → σ → Prop} {s t : σ} {l : List (σ × α × σ)}

/-- An invariant of every step holds at the end of every run. -/
theorem invariant {I : σ → Prop} (h : Trail step s l t) (h₀ : I s)
    (hstep : ∀ {t a u}, I t → step t a u → I u) : I t := by
  induction h with
  | nil => exact h₀
  | snoc _ hs ih => exact hstep ih hs

/-- And it holds before every step. -/
theorem before {I : σ → Prop} (h : Trail step s l t) (h₀ : I s)
    (hstep : ∀ {t a u}, I t → step t a u → I u) : ∀ x ∈ l, I x.1 := by
  induction h with
  | nil => exact fun x hx => absurd hx List.not_mem_nil
  | snoc hp _ ih =>
    rw [List.forall_mem_append, List.forall_mem_singleton]
    exact ⟨ih, hp.invariant h₀ hstep⟩

/-- Every transition listed is a step. -/
theorem steps (h : Trail step s l t) : ∀ x ∈ l, step x.1 x.2.1 x.2.2 := by
  induction h with
  | nil => exact fun x hx => absurd hx List.not_mem_nil
  | snoc _ hs ih =>
    rw [List.forall_mem_append, List.forall_mem_singleton]
    exact ⟨ih, hs⟩

/-- What guarded steps preserve holds at the end of every guarded run. -/
theorem guarded_last {Inv : σ → Prop} {guard : σ → α → Prop} (h : Trail step s l t) (h₀ : Inv s)
    (hstep : ∀ {t a u}, Inv t → guard t a → step t a u → Inv u)
    (hg : ∀ x ∈ l, guard x.1 x.2.1) : Inv t := by
  induction h with
  | nil => exact h₀
  | snoc _ hs ih =>
    rw [List.forall_mem_append, List.forall_mem_singleton] at hg
    exact hstep (ih hg.1) hg.2 hs

/-- What holds in every state of a run holds in the last. -/
theorem last_of_forall {G : σ → Prop} (h : Trail step s l t) (h₀ : G s)
    (hall : ∀ x ∈ l, G x.2.2) : G t := by
  cases h with
  | nil => exact h₀
  | snoc _ _ => exact hall _ (List.mem_append_right _ (List.mem_singleton.mpr rfl))

/-- What guarded steps preserve holds in every state of a guarded run. -/
theorem guarded {Inv : σ → Prop} (h : Trail step s l t) (guard : σ → α → Prop) (h₀ : Inv s)
    (hstep : ∀ {t a u}, Inv t → guard t a → step t a u → Inv u)
    (hg : ∀ x ∈ l, guard x.1 x.2.1) : ∀ x ∈ l, Inv x.2.2 := by
  induction h with
  | nil => exact fun x hx => absurd hx List.not_mem_nil
  | snoc hp hs ih =>
    rw [List.forall_mem_append, List.forall_mem_singleton] at hg
    rw [List.forall_mem_append, List.forall_mem_singleton]
    exact ⟨ih hg.1, hstep (hp.guarded_last h₀ hstep hg.1) hg.2 hs⟩

/-- If guarded steps preserve the property (with an auxiliary invariant) and
unguarded ones break it, the runs that keep the property throughout are the
guarded ones. -/
theorem guard_iff {G : σ → Prop} {guard : σ → α → Prop} (h : Trail step s l t)
    (Inv : σ → Prop) (h₀ : Inv s ∧ G s)
    (hstep : ∀ {t a u}, Inv t ∧ G t → guard t a → step t a u → Inv u ∧ G u)
    (hbreak : ∀ {t a u}, Inv t ∧ G t → step t a u → G u → guard t a) :
    (∀ x ∈ l, G x.2.2) ↔ ∀ x ∈ l, guard x.1 x.2.1 := by
  refine ⟨fun hgood => ?_, fun hg x hx => (h.guarded guard h₀ hstep hg x hx).2⟩
  induction h with
  | nil => exact fun x hx => absurd hx List.not_mem_nil
  | snoc hp hs ih =>
    rw [List.forall_mem_append, List.forall_mem_singleton] at hgood
    rw [List.forall_mem_append, List.forall_mem_singleton]
    have hg := ih hgood.1
    exact ⟨hg, hbreak (hp.guarded_last h₀ hstep hg) hs hgood.2⟩

/-- What steps preserve holds from every state of a run to its end. -/
theorem rel_last {R : σ → σ → Prop} (h : Trail step s l t) (hrefl : ∀ s, R s s)
    (htrans : ∀ {s t u}, R s t → R t u → R s u) (hstep : ∀ {t a u}, step t a u → R t u) :
    ∀ x ∈ l, R x.2.2 t := by
  induction h with
  | nil => exact fun x hx => absurd hx List.not_mem_nil
  | snoc _ hs ih =>
    rw [List.forall_mem_append, List.forall_mem_singleton]
    exact ⟨fun x hx => htrans (ih x hx) (hstep hs), hrefl _⟩

/-- What is known of every transition listed may be part of the step. -/
theorem strengthen {Q : σ → α → σ → Prop} (h : Trail step s l t)
    (hl : ∀ x ∈ l, Q x.1 x.2.1 x.2.2) :
    Trail (fun t a u => step t a u ∧ Q t a u) s l t := by
  induction h with
  | nil => exact .nil
  | snoc _ hs ih =>
    rw [List.forall_mem_append, List.forall_mem_singleton] at hl
    exact (ih hl.1).snoc ⟨hs, hl.2⟩

/-- A run with labels of one kind is a run of the steps with such labels. -/
theorem restrict {P : α → Prop} (h : Trail step s l t) (hl : ∀ x ∈ l, P x.2.1) :
    Trail (fun t a u => step t a u ∧ P a) s l t :=
  h.strengthen (Q := fun _ a _ => P a) hl

/-- Two runs in a row are a run. -/
theorem append {u : σ} {l' : List (σ × α × σ)} (h : Trail step s l t) (h' : Trail step t l' u) :
    Trail step s (l ++ l') u := by
  induction h' with
  | nil => rwa [List.append_nil]
  | snoc _ hs ih =>
    rw [← List.append_assoc]
    exact ih.snoc hs

/-- Running a function over labels, all of them successful, is a run. -/
theorem of_foldlM {ε : Type} {run : σ → α → Except ε σ} {as : List α}
    (h : as.foldlM run s = .ok t) : ∃ l, Trail (fun s a t => run s a = .ok t) s l t := by
  induction as generalizing s with
  | nil =>
    cases h
    exact ⟨[], .nil⟩
  | cons a as ih =>
    rw [List.foldlM_cons] at h
    cases hfirst : run s a with
    | error e =>
      rw [hfirst] at h
      cases h
    | ok u =>
      rw [hfirst] at h
      obtain ⟨l, hl⟩ := ih h
      exact ⟨_, (Trail.nil.snoc hfirst).append hl⟩

end Trail

/-! ## Passes -/

/-- A step for each label settles it for good, and leaves alone what is settled:
then a second pass over the labels does nothing. -/
theorem List.foldl_foldl_of_settled {f : σ → α → σ} {Settled : α → σ → Prop}
    (hself : ∀ s a, Settled a (f s a)) (hkeep : ∀ s a b, Settled a s → Settled a (f s b))
    (hfix : ∀ s a, Settled a s → f s a = s) (as : List α) (s : σ) :
    as.foldl f (as.foldl f s) = as.foldl f s := by
  have hkept : ∀ (as : List α) {s : σ} {a : α}, Settled a s → Settled a (as.foldl f s) := by
    intro as
    induction as with
    | nil => exact id
    | cons b as ih => exact fun h => ih (hkeep _ _ b h)
  have hsettled : ∀ (as : List α) (s : σ), ∀ a ∈ as, Settled a (as.foldl f s) := by
    intro as
    induction as with
    | nil => exact fun s a ha => absurd ha List.not_mem_nil
    | cons b as ih =>
      intro s a ha
      rcases List.mem_cons.mp ha with rfl | ha
      · exact hkept as (hself s a)
      · exact ih _ a ha
  have hfixed : ∀ (as : List α) {s : σ}, (∀ a ∈ as, Settled a s) → as.foldl f s = s := by
    intro as
    induction as with
    | nil => exact fun _ => rfl
    | cons b as ih =>
      intro s h
      rw [List.foldl_cons, hfix s b (h b (List.mem_cons_self ..))]
      exact ih fun a ha => h a (List.mem_cons_of_mem _ ha)
  exact hfixed as (hsettled as s)
