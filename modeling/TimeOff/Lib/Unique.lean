import Mathlib.Data.List.Induction
import TimeOff.Lib.Sessions

/-!
# Unique keys under locks

An insert with a unique key does something when the key is free and nothing, or
fails, when it is taken. Under READ COMMITTED it finds out which when it runs,
on what it sees then, and takes effect when its transaction commits, on what has
been committed by then. The two agree when

- keys never go away again, and
- whoever inserts a key it finds free holds the lock of the key (`KeyLocks`).

Then every insert of a transaction does at the commit what it did when it ran:
`decided_interleaved`. What a transaction was told to be new is new.
-/

variable {S : Type} {R : S → Type} {σ Λ ε α ι κ : Type}

/-- The store has the keys it had and the one a statement inserts. To insert a
free key takes its lock. -/
structure KeyLocks (M : Semantics S R σ Λ ε) (Has : σ → κ → Prop) (inserts : S → Option κ)
    (lock : κ → Λ) : Prop where
  has_apply : ∀ {st d k}, Has (M.apply st d) k ↔ Has d k ∨ inserts st = some k
  needs : ∀ {st v r k}, M.answer st v = .ok r → inserts st = some k → ¬ Has v k →
    M.needs st v = some (lock k)

/-- One store has all the keys of another. -/
def KeysGrow (Has : σ → κ → Prop) (d e : σ) : Prop := ∀ k, Has d k → Has e k

/-- A statement of the log inserted the key and found it free. -/
def Takes (Has : σ → κ → Prop) (inserts : S → Option κ) (log : List (S × σ)) (k : κ) : Prop :=
  ∃ y ∈ log, inserts y.1 = some k ∧ ¬ Has y.2 k

/-- Each insert of the log finds its key in the store, after the statements
before it, exactly when it found it in its view. -/
def Decided (M : Semantics S R σ Λ ε) (Has : σ → κ → Prop) (inserts : S → Option κ)
    (log : List (S × σ)) (db : σ) : Prop :=
  ∀ pre st v post k, log = pre ++ (st, v) :: post → inserts st = some k →
    (Has v k ↔ Has (Session.replay M pre db) k)

variable {M : Semantics S R σ Λ ε} {Has : σ → κ → Prop} {inserts : S → Option κ} {lock : κ → Λ}
  {log : List (S × σ)} {db : σ} {k : κ}

theorem Decided.of_append {log' : List (S × σ)} (h : Decided M Has inserts (log ++ log') db) :
    Decided M Has inserts log db := by
  intro pre st v post k heq hk
  exact h pre st v (post ++ log') k (by rw [heq, List.append_assoc, List.cons_append]) hk

/-- The last insert of a log. -/
theorem Decided.last {y : S × σ} (h : Decided M Has inserts (log ++ [y]) db)
    (hk : inserts y.1 = some k) : Has y.2 k ↔ Has (Session.replay M log db) k :=
  h log y.1 y.2 [] k rfl hk

namespace KeyLocks

/-- No key goes away. -/
theorem grows (h : KeyLocks M Has inserts lock) : Grows M (KeysGrow Has) where
  refl _ _ hk := hk
  trans h₁ h₂ k hk := h₂ k (h₁ k hk)
  mono _ _ _ hle k hk := h.has_apply.mpr ((h.has_apply.mp hk).imp_left (hle k))
  apply _ _ _ hk := h.has_apply.mpr (Or.inl hk)

/-- A key that is there after a transaction was there before it, or the
transaction found it free and inserted it. -/
theorem has_replay (h : KeyLocks M Has inserts lock) {Keeps : Λ → σ → σ → Prop}
    (hseen : Seen M Keeps (KeysGrow Has) log db) (hk : Has (Session.replay M log db) k) :
    Has db k ∨ Takes Has inserts log k := by
  induction log using List.reverseRecOn with
  | nil => exact Or.inl hk
  | append_singleton log y ih =>
    have hearlier : Has (Session.replay M log db) k → Has db k ∨
        Takes Has inserts (log ++ [y]) k := by
      intro hk
      refine (ih hseen.of_append hk).imp_right ?_
      rintro ⟨z, hz, hins, hfree⟩
      exact ⟨z, List.mem_append_left _ hz, hins, hfree⟩
    rw [Session.replay_snoc] at hk
    rcases h.has_apply.mp hk with hk | hins
    · exact hearlier hk
    by_cases hv : Has y.2 k
    · -- what the insert found in its view is there without it
      exact hearlier (hseen.le h.grows rfl k hv)
    · exact Or.inr ⟨y, List.mem_append_right _ (List.mem_singleton.mpr rfl), hins, hv⟩

/-- A key that the log has taken is there after it, whatever it runs on. -/
theorem has_of_takes (h : KeyLocks M Has inserts lock) (htakes : Takes Has inserts log k) (d : σ) :
    Has (Session.replay M log d) k := by
  obtain ⟨y, hy, hins, -⟩ := htakes
  obtain ⟨pre, post, rfl⟩ := List.append_of_mem hy
  have hhere : Has (Session.replay M (pre ++ [y]) d) k := by
    rw [Session.replay_snoc]
    exact h.has_apply.mpr (Or.inr hins)
  have hlater := h.grows.replay post (Session.replay M (pre ++ [y]) d) k hhere
  unfold Session.replay at hlater ⊢
  rw [← List.foldl_append] at hlater
  simpa using hlater

/-- If the keys that a log has taken are still free in the store, its inserts
find there what they found. -/
theorem decided (h : KeyLocks M Has inserts lock) {Keeps : Λ → σ → σ → Prop}
    (hseen : Seen M Keeps (KeysGrow Has) log db)
    (hfree : ∀ k, Takes Has inserts log k → ¬ Has db k) : Decided M Has inserts log db := by
  rintro pre st v post k rfl hins
  constructor
  · intro hv
    exact hseen.le h.grows rfl k hv
  · intro hk
    by_contra hv
    have hpre : Seen M Keeps (KeysGrow Has) pre db := hseen.of_append
    rcases h.has_replay hpre hk with hdb | htakes
    · refine hfree k ⟨(st, v), ?_, hins, hv⟩ hdb
      exact List.mem_append_right _ (List.mem_cons_self ..)
    · -- an insert of the same transaction took the key before
      obtain ⟨d, rfl, -, -⟩ := hseen pre st v post rfl
      exact hv (h.has_of_takes htakes d)

end KeyLocks

/-! ## Along an interleaving

A key that was inserted by a transaction under way is locked by it, so no other
transaction can commit a row with that key. -/

section interleaved

variable [DecidableEq Λ] [DecidableEq ι] {P : ι → Program S R ε α}
  {c c' : Config S R σ Λ ε α ι} {e : Event ι}

omit [DecidableEq Λ] in
/-- Locks as such, whatever they stand for. -/
theorem protects_true : Protects M fun _ _ _ => True where
  refl _ _ := trivial
  trans _ _ := trivial
  keeps _ _ _ := trivial

variable (M Has inserts P) in
/-- The keys that transactions under way have taken are still free in the
committed store. -/
structure KeysFree (c : Config S R σ Λ ε α ι) : Prop where
  tracked : Tracked M (fun _ _ _ => True) (KeysGrow Has) P c
  free : ∀ {i s}, c.sessions i = some s → ∀ k, Takes Has inserts s.log k → ¬ Has c.db k

namespace KeysFree

omit [DecidableEq Λ] [DecidableEq ι] in
/-- What a transaction has taken it holds the lock of. -/
theorem held (h : KeysFree M Has inserts P c) (hlocks : KeyLocks M Has inserts lock) {i : ι}
    {s : Session S R σ ε α} (hs : c.sessions i = some s) (hk : Takes Has inserts s.log k) :
    c.owner (lock k) = some i := by
  obtain ⟨y, hy, hins, hfree⟩ := hk
  obtain ⟨r, hr⟩ := (h.tracked.follows hs).answered y hy
  exact h.tracked.held hs y hy _ (hlocks.needs hr hins hfree)

omit [DecidableEq Λ] [DecidableEq ι] in
/-- A commit inserts no key that another transaction has taken. -/
theorem commit (h : KeysFree M Has inserts P c) (hlocks : KeyLocks M Has inserts lock) {i j : ι}
    {s t : Session S R σ ε α} (hs : c.sessions i = some s) (ht : c.sessions j = some t)
    (hji : j ≠ i) (hk : Takes Has inserts t.log k) : ¬ Has (s.view M c.db) k := by
  intro hhas
  rcases hlocks.has_replay (h.tracked.seen hs) hhas with hdb | htakes
  · exact h.free ht k hk hdb
  · have howner := h.held hlocks ht hk
    rw [h.held hlocks hs htakes] at howner
    exact hji (Option.some.inj howner).symm

theorem step (h : KeysFree M Has inserts P c) (hlocks : KeyLocks M Has inserts lock)
    (hf : c.fire M P e = some c') : KeysFree M Has inserts P c' := by
  refine ⟨h.tracked.step protects_true hlocks.grows hf, ?_⟩
  cases Config.fires_of_fire hf with
  | @start i hi =>
    intro j s hs k hk
    by_cases hji : j = i
    · obtain rfl := Option.some.inj ((if_pos hji).symm.trans hs)
      obtain ⟨y, hy, -⟩ := hk
      cases hy
    · exact h.free ((if_neg hji).symm.trans hs) k hk
  | @statement i s st p r hs hprog hl hr =>
    intro j t ht k hk
    by_cases hji : j = i
    · obtain rfl := Option.some.inj ((if_pos hji).symm.trans ht)
      obtain ⟨y, hy, hins, hfree⟩ := hk
      rcases List.mem_append.mp hy with hy | hy
      · exact h.free hs k ⟨y, hy, hins, hfree⟩
      · -- it sees all that is committed
        rw [List.mem_singleton.mp hy] at hfree
        exact fun hdb => hfree (hlocks.grows.replay s.log c.db k hdb)
    · exact h.free ((if_neg hji).symm.trans ht) k hk
  | @commit i s a hs hprog =>
    intro j t ht k hk
    obtain ⟨hji, ht⟩ := open_of_closed ht
    exact h.commit hlocks hs ht hji hk
  | @drop i e s hs =>
    intro j t ht k hk
    exact h.free (open_of_closed ht).2 k hk

end KeysFree

/-- **Inserts under locks**: in every interleaving, the inserts of a transaction
under way find their keys in the committed store exactly when they found them
when they ran. -/
theorem decided_interleaved (hlocks : KeyLocks M Has inserts lock) {d₀ : σ}
    {l : List (Config S R σ Λ ε α ι × Event ι × Config S R σ Λ ε α ι)}
    (h : Interleaved M P d₀ l c) {i : ι} {s : Session S R σ ε α} (hs : c.sessions i = some s) :
    Decided M Has inserts s.log c.db := by
  have hfree : KeysFree M Has inserts P c :=
    h.invariant ⟨tracked_initial d₀, nofun⟩ fun hc hf => hc.step hlocks hf
  exact hlocks.decided (hfree.tracked.seen hs) (hfree.free hs)

end interleaved
