import TimeOff.Lib.Program
import TimeOff.Lib.Runs

/-!
# Interleaved transactions under READ COMMITTED with row locks

Transactions are programs whose statements run one at a time, in any order
across transactions. A statement of a transaction sees the committed store with
the transaction's own earlier statements replayed on it (`Session.view`): the
latest committed state, not the state the transaction began with. A row lock,
once taken, is kept until the transaction commits or is dropped, and a statement
that needs a lock held by another transaction waits, that is, has no step. A
transaction may be dropped at any time (an error, a deadlock victim, a lost
connection): its statements leave no trace.

`fire` is the executable step and `Fires` its inversion, one constructor per
thing that can happen.

## Serializability by critical locks

`serializable` is the rule for proving that interleaving is harmless. Fix a
nonempty set of *critical* locks. Until a transaction holds one of them it may
only read (`Optimistic`), and when it takes the first one, what it read must
still fit: the rest of it, run alone from here, must do what some serial program
of this transaction does. It may commit only when it holds all of them
(`Covers`). Then nobody else can commit while it holds one, and the committed
store is at every moment the result of running the committed transactions one
after another, in the order of their commits.

The invariant is `Serializing`. It says of the committed store that it is a
serial result, and of every transaction under way that it is `Bound`: it is
still only reading, or it holds a critical lock and what is left of it, run on
its view, does what a serial program does on the committed store. A step of one
transaction leaves the others bound, because it changes neither their locks nor,
while one of them holds a critical lock, the committed store (`Bound.frame`);
its own step leaves it bound by what `Optimistic` and `Covers` say of the
statement it runs (`Bound.statement`). At a commit, being bound is being serial.
-/

variable {S : Type} {R : S → Type} {σ Λ ε α ι : Type}

/-- A transaction under way: what is left of its program, and the statements it
ran, each with the view it ran on, oldest first. -/
structure Session (S : Type) (R : S → Type) (σ ε α : Type) where
  prog : Program S R ε α
  log : List (S × σ)

namespace Session

variable (M : Semantics S R σ Λ ε)

/-- The store after a transaction's own statements. -/
def replay (log : List (S × σ)) (db : σ) : σ := log.foldl (fun db s => M.apply s.1 db) db

/-- What the transaction's next statement sees. -/
def view (s : Session S R σ ε α) (db : σ) : σ := replay M s.log db

theorem replay_snoc (log : List (S × σ)) (s : S × σ) (db : σ) :
    replay M (log ++ [s]) db = M.apply s.1 (replay M log db) := by
  simp only [replay]
  rw [List.foldl_append]
  rfl

end Session

/-- The committed store, the owner of every row lock, the transactions under
way, and those that committed, in the order of their commits. -/
structure Config (S : Type) (R : S → Type) (σ Λ ε α ι : Type) where
  db : σ
  owner : Λ → Option ι
  sessions : ι → Option (Session S R σ ε α)
  commits : List ι

/-- What can happen to a transaction. -/
inductive Event (ι : Type)
  | start (i : ι)
  | next (i : ι)
  | abort (i : ι)
deriving DecidableEq

namespace Config

/-- Nothing under way yet. -/
def initial (db : σ) : Config S R σ Λ ε α ι := ⟨db, fun _ => none, fun _ => none, []⟩

variable [DecidableEq Λ] [DecidableEq ι] (M : Semantics S R σ Λ ε)

/-- Replace the session of `i`. -/
def setSession (c : Config S R σ Λ ε α ι) (i : ι) (s : Option (Session S R σ ε α)) :
    Config S R σ Λ ε α ι :=
  { c with sessions := fun j => if j = i then s else c.sessions j }

/-- The locks after `i`'s transaction is over. -/
def released (c : Config S R σ Λ ε α ι) (i : ι) : Λ → Option ι :=
  fun l => if c.owner l = some i then none else c.owner l

/-- `i` runs statement `st` and continues with `p`. -/
def executed (c : Config S R σ Λ ε α ι) (i : ι) (s : Session S R σ ε α) (st : S)
    (p : Program S R ε α) : Config S R σ Λ ε α ι :=
  { c.setSession i (some ⟨p, s.log ++ [(st, s.view M c.db)]⟩) with
    owner := fun l => if M.needs st (s.view M c.db) = some l then some i else c.owner l }

/-- `i` commits: its statements take effect on the committed store. -/
def committed (c : Config S R σ Λ ε α ι) (i : ι) (s : Session S R σ ε α) :
    Config S R σ Λ ε α ι :=
  { db := s.view M c.db
    owner := c.released i
    sessions := fun j => if j = i then none else c.sessions j
    commits := c.commits ++ [i] }

/-- `i` is dropped without a trace. -/
def dropped (c : Config S R σ Λ ε α ι) (i : ι) : Config S R σ Λ ε α ι :=
  { c.setSession i none with owner := c.released i }

/-- The lock a statement needs is free, or `i` has it already. -/
def CanTake (c : Config S R σ Λ ε α ι) (i : ι) (s : Session S R σ ε α) (st : S) : Prop :=
  ∀ l, M.needs st (s.view M c.db) = some l → c.owner l = none ∨ c.owner l = some i

instance (c : Config S R σ Λ ε α ι) (i : ι) (s : Session S R σ ε α) (st : S) :
    Decidable (c.CanTake M i s st) :=
  match h : M.needs st (s.view M c.db) with
  | none => isTrue fun l hl => by rw [h] at hl; cases hl
  | some l => decidable_of_iff (c.owner l = none ∨ c.owner l = some i)
      ⟨fun ho l' hl' => by rw [h] at hl'; cases hl'; exact ho, fun ho => ho l h⟩

/-- The step for one event, if it can happen. -/
def fire (P : ι → Program S R ε α) (e : Event ι) (c : Config S R σ Λ ε α ι) :
    Option (Config S R σ Λ ε α ι) :=
  match e with
  | .start i =>
    match c.sessions i with
    | none => some (c.setSession i (some ⟨P i, []⟩))
    | some _ => none
  | .abort i =>
    match c.sessions i with
    | none => none
    | some _ => some (c.dropped i)
  | .next i =>
    match c.sessions i with
    | none => none
    | some s =>
      match s.prog with
      | .ret _ => some (c.committed M i s)
      | .raise _ => some (c.dropped i)
      | .call st k =>
        if c.CanTake M i s st then
          match M.answer st (s.view M c.db) with
          | .ok r => some (c.executed M i s st (k r))
          | .error _ => some (c.dropped i)
        else none

/-- Everything a step can be. -/
inductive Fires (P : ι → Program S R ε α) (c : Config S R σ Λ ε α ι) :
    Event ι → Config S R σ Λ ε α ι → Prop
  | start {i : ι} (h : c.sessions i = none) :
      Fires P c (.start i) (c.setSession i (some ⟨P i, []⟩))
  | statement {i : ι} {s : Session S R σ ε α} {st : S} {k : R st → Program S R ε α} {r : R st}
      (h : c.sessions i = some s) (hp : s.prog = .call st k) (hl : c.CanTake M i s st)
      (hr : M.answer st (s.view M c.db) = .ok r) :
      Fires P c (.next i) (c.executed M i s st (k r))
  | commit {i : ι} {s : Session S R σ ε α} {a : α}
      (h : c.sessions i = some s) (hp : s.prog = .ret a) :
      Fires P c (.next i) (c.committed M i s)
  | drop {i : ι} {e : Event ι} {s : Session S R σ ε α} (h : c.sessions i = some s) :
      Fires P c e (c.dropped i)

variable {M}

/-- A step that can be made is one of these. -/
theorem fires_of_fire {P : ι → Program S R ε α} {e : Event ι} {c c' : Config S R σ Λ ε α ι}
    (h : c.fire M P e = some c') : Fires M P c e c' := by
  simp only [fire] at h
  cases e with
  | start i =>
    cases hs : c.sessions i with
    | none =>
      simp only [hs] at h
      cases h
      exact .start hs
    | some s => simp [hs] at h
  | abort i =>
    cases hs : c.sessions i with
    | none => simp [hs] at h
    | some s =>
      simp only [hs] at h
      cases h
      exact .drop hs
  | next i =>
    cases hs : c.sessions i with
    | none => simp [hs] at h
    | some s =>
      simp only [hs] at h
      cases hp : s.prog with
      | ret a =>
        simp only [hp] at h
        cases h
        exact .commit hs hp
      | raise e =>
        simp only [hp] at h
        cases h
        exact .drop hs
      | call st k =>
        simp only [hp] at h
        split at h
        · next hl =>
          cases hr : M.answer st (s.view M c.db) with
          | ok r =>
            simp only [hr] at h
            cases h
            exact .statement hs hp hl hr
          | error e =>
            simp only [hr] at h
            cases h
            -- a statement that fails drops its transaction
            exact .drop hs
        · cases h

/-- A step either commits a transaction that is done, or leaves the committed
store alone. -/
theorem commits_or_keeps {P : ι → Program S R ε α} {e : Event ι} {c c' : Config S R σ Λ ε α ι}
    (h : c.fire M P e = some c') :
    (∃ i s a, e = .next i ∧ c.sessions i = some s ∧ s.prog = .ret a ∧ c' = c.committed M i s) ∨
      (c'.db = c.db ∧ ∀ i s, e = .next i → c.sessions i = some s → s.prog.done = false) := by
  by_cases hdone : ∃ i s a, e = .next i ∧ c.sessions i = some s ∧ s.prog = .ret a
  · obtain ⟨i, s, a, rfl, hs, hp⟩ := hdone
    refine Or.inl ⟨i, s, a, rfl, hs, hp, ?_⟩
    simp only [fire, hs, hp, Option.some.injEq] at h
    exact h.symm
  · refine Or.inr ⟨?_, fun i s hi hs => ?_⟩
    · cases fires_of_fire h with
      | start hi => rfl
      | statement hs hp hl hr => rfl
      | commit hs hp => exact absurd ⟨_, _, _, rfl, hs, hp⟩ hdone
      | drop hs => rfl
    · cases hp : s.prog with
      | ret a => exact absurd ⟨i, s, a, hi, hs, hp⟩ hdone
      | raise e => rfl
      | call st k => rfl

/-! ## What the steps do to the locks -/

omit [DecidableEq Λ] in
theorem owner_released {c : Config S R σ Λ ε α ι} {i j : ι} {l : Λ} :
    c.released i l = some j ↔ c.owner l = some j ∧ j ≠ i := by
  simp only [released]
  split
  · next h => exact ⟨fun h' => (nomatch h'), fun ⟨h₁, h₂⟩ => absurd (Option.some.inj (h₁ ▸ h)) h₂⟩
  · next h => exact ⟨fun h' => ⟨h', fun he => h (he ▸ h')⟩, And.left⟩

/-- A statement leaves the locks of other transactions alone. -/
theorem owner_executed_of_ne {c : Config S R σ Λ ε α ι} {i j : ι} {s : Session S R σ ε α} {st : S}
    {p : Program S R ε α} {l : Λ} (hl : c.CanTake M i s st) (hij : j ≠ i)
    (h : c.owner l = some j) : (c.executed M i s st p).owner l = some j := by
  show (if M.needs st (s.view M c.db) = some l then some i else c.owner l) = some j
  rw [if_neg, h]
  intro hn
  rcases hl l hn with ho | ho
  · rw [h] at ho
    cases ho
  · rw [h] at ho
    exact hij (Option.some.inj ho)

/-- A statement keeps the locks its own transaction has, and adds the one it needs. -/
theorem owner_executed_self {c : Config S R σ Λ ε α ι} {i : ι} {s : Session S R σ ε α} {st : S}
    {p : Program S R ε α} {l : Λ} (h : M.needs st (s.view M c.db) = some l ∨ c.owner l = some i) :
    (c.executed M i s st p).owner l = some i := by
  show (if M.needs st (s.view M c.db) = some l then some i else c.owner l) = some i
  split
  · rfl
  · next hn => exact h.resolve_left hn

end Config

/-! ## Guards and serial runs

What a transaction may assume before its first critical lock, what it has to
show when it takes it (`Optimistic`) and what it holds at its end (`Covers`), as
functions of its program. The invariant is put together from these. -/

/-- A step meets a guard on sessions when the transaction it moves does. -/
def Meets (ok : Session S R σ ε α → σ → Prop) (c : Config S R σ Λ ε α ι) (e : Event ι) : Prop :=
  ∀ i s, e = .next i → c.sessions i = some s → ok s c.db

instance (ok : Session S R σ ε α → σ → Prop) [∀ s d, Decidable (ok s d)]
    (c : Config S R σ Λ ε α ι) (e : Event ι) : Decidable (Meets ok c e) :=
  match e with
  | .start _ | .abort _ => isTrue nofun
  | .next i =>
    match h : c.sessions i with
    | none => isTrue fun j s hj hs => by cases hj; rw [h] at hs; cases hs
    | some s => decidable_of_iff (ok s c.db)
        ⟨fun hok j t hj ht => by cases hj; rw [h] at ht; cases ht; exact hok,
          fun hok => hok i s rfl h⟩

namespace Config

variable [DecidableEq Λ] [DecidableEq ι]

/-- A schedule: fire the events in turn, all of them guarded. -/
def schedule (M : Semantics S R σ Λ ε) (P : ι → Program S R ε α)
    (guard : Config S R σ Λ ε α ι → Event ι → Prop) [∀ c e, Decidable (guard c e)] :
    List (Event ι) → Config S R σ Λ ε α ι → Option (Config S R σ Λ ε α ι)
  | [], c => some c
  | e :: es, c => if guard c e then (c.fire M P e).bind (schedule M P guard es) else none

variable {M : Semantics S R σ Λ ε}

/-- Every schedule that goes through is a guarded run. -/
theorem trail_of_schedule {P : ι → Program S R ε α}
    {guard : Config S R σ Λ ε α ι → Event ι → Prop} [∀ c e, Decidable (guard c e)]
    {es : List (Event ι)} {c c' : Config S R σ Λ ε α ι} (h : schedule M P guard es c = some c') :
    ∃ l, Trail (fun c e c' => fire M P e c = some c') c l c' ∧ ∀ x ∈ l, guard x.1 x.2.1 := by
  induction es generalizing c with
  | nil =>
    cases h
    exact ⟨[], .nil, nofun⟩
  | cons e es ih =>
    rw [schedule] at h
    split at h
    · next hg =>
      obtain ⟨d, hd, hrest⟩ := Option.bind_eq_some_iff.mp h
      obtain ⟨l, hl, hall⟩ := ih hrest
      refine ⟨_, (Trail.nil.snoc hd).append hl, fun x hx => ?_⟩
      rcases List.mem_append.mp hx with hx | hx
      · rw [List.mem_singleton.mp hx]
        exact hg
      · exact hall x hx
    · cases h

end Config

/-- The store after running serial programs of the listed transactions one
after another; `Q i` are the serial programs of transaction `i`. -/
inductive Serial (M : Semantics S R σ Λ ε) (Q : ι → Program S R ε α → Prop) (d₀ : σ) :
    List ι → σ → Prop
  | nil : Serial M Q d₀ [] d₀
  | snoc {l : List ι} {d d' : σ} {i : ι} {q : Program S R ε α} {a : α} :
      Serial M Q d₀ l d → Q i q → q.exec M d = .ok (a, d') → Serial M Q d₀ (l ++ [i]) d'

/-- What serial programs preserve holds after every serial run. -/
theorem Serial.invariant {M : Semantics S R σ Λ ε} {Q : ι → Program S R ε α → Prop} {d₀ d : σ}
    {l : List ι} {I : σ → Prop} (h : Serial M Q d₀ l d) (h₀ : I d₀)
    (hstep : ∀ {i q a d d'}, I d → Q i q → q.exec M d = .ok (a, d') → I d') : I d := by
  induction h with
  | nil => exact h₀
  | snoc _ hq he ih => exact hstep ih hq he

/-- Run programs in turn, each alone. -/
def serially (M : Semantics S R σ Λ ε) (P : ι → Program S R ε α) : List ι → σ → Except ε σ
  | [], db => .ok db
  | i :: order, db =>
    match (P i).exec M db with
    | .ok (_, db') => serially M P order db'
    | .error e => .error e

/-- A serial run of given programs is what running them in turn gives. -/
theorem serially_of_serial {M : Semantics S R σ Λ ε} {P : ι → Program S R ε α} {d₀ d : σ}
    {order : List ι} (h : Serial M (fun i q => q = P i) d₀ order d) :
    serially M P order d₀ = .ok d := by
  have hsnoc : ∀ {l : List ι} {db e e' : σ} {i : ι} {a : α},
      serially M P l db = .ok e → (P i).exec M e = .ok (a, e') →
        serially M P (l ++ [i]) db = .ok e' := by
    intro l db e e' i a hl hi
    induction l generalizing db with
    | nil =>
      cases hl
      simp only [List.nil_append, serially, hi]
    | cons j l ih =>
      rw [serially] at hl
      rw [List.cons_append, serially]
      split at hl
      · exact ih hl
      · cases hl
  induction h with
  | nil => rfl
  | snoc _ hq hexec ih =>
    cases hq
    exact hsnoc ih hexec

section critical

variable (M : Semantics S R σ Λ ε) (crit : List Λ)
  (ok : Session S R σ ε α → σ → Prop) (D : σ → Prop) (Rely : σ → σ → Prop)

/-- Run from `db` on, the program takes every critical lock before it ends. -/
def Covers : Program S R ε α → List Λ → σ → Prop
  | .ret _, held, _ => ∀ l ∈ crit, l ∈ held
  | .raise _, _, _ => True
  | .call st k, held, db =>
    ∀ r, M.answer st db = .ok r → Covers (k r) ((M.needs st db).toList ++ held) (M.apply st db)

/-- Before its first critical lock the program only reads, and when it takes
one, the rest of it does what a serial program would do from the start. `H` is
what it may assume about the committed store from what it has seen. -/
def Optimistic (Q : Program S R ε α → Prop) :
    (σ → Prop) → List (S × σ) → Program S R ε α → Prop
  | H, log, .ret a => ∀ d, D d → H d → ok ⟨.ret a, log⟩ d → ∃ q, Q q ∧ q.exec M d = .ok (a, d)
  | _, _, .raise _ => True
  | H, log, .call st k =>
    ∀ d r, D d → H d → ok ⟨.call st k, log⟩ d → M.answer st d = .ok r →
      (∀ l, M.needs st d = some l → l ∈ crit →
        (∃ q, Q q ∧ q.exec M d = (k r).exec M (M.apply st d)) ∧
          Covers M crit (k r) [l] (M.apply st d)) ∧
      ((∀ l, M.needs st d = some l → l ∉ crit) →
        (∀ d', M.apply st d' = d') ∧
          Optimistic Q (fun d' => H d' ∧ Rely d d') (log ++ [(st, d)]) (k r))

variable {M crit ok D Rely}

/-- A transaction that may assume more still succeeds. -/
theorem Optimistic.mono {Q : Program S R ε α → Prop} {H H' : σ → Prop} {log : List (S × σ)}
    {p : Program S R ε α} (h : Optimistic M crit ok D Rely Q H log p) (hH : ∀ d, H' d → H d) :
    Optimistic M crit ok D Rely Q H' log p := by
  induction p generalizing H H' log with
  | ret a => exact fun d hd hd' => h d hd (hH d hd')
  | raise e => trivial
  | call st k ih =>
    intro d r hd hd' hok hr
    obtain ⟨henter, hread⟩ := h d r hd (hH d hd') hok hr
    refine ⟨henter, fun hn => ⟨(hread hn).1, ?_⟩⟩
    exact ih r (hread hn).2 fun d' h' => ⟨hH d' h'.1, h'.2⟩

theorem Covers.mono {p : Program S R ε α} {held held' : List Λ} {db : σ}
    (h : Covers M crit p held db) (hsub : held ⊆ held') : Covers M crit p held' db := by
  induction p generalizing held held' db with
  | ret a => exact fun l hl => hsub (h l hl)
  | raise e => trivial
  | call st k ih =>
    refine fun r hr => ih r (h r hr) fun l hl => ?_
    rcases List.mem_append.mp hl with hl | hl
    · exact List.mem_append_left _ hl
    · exact List.mem_append_right _ (hsub hl)

/-- Once all critical locks are held, any program covers them. -/
theorem Covers.of_all {p : Program S R ε α} {held : List Λ} {db : σ} (h : crit ⊆ held) :
    Covers M crit p held db := by
  induction p generalizing held db with
  | ret a => exact fun l hl => h hl
  | raise e => trivial
  | call st k ih => exact fun r _ => ih r fun l hl => List.mem_append_right _ (h hl)

/-- A sequence covers the locks when its second part does wherever it starts. -/
theorem Covers.bind {β : Type} {p : Program S R ε α} {f : α → Program S R ε β} {held : List Λ}
    {db : σ} (h : ∀ a db' held', p.exec M db = .ok (a, db') → held ⊆ held' →
      Covers M crit (f a) held' db') :
    Covers M crit (p >>= f) held db := by
  induction p generalizing held db with
  | ret a => exact h a db held rfl fun _ hl => hl
  | raise e => trivial
  | call st k ih =>
    intro r hr
    refine ih r fun a db' held' he hsub => h a db' held' ?_ fun l hl => hsub ?_
    · rw [Program.exec_call_ok hr]
      exact he
    · exact List.mem_append_right _ hl

variable [DecidableEq Λ] [DecidableEq ι] (M crit ok D Rely) in
/-- A transaction under way is either still only reading, or holds a critical
lock and is bound to do what one of its serial programs does. -/
def Bound (Q : Program S R ε α → Prop) (c : Config S R σ Λ ε α ι) (i : ι)
    (s : Session S R σ ε α) : Prop :=
  (∃ H : σ → Prop, (∀ d d', H d → Rely d d' → H d') ∧ H c.db ∧ (∀ d, s.view M d = d) ∧
    Optimistic M crit ok D Rely Q H s.log s.prog) ∨
  (∃ held : List Λ, (∀ l ∈ held, c.owner l = some i) ∧ (∃ l ∈ held, l ∈ crit) ∧
    (∃ q, Q q ∧ q.exec M c.db = s.prog.exec M (s.view M c.db)) ∧
    Covers M crit s.prog held (s.view M c.db))

variable [DecidableEq Λ] [DecidableEq ι] {P : ι → Program S R ε α}
  {Q : ι → Program S R ε α → Prop} {c c' : Config S R σ Λ ε α ι}

omit [DecidableEq Λ] [DecidableEq ι] in
/-- Steps of others that leave the store alone and keep a transaction's locks
leave it bound. -/
theorem Bound.frame {Q : Program S R ε α → Prop} {i : ι} {s : Session S R σ ε α}
    (h : Bound M crit ok D Rely Q c i s) (hdb : c'.db = c.db)
    (hown : ∀ l, c.owner l = some i → c'.owner l = some i) :
    Bound M crit ok D Rely Q c' i s := by
  rcases h with ⟨H, hstable, hH, hview, hopt⟩ | ⟨held, hheld, hcrit, hq, hcov⟩
  · exact Or.inl ⟨H, hstable, hdb ▸ hH, hview, hopt⟩
  · refine Or.inr ⟨held, fun l hl => hown l (hheld l hl), hcrit, ?_, ?_⟩
    · rw [hdb]
      exact hq
    · rw [hdb]
      exact hcov

/-- A transaction's own statement leaves it bound. -/
theorem Bound.statement {Q : Program S R ε α → Prop} {i : ι} {s : Session S R σ ε α} {st : S}
    {k : R st → Program S R ε α} {r : R st} (hrefl : ∀ d, Rely d d)
    (htrans : ∀ {d e f}, Rely d e → Rely e f → Rely d f) (hD : D c.db)
    (h : Bound M crit ok D Rely Q c i s) (hok : ok s c.db) (hp : s.prog = .call st k)
    (hr : M.answer st (s.view M c.db) = .ok r) :
    Bound M crit ok D Rely Q (c.executed M i s st (k r)) i
      ⟨k r, s.log ++ [(st, s.view M c.db)]⟩ := by
  obtain ⟨prog, log⟩ := s
  cases hp
  rcases h with ⟨H, hstable, hH, hview, hopt⟩ | ⟨held, hheld, hcrit, ⟨q, hq, hexec⟩, hcov⟩
  · -- a reader sees the committed store
    have hv : Session.view M ⟨.call st k, log⟩ c.db = c.db := hview c.db
    rw [hv] at hr
    obtain ⟨henter, hread⟩ := hopt c.db r hD hH hok hr
    by_cases hn : ∃ l, M.needs st c.db = some l ∧ l ∈ crit
    · obtain ⟨l, hl, hlc⟩ := hn
      -- it takes its first critical lock, and from here on it is bound to a serial program
      obtain ⟨hq, hcov⟩ := henter l hl hlc
      have hview' : Session.view M ⟨k r, log ++ [(st, c.db)]⟩ c.db = M.apply st c.db := by
        show Session.replay M (log ++ [(st, c.db)]) c.db = M.apply st c.db
        rw [Session.replay_snoc]
        exact congrArg _ hv
      refine Or.inr ⟨[l], ?_, ⟨l, List.mem_singleton.mpr rfl, hlc⟩, ?_, ?_⟩
      · intro l' hl'
        rw [List.mem_singleton.mp hl']
        exact Config.owner_executed_self (Or.inl (hv.symm ▸ hl))
      · rw [hv]
        show ∃ q, Q q ∧ q.exec M c.db = (k r).exec M (Session.view M _ c.db)
        rw [hview']
        exact hq
      · rw [hv]
        show Covers M crit (k r) [l] (Session.view M _ c.db)
        rw [hview']
        exact hcov
    · -- it goes on reading, and remembers in `H` where it has been
      obtain ⟨hsame, hopt'⟩ := hread fun l hl hlc => hn ⟨l, hl, hlc⟩
      refine Or.inl ⟨fun d' => H d' ∧ Rely c.db d', ?_, ⟨hH, hrefl _⟩, ?_, ?_⟩
      · exact fun d d' ⟨h₁, h₂⟩ hd => ⟨hstable d d' h₁ hd, htrans h₂ hd⟩
      · intro d
        show Session.replay M (log ++ [(st, _)]) d = d
        rw [Session.replay_snoc]
        exact (congrArg _ (hview d)).trans (hsame d)
      · rw [hv]
        exact hopt'
  · -- a writer goes on: its view moves with the statement, and so does the serial run it
    -- follows
    have hview' : Session.view M ⟨k r, log ++ [(st, Session.view M ⟨.call st k, log⟩ c.db)]⟩ c.db
        = M.apply st (Session.view M ⟨.call st k, log⟩ c.db) :=
      Session.replay_snoc M log _ c.db
    refine Or.inr ⟨(M.needs st (Session.view M ⟨.call st k, log⟩ c.db)).toList ++ held,
      ?_, ?_, ⟨q, hq, ?_⟩, ?_⟩
    · intro l hl
      rcases List.mem_append.mp hl with hl | hl
      · exact Config.owner_executed_self (Or.inl (Option.mem_toList.mp hl))
      · exact Config.owner_executed_self (Or.inr (hheld l hl))
    · obtain ⟨l, hl, hlc⟩ := hcrit
      exact ⟨l, List.mem_append_right _ hl, hlc⟩
    · show q.exec M c.db = (k r).exec M (Session.view M _ c.db)
      rw [hview', hexec, Program.exec_call_ok hr]
    · show Covers M crit (k r) _ (Session.view M _ c.db)
      rw [hview']
      exact hcov r hr

variable (M crit ok D Rely P Q) in
/-- The invariant of the interleaved system. -/
structure Serializing (d₀ : σ) (c : Config S R σ Λ ε α ι) : Prop where
  good : D c.db
  serial : Serial M Q d₀ c.commits c.db
  bound : ∀ i s, c.sessions i = some s → Bound M crit ok D Rely (Q i) c i s

/-- One guarded step keeps the committed store serial. -/
theorem serializing_step {d₀ : σ} {e : Event ι} (hrefl : ∀ d, Rely d d)
    (htrans : ∀ {d e f}, Rely d e → Rely e f → Rely d f)
    (hQ : ∀ {i q a d d'}, D d → Q i q → q.exec M d = .ok (a, d') → D d' ∧ Rely d d')
    (hP : ∀ i, Optimistic M crit ok D Rely (Q i) (fun _ => True) [] (P i))
    (h : Serializing M crit ok D Rely Q d₀ c) (hok : Meets ok c e)
    (hf : c.fire M P e = some c') : Serializing M crit ok D Rely Q d₀ c' := by
  cases Config.fires_of_fire hf with
  | @start i hi =>
    refine ⟨h.good, h.serial, fun j s hs => ?_⟩
    by_cases hji : j = i
    · subst hji
      obtain rfl : s = ⟨P j, []⟩ := (Option.some.inj ((if_pos rfl).symm.trans hs)).symm
      -- a transaction that starts has read nothing yet
      exact Or.inl ⟨fun _ => True, fun _ _ _ _ => trivial, trivial, fun _ => rfl, hP j⟩
    · exact (h.bound j s ((if_neg hji).symm.trans hs)).frame rfl fun _ hl => hl
  | @statement i s st k r hs hp hl hr =>
    refine ⟨h.good, h.serial, fun j s' hs' => ?_⟩
    by_cases hji : j = i
    · subst hji
      obtain rfl := (Option.some.inj ((if_pos rfl).symm.trans hs')).symm
      exact (h.bound j s hs).statement hrefl htrans h.good (hok j s rfl hs) hp hr
    · exact (h.bound j s' ((if_neg hji).symm.trans hs')).frame rfl
        fun l hl' => Config.owner_executed_of_ne hl hji hl'
  | @commit i s a hs hp =>
    obtain ⟨prog, log⟩ := s
    cases hp
    have hother : ∀ {j l}, j ≠ i → c.owner l = some j → c.released i l = some j :=
      fun hji hl => Config.owner_released.mpr ⟨hl, hji⟩
    rcases h.bound i _ hs with ⟨H, -, hH, hview, hopt⟩ | ⟨held, hheld, hcrit, ⟨q, hq, hexec⟩, hcov⟩
    · -- a reader commits: the store does not change
      obtain ⟨q, hq, hexec⟩ := hopt c.db h.good hH (hok i _ rfl hs)
      have hdb : (c.committed M i ⟨.ret a, log⟩).db = c.db := hview c.db
      refine ⟨hdb ▸ h.good, ?_, fun j s' hs' => ?_⟩
      · rw [hdb]
        exact h.serial.snoc hq hexec
      · have hji : j ≠ i := by
          rintro rfl
          have hnone := (if_pos rfl).symm.trans hs'
          cases hnone
        exact (h.bound j s' ((if_neg hji).symm.trans hs')).frame hdb fun l hl => hother hji hl
    · -- a writer commits: it holds every critical lock, so all others only read
      obtain ⟨hD', hrely⟩ := hQ h.good hq hexec
      refine ⟨hD', h.serial.snoc hq hexec, fun j s' hs' => ?_⟩
      have hji : j ≠ i := by
        rintro rfl
        have hnone := (if_pos rfl).symm.trans hs'
        cases hnone
      -- a critical lock has one owner, so nobody else holds one
      rcases h.bound j s' ((if_neg hji).symm.trans hs') with
        ⟨H, hstable, hH, hview, hopt⟩ | ⟨held', hheld', ⟨l, hl, hlc⟩, -, -⟩
      · exact Or.inl ⟨H, hstable, hstable _ _ hH hrely, hview, hopt⟩
      · have h₁ := hheld' l hl
        rw [hheld l (hcov l hlc)] at h₁
        exact absurd (Option.some.inj h₁).symm hji
  | @drop i e s hs =>
    refine ⟨h.good, h.serial, fun j s' hs' => ?_⟩
    have hji : j ≠ i := by
      rintro rfl
      have hnone := (if_pos rfl).symm.trans hs'
      cases hnone
    exact (h.bound j s' ((if_neg hji).symm.trans hs')).frame rfl
      fun l hl => Config.owner_released.mpr ⟨hl, hji⟩

/-- **Serializability by critical locks**: in every guarded interleaving, the
committed store is the result of the committed transactions one after another,
in the order of their commits. -/
theorem serializable {d₀ : σ} {l : List (Config S R σ Λ ε α ι × Event ι × Config S R σ Λ ε α ι)}
    (hrefl : ∀ d, Rely d d) (htrans : ∀ {d e f}, Rely d e → Rely e f → Rely d f)
    (hQ : ∀ {i q a d d'}, D d → Q i q → q.exec M d = .ok (a, d') → D d' ∧ Rely d d')
    (hP : ∀ i, Optimistic M crit ok D Rely (Q i) (fun _ => True) [] (P i)) (hd₀ : D d₀)
    (hrun : Trail (fun c e c' => c.fire M P e = some c') (Config.initial d₀) l c)
    (hok : ∀ x ∈ l, Meets ok x.1 x.2.1) : D c.db ∧ Serial M Q d₀ c.commits c.db := by
  have h : Serializing M crit ok D Rely Q d₀ c :=
    hrun.guarded_last ⟨hd₀, .nil, fun i s hs => nomatch hs⟩
      (fun hi hg hs => serializing_step hrefl htrans hQ hP hi hg hs) hok
  exact ⟨h.good, h.serial⟩

end critical
