import Mathlib.Data.List.Forall2
import Mathlib.Tactic.Common

/-!
# Programs that talk to a store

A `Program` is a tree of statements: it either ends with a value, raises, or
issues a statement `s` and continues with the answer, of type `R s`. What the
statements mean is given separately by a `Semantics`, so one program has two
readings: `exec` runs it alone, from start to end, and the interleaved reading
of `Interleaving.lean` runs it statement by statement beside others.

Programs are a monad, and the laws hold by equality of trees (`bind_ret`,
`bind_bind`). `exec_bind` splits the run of a sequence, and `exec_bind_ok`
inverts a successful one; programs are taken apart with these two and never
unfolded.

The first section has the same for `Except`, the monad of the parts that issue
no statement: what a sequence and a pass over a list come to when they succeed
(`bind_eq_ok`, `mapM_eq_ok`) and when they fail, and two tests on results.
`passes` asks for a result with a property and `Ensures` for a property of the
result, if there is one; both can be decided.
-/

/-- A sequence of fallible steps succeeds exactly when both parts do. -/
theorem Except.bind_eq_ok {ε α β : Type} {x : Except ε α} {f : α → Except ε β} {b : β} :
    x >>= f = .ok b ↔ ∃ a, x = .ok a ∧ f a = .ok b := by
  cases x with
  | error e => exact ⟨fun h => (nomatch h), fun ⟨_, h, _⟩ => (nomatch h)⟩
  | ok a => exact ⟨fun h => ⟨a, rfl, h⟩, fun ⟨_, h, hf⟩ => by cases h; exact hf⟩

/-- Sequences agree that go on in the same way from the result. -/
theorem Except.bind_congr_ok {ε α β : Type} {x : Except ε α} {f g : α → Except ε β}
    (h : ∀ a, x = .ok a → f a = g a) : x >>= f = x >>= g := by
  cases x with
  | error e => rfl
  | ok a => exact h a rfl

/-- A sequence fails in its first part or in its second. -/
theorem Except.bind_eq_error {ε α β : Type} {x : Except ε α} {f : α → Except ε β} {e : ε} :
    x >>= f = .error e ↔ x = .error e ∨ ∃ a, x = .ok a ∧ f a = .error e := by
  cases x with
  | error e' =>
    constructor
    · intro h
      cases h
      exact Or.inl rfl
    · rintro (h | ⟨_, h, _⟩)
      · cases h
        rfl
      · cases h
  | ok a =>
    constructor
    · intro h
      exact Or.inr ⟨a, rfl, h⟩
    · rintro (h | ⟨_, h, hf⟩)
      · cases h
      · cases h
        exact hf

/-- Mapping a result does not mend an error. -/
theorem Except.map_eq_error {ε α β : Type} {x : Except ε α} {f : α → β} {e : ε} :
    x.map f = .error e ↔ x = .error e := by
  cases x with
  | error e' => exact ⟨fun h => (by cases h; rfl), fun h => (by cases h; rfl)⟩
  | ok a => exact ⟨fun h => (nomatch h), fun h => (nomatch h)⟩

/-- A pass over a list succeeds when every element does, with their results. -/
theorem Except.mapM_eq_ok {ε α β : Type} {f : α → Except ε β} {xs : List α} {ys : List β} :
    xs.mapM f = .ok ys ↔ List.Forall₂ (fun x y => f x = .ok y) xs ys := by
  induction xs generalizing ys with
  | nil =>
    rw [List.forall₂_nil_left_iff]
    exact ⟨fun h => (Except.ok.inj h).symm, fun h => h ▸ rfl⟩
  | cons x xs ih =>
    rw [List.mapM_cons, Except.bind_eq_ok, List.forall₂_cons_left_iff]
    constructor
    · rintro ⟨y, hy, h⟩
      obtain ⟨rest, hrest, h⟩ := Except.bind_eq_ok.mp h
      cases h
      exact ⟨y, rest, hy, ih.mp hrest, rfl⟩
    · rintro ⟨y, rest, hy, hrest, rfl⟩
      exact ⟨y, hy, Except.bind_eq_ok.mpr ⟨rest, ih.mpr hrest, rfl⟩⟩

/-- A result of a pass is the result of an element. -/
theorem Except.exists_of_mem_mapM {ε α β : Type} {f : α → Except ε β} {xs : List α} {ys : List β}
    (h : xs.mapM f = .ok ys) {y : β} (hy : y ∈ ys) : ∃ x ∈ xs, f x = .ok y := by
  have hall := Except.mapM_eq_ok.mp h
  clear h
  induction hall with
  | nil => cases hy
  | cons hxy _ ih =>
    rcases List.mem_cons.mp hy with rfl | hy
    · exact ⟨_, List.mem_cons_self .., hxy⟩
    · obtain ⟨x, hx, hok⟩ := ih hy
      exact ⟨x, List.mem_cons_of_mem _ hx, hok⟩

theorem Except.exists_of_mapM_ok {ε α β : Type} {f : α → Except ε β} {xs : List α} {ys : List β}
    (h : xs.mapM f = .ok ys) {x : α} (hx : x ∈ xs) : ∃ y, f x = .ok y := by
  have hall := Except.mapM_eq_ok.mp h
  clear h
  induction hall with
  | nil => cases hx
  | cons hxy _ ih =>
    rcases List.mem_cons.mp hx with rfl | hx
    · exact ⟨_, hxy⟩
    · exact ih hx

/-- A pass that fails does so at an element. -/
theorem Except.exists_of_mapM_error {ε α β : Type} {f : α → Except ε β} {xs : List α} {e : ε}
    (h : xs.mapM f = .error e) : ∃ x ∈ xs, f x = .error e := by
  induction xs with
  | nil => cases h
  | cons x xs ih =>
    rw [List.mapM_cons, Except.bind_eq_error] at h
    rcases h with h | ⟨y, -, h⟩
    · exact ⟨x, List.mem_cons_self .., h⟩
    rcases Except.bind_eq_error.mp h with h | ⟨ys, -, h⟩
    · obtain ⟨z, hz, hfail⟩ := ih h
      exact ⟨z, List.mem_cons_of_mem _ hz, hfail⟩
    · cases h

/-- A pass succeeds where every element does. -/
theorem Except.exists_mapM_ok {ε α β : Type} {f : α → Except ε β} {xs : List α}
    (h : ∀ x ∈ xs, ∃ y, f x = .ok y) : ∃ ys, xs.mapM f = .ok ys := by
  induction xs with
  | nil => exact ⟨[], rfl⟩
  | cons x xs ih =>
    obtain ⟨y, hy⟩ := h x (List.mem_cons_self ..)
    obtain ⟨ys, hys⟩ := ih fun z hz => h z (List.mem_cons_of_mem _ hz)
    exact ⟨y :: ys, Except.mapM_eq_ok.mpr (.cons hy (Except.mapM_eq_ok.mp hys))⟩

/-- A pass depends on what it does to the elements only. -/
theorem Except.mapM_congr {ε α β : Type} {f g : α → Except ε β} {xs : List α}
    (h : ∀ x ∈ xs, f x = g x) : xs.mapM f = xs.mapM g := by
  induction xs with
  | nil => rfl
  | cons x xs ih =>
    rw [List.mapM_cons, List.mapM_cons, h x (List.mem_cons_self ..),
      ih fun y hy => h y (List.mem_cons_of_mem _ hy)]

/-- A computation succeeds, with a result that passes a test. -/
def Except.passes {ε α : Type} (test : α → Bool) : Except ε α → Bool
  | .ok a => test a
  | .error _ => false

/-- What passes a test is a result. -/
theorem Except.ok_of_passes {ε α : Type} {test : α → Bool} {x : Except ε α}
    (h : x.passes test = true) : ∃ a, x = .ok a ∧ test a = true := by
  cases x with
  | ok a => exact ⟨a, rfl, h⟩
  | error e => cases h

/-- A computation has a result that satisfies `P`, if it has any. -/
def Except.Ensures {ε α : Type} (P : α → Prop) : Except ε α → Prop
  | .ok a => P a
  | .error _ => True

instance {ε α : Type} (P : α → Prop) [DecidablePred P] (x : Except ε α) :
    Decidable (x.Ensures P) :=
  match x with
  | .ok a => inferInstanceAs (Decidable (P a))
  | .error _ => isTrue trivial

/-- Every result has the property. -/
theorem Except.ensures_iff {ε α : Type} {P : α → Prop} {x : Except ε α} :
    x.Ensures P ↔ ∀ a, x = .ok a → P a := by
  cases x with
  | ok a =>
    constructor
    · rintro h b ⟨⟩
      exact h
    · intro h
      exact h a rfl
  | error e => exact ⟨fun _ _ h => (nomatch h), fun _ => trivial⟩

/-- A program over statements `S` with answers `R`, errors `ε` and result `α`. -/
inductive Program (S : Type) (R : S → Type) (ε α : Type) : Type
  | ret (a : α)
  | raise (e : ε)
  | call (s : S) (k : R s → Program S R ε α)

/-- The meaning of statements on a store `σ`: the answer or an error, the
effect on the store, and the row lock (of type `Λ`) the statement takes and
keeps until its transaction ends. -/
structure Semantics (S : Type) (R : S → Type) (σ Λ ε : Type) where
  answer : (s : S) → σ → Except ε (R s)
  apply : S → σ → σ
  needs : S → σ → Option Λ

namespace Program

variable {S : Type} {R : S → Type} {σ Λ ε α β γ : Type}

/-- Sequencing. -/
protected def bind : Program S R ε α → (α → Program S R ε β) → Program S R ε β
  | .ret a, f => f a
  | .raise e, _ => .raise e
  | .call s k, f => .call s fun r => (k r).bind f

instance : Monad (Program S R ε) where
  pure := .ret
  bind := Program.bind

/-- Issue one statement. -/
def perform (s : S) : Program S R ε (R s) := .call s .ret

/-- The three forms of a program under sequencing. -/
@[simp] theorem ret_bind (a : α) (f : α → Program S R ε β) :
    (Program.ret a >>= f) = f a := rfl

@[simp] theorem raise_bind (e : ε) (f : α → Program S R ε β) :
    (Program.raise e >>= f) = .raise e := rfl

@[simp] theorem call_bind (s : S) (k : R s → Program S R ε α) (f : α → Program S R ε β) :
    (Program.call s k >>= f) = .call s fun r => k r >>= f := rfl

/-- Programs are a monad. -/
theorem bind_ret (p : Program S R ε α) : (p >>= .ret) = p := by
  induction p with
  | ret a => rfl
  | raise e => rfl
  | call s k ih => exact congrArg (Program.call s) (funext ih)

theorem bind_bind (p : Program S R ε α) (f : α → Program S R ε β) (g : β → Program S R ε γ) :
    (p >>= f >>= g) = p >>= fun a => f a >>= g := by
  induction p with
  | ret a => rfl
  | raise e => rfl
  | call s k ih => exact congrArg (Program.call s) (funext ih)

instance : LawfulMonad (Program S R ε) :=
  LawfulMonad.mk' _ bind_ret (fun _ _ => rfl) bind_bind

/-- The statement the program issues next. -/
def next? : Program S R ε α → Option S
  | .call s _ => some s
  | .ret _ | .raise _ => none

/-- The program has ended with a result. -/
def done : Program S R ε α → Bool
  | .ret _ => true
  | .raise _ | .call .. => false

/-! ## Running alone -/

variable (M : Semantics S R σ Λ ε)

/-- Run a program to its end with nothing in between. -/
def exec : Program S R ε α → σ → Except ε (α × σ)
  | .ret a, db => .ok (a, db)
  | .raise e, _ => .error e
  | .call s k, db =>
    match M.answer s db with
    | .ok r => exec (k r) (M.apply s db)
    | .error e => .error e

variable {M}

/-- The three forms of a program, run alone. -/
@[simp] theorem exec_ret (a : α) (db : σ) :
    exec M (.ret a : Program S R ε α) db = .ok (a, db) := rfl

@[simp] theorem exec_pure (a : α) (db : σ) :
    exec M (pure a : Program S R ε α) db = .ok (a, db) := rfl

@[simp] theorem exec_raise (e : ε) (db : σ) :
    exec M (.raise e : Program S R ε α) db = .error e := rfl

/-- A statement that is answered has its effect, and the rest runs on. -/
theorem exec_call_ok {s : S} {k : R s → Program S R ε α} {db : σ} {r : R s}
    (h : M.answer s db = .ok r) : exec M (.call s k) db = exec M (k r) (M.apply s db) := by
  rw [exec, h]

/-- A statement that fails ends the run. -/
theorem exec_call_error {s : S} {k : R s → Program S R ε α} {db : σ} {e : ε}
    (h : M.answer s db = .error e) : exec M (.call s k) db = .error e := by
  rw [exec, h]

/-- A sequence runs its first part, then the second from where it ended. -/
theorem exec_bind (p : Program S R ε α) (f : α → Program S R ε β) (db : σ) :
    exec M (p >>= f) db =
      match exec M p db with
      | .ok (a, db') => exec M (f a) db'
      | .error e => .error e := by
  induction p generalizing db with
  | ret a => rfl
  | raise e => rfl
  | call s k ih =>
    rw [call_bind]
    cases h : M.answer s db with
    | ok r => rw [exec_call_ok h, exec_call_ok h, ih]
    | error e => rw [exec_call_error h, exec_call_error h]

/-- `exec_bind`, when the first part is known to succeed. -/
theorem exec_bind_of_ok {p : Program S R ε α} {f : α → Program S R ε β} {db db' : σ} {a : α}
    (h : exec M p db = .ok (a, db')) : exec M (p >>= f) db = exec M (f a) db' := by
  rw [exec_bind, h]

/-- And when it is known to fail. -/
theorem exec_bind_of_error {p : Program S R ε α} {f : α → Program S R ε β} {db : σ} {e : ε}
    (h : exec M p db = .error e) : exec M (p >>= f) db = .error e := by
  rw [exec_bind, h]

/-- A sequence succeeds exactly when both parts do. -/
theorem exec_bind_ok {p : Program S R ε α} {f : α → Program S R ε β} {db db'' : σ} {b : β} :
    exec M (p >>= f) db = .ok (b, db'') ↔
      ∃ a db', exec M p db = .ok (a, db') ∧ exec M (f a) db' = .ok (b, db'') := by
  rw [exec_bind]
  cases exec M p db with
  | ok x =>
    constructor
    · exact fun h => ⟨x.1, x.2, rfl, h⟩
    · rintro ⟨a, db', h, hf⟩
      cases h
      exact hf
  | error e => simp

end Program
