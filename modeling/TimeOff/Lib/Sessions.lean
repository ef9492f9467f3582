import TimeOff.Lib.Interleaving

/-!
# What a transaction under way has seen

The log of a transaction tells how it came to where it is: `Follows` relates it
to the program the transaction began with, `Traces` is the log of a program that
ran to its end. Along every interleaving (`Tracked`),

- every logged statement was the next one of the program and got its answer from
  the view it ran on;
- every lock a logged statement needed is still the transaction's own;
- every statement saw an earlier committed store with the transaction's own
  statements up to then, and what it locked has not changed since (`Seen`).

The last is what locks are for. It rests on `Protects`: each lock stands for
facts about the store that only statements needing the lock can change. Each of
these is kept by one step of the system (`Tracked.step`), with one case for each
thing that can happen, and so by every run. What a transaction saw first it saw
committed: `firstSaw_of_log` finds the step of the run at which it did.
-/

variable {S : Type} {R : S → Type} {σ Λ ε α β ι : Type}

namespace Program

variable (M : Semantics S R σ Λ ε)

/-- With answers from the listed views, oldest first, the program `p` comes to
the program in the middle. -/
inductive Follows (p : Program S R ε α) : Program S R ε α → List (S × σ) → Prop
  | start : Follows p p []
  | next {st : S} {k : R st → Program S R ε α} {r : R st} {v : σ} {log : List (S × σ)} :
      Follows p (.call st k) log → M.answer st v = .ok r → Follows p (k r) (log ++ [(st, v)])

/-- With answers from the listed views the program ends with a result. -/
inductive Traces : Program S R ε α → List (S × σ) → α → Prop
  | ret (a : α) : Traces (.ret a) [] a
  | call {st : S} {k : R st → Program S R ε α} {r : R st} {v : σ} {log : List (S × σ)} {a : α} :
      M.answer st v = .ok r → Traces (k r) log a → Traces (.call st k) ((st, v) :: log) a

/-- Every statement the program can ever issue satisfies `P`. -/
def Within (P : S → Prop) : Program S R ε α → Prop
  | .ret _ => True
  | .raise _ => True
  | .call st k => P st ∧ ∀ r, Within P (k r)

variable {M} {p q : Program S R ε α} {log : List (S × σ)} {P : S → Prop}

theorem Follows.traces (h : Follows M p q log) {log' : List (S × σ)} {a : α}
    (h' : Traces M q log' a) : Traces M p (log ++ log') a := by
  induction h generalizing log' with
  | start => exact h'
  | @next st k r v log _ hr ih =>
    rw [List.append_assoc]
    exact ih (.call hr h')

/-- Every logged statement was answered. -/
theorem Follows.answered (h : Follows M p q log) : ∀ x ∈ log, ∃ r, M.answer x.1 x.2 = .ok r := by
  induction h with
  | start => exact fun x hx => absurd hx List.not_mem_nil
  | @next st k r v log _ hr ih =>
    intro x hx
    rcases List.mem_append.mp hx with hx | hx
    · exact ih x hx
    · rw [List.mem_singleton.mp hx]
      exact ⟨r, hr⟩

theorem traces_ret {a b : α} : Traces M (.ret a : Program S R ε α) log b ↔ log = [] ∧ a = b := by
  constructor
  · rintro ⟨⟩
    exact ⟨rfl, rfl⟩
  · rintro ⟨rfl, rfl⟩
    exact .ret a

theorem not_traces_raise {e : ε} {b : α} : ¬ Traces M (.raise e : Program S R ε α) log b := nofun

theorem traces_call {st : S} {k : R st → Program S R ε α} {b : α} :
    Traces M (.call st k) log b ↔
      ∃ v r rest, log = (st, v) :: rest ∧ M.answer st v = .ok r ∧ Traces M (k r) rest b := by
  constructor
  · rintro (_ | ⟨hr, h⟩)
    exact ⟨_, _, _, rfl, hr, h⟩
  · rintro ⟨v, r, rest, rfl, hr, h⟩
    exact .call hr h

/-- The trace of a sequence is a trace of its first part and one of the second. -/
theorem traces_bind {f : α → Program S R ε β} {b : β} :
    Traces M (p >>= f) log b ↔
      ∃ log₁ a log₂, log = log₁ ++ log₂ ∧ Traces M p log₁ a ∧ Traces M (f a) log₂ b := by
  induction p generalizing log with
  | ret a =>
    constructor
    · intro h
      exact ⟨[], a, log, rfl, .ret a, h⟩
    · rintro ⟨log₁, a', log₂, rfl, h₁, h₂⟩
      obtain ⟨rfl, rfl⟩ := traces_ret.mp h₁
      exact h₂
  | raise e =>
    constructor
    · intro h
      exact absurd h not_traces_raise
    · rintro ⟨_, _, _, _, h₁, _⟩
      exact absurd h₁ not_traces_raise
  | call st k ih =>
    rw [call_bind, traces_call]
    constructor
    · rintro ⟨v, r, rest, rfl, hr, h⟩
      obtain ⟨log₁, a, log₂, rfl, h₁, h₂⟩ := (ih r).mp h
      exact ⟨(st, v) :: log₁, a, log₂, rfl, .call hr h₁, h₂⟩
    · rintro ⟨log₁, a, log₂, rfl, h₁, h₂⟩
      obtain ⟨v, r, rest, rfl, hr, h₁⟩ := traces_call.mp h₁
      exact ⟨v, r, rest ++ log₂, rfl, hr, (ih r).mpr ⟨rest, a, log₂, rfl, h₁, h₂⟩⟩

theorem Within.mono {Q : S → Prop} (h : Within P p) (hPQ : ∀ st, P st → Q st) : Within Q p := by
  induction p with
  | ret a => trivial
  | raise e => trivial
  | call st k ih => exact ⟨hPQ st h.1, fun r => ih r (h.2 r)⟩

theorem Within.bind {f : α → Program S R ε β} (hp : Within P p) (hf : ∀ a, Within P (f a)) :
    Within P (p >>= f) := by
  induction p with
  | ret a => exact hf a
  | raise e => trivial
  | call st k ih => exact ⟨hp.1, fun r => ih r (hp.2 r)⟩

theorem Within.foldlM {γ : Type} {f : α → γ → Program S R ε α} (hf : ∀ a x, Within P (f a x))
    (xs : List γ) (a : α) : Within P (xs.foldlM f a) := by
  induction xs generalizing a with
  | nil => trivial
  | cons x xs ih =>
    rw [List.foldlM_cons]
    exact (hf a x).bind fun b => ih b

theorem Within.of_traces (h : Within P p) {a : α} (ht : Traces M p log a) : ∀ x ∈ log, P x.1 := by
  induction ht with
  | ret a => exact fun x hx => absurd hx List.not_mem_nil
  | call _ _ ih =>
    intro x hx
    rcases List.mem_cons.mp hx with rfl | hx
    · exact h.1
    · exact ih (h.2 _) x hx

end Program

/-! ## Reading first

What a transaction only reads before its first critical lock can be remembered,
with the states it was read from. -/

/-- A statement that only reads and locks nothing. -/
def Semantics.Reads (M : Semantics S R σ Λ ε) (st : S) : Prop :=
  ∀ d, M.apply st d = d ∧ M.needs st d = none

/-- Plain reads that would be answered the same by one store are a run on it. -/
theorem Program.Traces.exec {M : Semantics S R σ Λ ε} {p : Program S R ε β} {log : List (S × σ)}
    {b : β} (h : p.Traces M log b) (hp : p.Within M.Reads) {d : σ}
    (hsame : ∀ x ∈ log, M.answer x.1 x.2 = M.answer x.1 d) : p.exec M d = .ok (b, d) := by
  induction h with
  | ret b => rfl
  | @call st k r v log b hr _ ih =>
    have hd : M.answer st d = .ok r := (hsame (st, v) (List.mem_cons_self ..)).symm.trans hr
    rw [Program.exec_call_ok hd, (hp.1 d).1]
    exact ih (hp.2 r) fun x hx => hsame x (List.mem_cons_of_mem _ hx)

/-- A transaction may begin with plain reads: what they see is all that the rest
of it can assume. -/
theorem Optimistic.bind_reads {M : Semantics S R σ Λ ε} {crit : List Λ}
    {ok : Session S R σ ε α → σ → Prop} {D H : σ → Prop} {Rely : σ → σ → Prop}
    {Q : Program S R ε α → Prop} {log : List (S × σ)} {p : Program S R ε β}
    {f : β → Program S R ε α} (hp : p.Within M.Reads)
    (hf : ∀ log' b, p.Traces M log' b → (∀ x ∈ log', D x.2) →
      Optimistic M crit ok D Rely Q (fun d => H d ∧ ∀ x ∈ log', Rely x.2 d) (log ++ log') (f b)) :
    Optimistic M crit ok D Rely Q H log (p >>= f) := by
  induction p generalizing H log with
  | ret b =>
    have h := hf [] b (.ret b) nofun
    rw [List.append_nil] at h
    exact h.mono fun d hd => ⟨hd, nofun⟩
  | raise e => trivial
  | call st k ih =>
    intro d r hd _ _ hr
    obtain ⟨hsame, hfree⟩ := hp.1 d
    constructor
    · intro l hl
      rw [hfree] at hl
      cases hl
    · intro _
      -- the read is added to the log, and `H` remembers what it saw
      refine ⟨fun d' => (hp.1 d').1, ih r (hp.2 r) fun log' b hb hlog => ?_⟩
      have h := hf ((st, d) :: log') b (.call hr hb) fun x hx => by
        rcases List.mem_cons.mp hx with rfl | hx
        · exact hd
        · exact hlog x hx
      rw [List.append_assoc]
      refine h.mono fun d' h' => ⟨h'.1.1, fun x hx => ?_⟩
      rcases List.mem_cons.mp hx with rfl | hx
      · exact h'.1.2
      · exact h'.2 x hx

/-! ## Along an interleaving

`Tracked` is the invariant: every log follows its program, locks that were taken
are held, and what a statement saw is still true of the store as far as the
locks protect it. -/

section tracked

variable [DecidableEq Λ] [DecidableEq ι] {M : Semantics S R σ Λ ε} {P : ι → Program S R ε α}
  {c c' : Config S R σ Λ ε α ι} {Keeps : Λ → σ → σ → Prop} {Le : σ → σ → Prop}

/-- Each lock stands for facts that only statements needing the lock can change. -/
structure Protects (M : Semantics S R σ Λ ε) (Keeps : Λ → σ → σ → Prop) : Prop where
  refl : ∀ l d, Keeps l d d
  trans : ∀ {l d e f}, Keeps l d e → Keeps l e f → Keeps l d f
  keeps : ∀ {l st v r} d, M.answer st v = .ok r → M.needs st v ≠ some l → Keeps l d (M.apply st d)

omit [DecidableEq Λ] in
theorem Protects.replay (h : Protects M Keeps) {l : Λ} {log : List (S × σ)}
    (hlog : ∀ x ∈ log, (∃ r, M.answer x.1 x.2 = .ok r) ∧ M.needs x.1 x.2 ≠ some l) (d : σ) :
    Keeps l d (Session.replay M log d) := by
  induction log generalizing d with
  | nil => exact h.refl l d
  | cons x rest ih =>
    obtain ⟨⟨r, hr⟩, hneeds⟩ := hlog x (List.mem_cons_self ..)
    exact h.trans (h.keeps d hr hneeds) (ih (fun y hy => hlog y (List.mem_cons_of_mem _ hy)) _)

/-- No statement makes the store less, and on more it makes more. -/
structure Grows (M : Semantics S R σ Λ ε) (Le : σ → σ → Prop) : Prop where
  refl : ∀ d, Le d d
  trans : ∀ {d e f}, Le d e → Le e f → Le d f
  mono : ∀ st {d e}, Le d e → Le (M.apply st d) (M.apply st e)
  apply : ∀ st d, Le d (M.apply st d)

omit [DecidableEq Λ] in
theorem Grows.replay_mono (h : Grows M Le) (log : List (S × σ)) {d e : σ} (hle : Le d e) :
    Le (Session.replay M log d) (Session.replay M log e) := by
  induction log generalizing d e with
  | nil => exact hle
  | cons x rest ih => exact ih (h.mono x.1 hle)

omit [DecidableEq Λ] in
theorem Grows.replay (h : Grows M Le) (log : List (S × σ)) (d : σ) :
    Le d (Session.replay M log d) := by
  induction log generalizing d with
  | nil => exact h.refl d
  | cons x rest ih => exact h.trans (h.apply x.1 d) (ih _)

/-- Every statement saw an earlier committed store, with the transaction's own
statements up to then. The store has not become less since, and what the
statement locked is still the same. -/
def Seen (M : Semantics S R σ Λ ε) (Keeps : Λ → σ → σ → Prop) (Le : σ → σ → Prop)
    (log : List (S × σ)) (db : σ) : Prop :=
  ∀ pre st v post, log = pre ++ (st, v) :: post →
    ∃ d, v = Session.replay M pre d ∧ Le d db ∧ ∀ l, M.needs st v = some l → Keeps l d db

namespace Seen

variable {log : List (S × σ)} {d e : σ}

omit [DecidableEq Λ] in
theorem nil : Seen M Keeps Le [] d := by
  intro pre st v post heq
  cases pre <;> cases heq

omit [DecidableEq Λ] in
theorem snoc (h : Seen M Keeps Le log d) (hp : Protects M Keeps) (hg : Grows M Le) (st : S) :
    Seen M Keeps Le (log ++ [(st, Session.replay M log d)]) d := by
  intro pre st' v post heq
  rcases List.eq_nil_or_concat post with rfl | ⟨post', x, rfl⟩
  · obtain ⟨rfl, hlast⟩ := List.append_inj' heq rfl
    obtain ⟨rfl, rfl⟩ := Prod.mk.inj (List.singleton_inj.mp hlast)
    exact ⟨d, rfl, hg.refl d, fun l _ => hp.refl l d⟩
  · rw [List.concat_eq_append, ← List.cons_append, ← List.append_assoc] at heq
    exact h pre st' v post' (List.append_inj' heq rfl).1

omit [DecidableEq Λ] in
theorem mono (h : Seen M Keeps Le log d) (hp : Protects M Keeps) (hg : Grows M Le) (hle : Le d e)
    (hkeeps : ∀ x ∈ log, ∀ l, M.needs x.1 x.2 = some l → Keeps l d e) :
    Seen M Keeps Le log e := by
  intro pre st v post heq
  obtain ⟨f, hv, hf, hlocks⟩ := h pre st v post heq
  have hmem : (st, v) ∈ log := heq ▸ List.mem_append_right _ (List.mem_cons_self ..)
  exact ⟨f, hv, hg.trans hf hle, fun l hl => hp.trans (hlocks l hl) (hkeeps _ hmem l hl)⟩

omit [DecidableEq Λ] in
/-- A prefix of a log has been seen as well. -/
theorem of_append {log' : List (S × σ)} (h : Seen M Keeps Le (log ++ log') d) :
    Seen M Keeps Le log d := by
  intro pre st v post heq
  exact h pre st v (post ++ log') (by rw [heq, List.append_assoc, List.cons_append])

omit [DecidableEq Λ] in
/-- What a statement saw is no more than what it would see there now. -/
theorem le (h : Seen M Keeps Le log d) (hg : Grows M Le) {pre post : List (S × σ)} {st : S} {v : σ}
    (heq : log = pre ++ (st, v) :: post) : Le v (Session.replay M pre d) := by
  obtain ⟨f, rfl, hf, -⟩ := h pre st v post heq
  exact hg.replay_mono pre hf

end Seen

/-- What holds of the transactions under way in every interleaving. -/
structure Tracked (M : Semantics S R σ Λ ε) (Keeps : Λ → σ → σ → Prop) (Le : σ → σ → Prop)
    (P : ι → Program S R ε α) (c : Config S R σ Λ ε α ι) : Prop where
  follows : ∀ {i s}, c.sessions i = some s → (P i).Follows M s.prog s.log
  held : ∀ {i s}, c.sessions i = some s → ∀ x ∈ s.log, ∀ l, M.needs x.1 x.2 = some l →
    c.owner l = some i
  seen : ∀ {i s}, c.sessions i = some s → Seen M Keeps Le s.log c.db

omit [DecidableEq Λ] [DecidableEq ι] in
theorem tracked_initial (db : σ) : Tracked M Keeps Le P (Config.initial db) :=
  ⟨nofun, nofun, nofun⟩

omit [DecidableEq Λ] in
/-- A session still open once session `i` is closed is another one, and was open before. -/
theorem open_of_closed {i j : ι} {x : Option β} {s : β}
    (h : (if j = i then none else x) = some s) : j ≠ i ∧ x = some s := by
  by_cases hji : j = i
  · rw [if_pos hji] at h
    cases h
  · rw [if_neg hji] at h
    exact ⟨hji, h⟩

namespace Tracked

omit [DecidableEq Λ] [DecidableEq ι] in
/-- A commit leaves alone what locks of others, and free locks, protect. -/
theorem commit_keeps (h : Tracked M Keeps Le P c) (hp : Protects M Keeps) {i : ι}
    {s : Session S R σ ε α} (hs : c.sessions i = some s) {l : Λ} (hl : c.owner l ≠ some i) :
    Keeps l c.db (s.view M c.db) :=
  hp.replay (fun x hx => ⟨(h.follows hs).answered x hx, fun hn => hl (h.held hs x hx l hn)⟩) c.db

omit [DecidableEq Λ] [DecidableEq ι] in
/-- The log of a transaction that is done is a trace of its program. -/
theorem traces (h : Tracked M Keeps Le P c) {i : ι} {s : Session S R σ ε α} {a : α}
    (hs : c.sessions i = some s) (hprog : s.prog = .ret a) : (P i).Traces M s.log a := by
  have hret : s.prog.Traces M [] a := hprog ▸ .ret a
  have htraces : (P i).Traces M (s.log ++ []) a := (h.follows hs).traces hret
  rwa [List.append_nil] at htraces

theorem step (h : Tracked M Keeps Le P c) (hp : Protects M Keeps) (hg : Grows M Le) {e : Event ι}
    (hf : c.fire M P e = some c') : Tracked M Keeps Le P c' := by
  cases Config.fires_of_fire hf with
  | @start i hi =>
    -- the new session has run nothing
    have hnew : ∀ {j s}, (c.setSession i (some ⟨P i, []⟩)).sessions j = some s →
        (j = i ∧ s = ⟨P i, []⟩) ∨ c.sessions j = some s := by
      intro j s hs
      by_cases hji : j = i
      · exact Or.inl ⟨hji, (Option.some.inj ((if_pos hji).symm.trans hs)).symm⟩
      · exact Or.inr ((if_neg hji).symm.trans hs)
    refine ⟨fun hs => ?_, fun hs x hx l hl => ?_, fun hs => ?_⟩
    · rcases hnew hs with ⟨rfl, rfl⟩ | hs
      · exact .start
      · exact h.follows hs
    · rcases hnew hs with ⟨rfl, rfl⟩ | hs
      · cases hx
      · exact h.held hs x hx l hl
    · rcases hnew hs with ⟨rfl, rfl⟩ | hs
      · exact Seen.nil
      · exact h.seen hs
  | @statement i s st k r hs hprog hl hr =>
    have hnew : ∀ {j s'}, (c.executed M i s st (k r)).sessions j = some s' →
        (j = i ∧ s' = ⟨k r, s.log ++ [(st, s.view M c.db)]⟩) ∨
          (j ≠ i ∧ c.sessions j = some s') := by
      intro j s' hs'
      by_cases hji : j = i
      · exact Or.inl ⟨hji, (Option.some.inj ((if_pos hji).symm.trans hs')).symm⟩
      · exact Or.inr ⟨hji, (if_neg hji).symm.trans hs'⟩
    refine ⟨fun hs' => ?_, fun hs' x hx l hn => ?_, fun hs' => ?_⟩
    · rcases hnew hs' with ⟨rfl, rfl⟩ | ⟨-, hs'⟩
      · have hfollows := h.follows hs
        rw [hprog] at hfollows
        exact hfollows.next hr
      · exact h.follows hs'
    · rcases hnew hs' with ⟨rfl, rfl⟩ | ⟨hji, hs'⟩
      · rcases List.mem_append.mp hx with hx | hx
        · exact Config.owner_executed_self (Or.inr (h.held hs x hx l hn))
        · -- the statement that was just run has taken its lock
          rw [List.mem_singleton.mp hx] at hn
          exact Config.owner_executed_self (Or.inl hn)
      · exact Config.owner_executed_of_ne hl hji (h.held hs' x hx l hn)
    · rcases hnew hs' with ⟨rfl, rfl⟩ | ⟨-, hs'⟩
      · exact (h.seen hs).snoc hp hg st
      · exact h.seen hs'
  | @commit i s a hs hprog =>
    have hold {j s'} (hs' : (c.committed M i s).sessions j = some s') := open_of_closed hs'
    refine ⟨fun hs' => h.follows (hold hs').2, fun hs' x hx l hn => ?_, fun hs' => ?_⟩
    · obtain ⟨hji, hs'⟩ := hold hs'
      exact Config.owner_released.mpr ⟨h.held hs' x hx l hn, hji⟩
    · obtain ⟨hji, hs'⟩ := hold hs'
      -- what others commit is kept from a transaction by the locks it holds
      refine (h.seen hs').mono hp hg (hg.replay s.log c.db) fun x hx l hn => ?_
      refine h.commit_keeps hp hs ?_
      rw [h.held hs' x hx l hn]
      exact fun hij => hji (Option.some.inj hij)
  | @drop i e s hs =>
    have hold {j s'} (hs' : (c.dropped i).sessions j = some s') := open_of_closed hs'
    refine ⟨fun hs' => h.follows (hold hs').2, fun hs' x hx l hn => ?_, fun hs' => ?_⟩
    · obtain ⟨hji, hs'⟩ := hold hs'
      exact Config.owner_released.mpr ⟨h.held hs' x hx l hn, hji⟩
    · exact h.seen (hold hs').2

end Tracked

/-- A run of interleaved transactions. -/
abbrev Interleaved (M : Semantics S R σ Λ ε) (P : ι → Program S R ε α) (d₀ : σ) :=
  Trail (fun (c : Config S R σ Λ ε α ι) e c' => c.fire M P e = some c') (Config.initial d₀)

theorem tracked_before {d₀ : σ}
    {l : List (Config S R σ Λ ε α ι × Event ι × Config S R σ Λ ε α ι)} (hp : Protects M Keeps)
    (hg : Grows M Le) (h : Interleaved M P d₀ l c) : ∀ x ∈ l, Tracked M Keeps Le P x.1 :=
  h.before (tracked_initial d₀) fun ht hf => ht.step hp hg hf

/-! ## First statements

What a transaction has read first was committed when it read it: its log was
empty then, and there was nothing of its own to see. -/

/-- In the run `l`, the transaction of `i` that is under way at its end ran its
first statement on the committed store `d`. -/
def FirstSaw (l : List (Config S R σ Λ ε α ι × Event ι × Config S R σ Λ ε α ι)) (i : ι) (d : σ) :
    Prop :=
  ∃ before x after, l = before ++ x :: after ∧ x.2.1 = .next i ∧ x.1.db = d ∧
    (∃ s, x.1.sessions i = some s ∧ s.log = []) ∧ ∀ y ∈ after, y.2.1 ≠ .start i

omit [DecidableEq Λ] [DecidableEq ι] in
/-- Whatever happens next, unless the transaction is begun anew. -/
theorem FirstSaw.snoc {l : List (Config S R σ Λ ε α ι × Event ι × Config S R σ Λ ε α ι)} {i : ι}
    {d : σ} (h : FirstSaw l i d) {y : Config S R σ Λ ε α ι × Event ι × Config S R σ Λ ε α ι}
    (hy : y.2.1 ≠ .start i) : FirstSaw (l ++ [y]) i d := by
  obtain ⟨before, x, after, rfl, hnext, hdb, hfirst, hafter⟩ := h
  refine ⟨before, x, after ++ [y], by rw [List.append_assoc, List.cons_append], hnext, hdb,
    hfirst, ?_⟩
  rw [List.forall_mem_append, List.forall_mem_singleton]
  exact ⟨hafter, hy⟩

/-- The first logged statement of a transaction was logged before a step, or this
step is the one that ran it: on what is committed. -/
theorem Config.first_of_fire {e : Event ι} (hf : c.fire M P e = some c') {i : ι}
    {s : Session S R σ ε α} {y : S × σ} {rest : List (S × σ)} (hs : c'.sessions i = some s)
    (hlog : s.log = y :: rest) :
    (∃ s' rest', c.sessions i = some s' ∧ s'.log = y :: rest') ∨
      (e = .next i ∧ y.2 = c.db ∧ ∃ s', c.sessions i = some s' ∧ s'.log = []) := by
  cases Config.fires_of_fire hf with
  | @start j hj =>
    by_cases hij : i = j
    · obtain rfl := Option.some.inj ((if_pos hij).symm.trans hs)
      cases hlog
    · exact Or.inl ⟨s, rest, (if_neg hij).symm.trans hs, hlog⟩
  | @statement j t st k r ht hprog hl hr =>
    by_cases hij : i = j
    · subst hij
      obtain rfl := Option.some.inj ((if_pos rfl).symm.trans hs)
      obtain ⟨prog, log⟩ := t
      cases log with
      | nil =>
        cases hlog
        exact Or.inr ⟨rfl, rfl, _, ht, rfl⟩
      | cons z log =>
        cases hlog
        exact Or.inl ⟨_, log, ht, rfl⟩
    · exact Or.inl ⟨s, rest, (if_neg hij).symm.trans hs, hlog⟩
  | commit ht hprog => exact Or.inl ⟨s, rest, (open_of_closed hs).2, hlog⟩
  | drop ht => exact Or.inl ⟨s, rest, (open_of_closed hs).2, hlog⟩

/-- A transaction that is begun has run nothing yet. -/
theorem Config.ne_start_of_log {e : Event ι} (hf : c.fire M P e = some c') {i : ι}
    {s : Session S R σ ε α} {y : S × σ} {rest : List (S × σ)} (hs : c'.sessions i = some s)
    (hlog : s.log = y :: rest) : e ≠ .start i := by
  rintro rfl
  simp only [Config.fire] at hf
  split at hf
  · cases hf
    obtain rfl := Option.some.inj ((if_pos rfl).symm.trans hs)
    cases hlog
  · cases hf

/-- The view of a transaction's first statement was committed when it ran. -/
theorem firstSaw_of_log {d₀ : σ}
    {l : List (Config S R σ Λ ε α ι × Event ι × Config S R σ Λ ε α ι)}
    (h : Interleaved M P d₀ l c) {i : ι} {s : Session S R σ ε α} {y : S × σ}
    {rest : List (S × σ)} (hs : c.sessions i = some s) (hlog : s.log = y :: rest) :
    FirstSaw l i y.2 := by
  induction h generalizing s rest with
  | nil => cases hs
  | @snoc l t u e hp hf ih =>
    rcases Config.first_of_fire hf hs hlog with ⟨s', rest', hs', hlog'⟩ | ⟨hnext, hdb, hfirst⟩
    · exact (ih hs' hlog').snoc (Config.ne_start_of_log hf hs hlog)
    · exact ⟨l, (t, e, u), [], rfl, hnext, hdb.symm, hfirst, nofun⟩

end tracked
