import Mathlib.Data.Fintype.Card
import Mathlib.Logic.Relation
import Mathlib.Order.RelClasses
import TimeOff.Lib.Sessions

/-!
# Deadlock freedom by lock ranks

A transaction whose next statement needs a lock that another one holds waits for
it (`Config.Waits`); a deadlock is a circle of waits. There is none among
transactions that take their locks in the order of one rank: whoever waits then
waits for a lock above all it holds, so along a chain of waits the locks rise.

`Obeys` says of one program that it follows a rank, for whatever the statements
see, as long as the store satisfies `I`; it is a weakest precondition over the
set of locks held, so programs are checked part by part (`Obeys.bind`). Several
ranks may suit a transaction; `Disciplined` is the invariant of the interleaved
system that each follows all that suit it. Then one rank that suits everybody a
transaction waits for, directly or through others, is enough:

- `Disciplined.not_circular`: it does not wait for itself;
- `Disciplined.exists_move`: of finitely many transactions, one it waits for, or
  it itself, can move.
-/

variable {S : Type} {R : S → Type} {σ Λ ε α β ι κ : Type}

/-! ## Waiting

A transaction under way that has no step waits for a lock, and the lock has an
owner. -/

namespace Config

variable (M : Semantics S R σ Λ ε) (c : Config S R σ Λ ε α ι)

/-- The next statement of `i` needs the lock `l`. -/
def Wants (i : ι) (l : Λ) : Prop :=
  ∃ s st k, c.sessions i = some s ∧ s.prog = .call st k ∧ M.needs st (s.view M c.db) = some l

/-- The next statement of `i` needs a lock that `j` holds. -/
def Waits (i j : ι) : Prop := j ≠ i ∧ ∃ l, c.Wants M i l ∧ c.owner l = some j

variable {M c}

theorem Wants.unique {i : ι} {l l' : Λ} (h : c.Wants M i l) (h' : c.Wants M i l') : l = l' := by
  obtain ⟨s, st, k, hs, hp, hl⟩ := h
  obtain ⟨s', st', k', hs', hp', hl'⟩ := h'
  obtain rfl := Option.some.inj (hs.symm.trans hs')
  cases hp.symm.trans hp'
  exact Option.some.inj (hl.symm.trans hl')

variable [DecidableEq Λ] [DecidableEq ι]

/-- A transaction under way can move, or waits for another one. -/
theorem moves_or_waits {P : ι → Program S R ε α} {i : ι} {s : Session S R σ ε α}
    (hs : c.sessions i = some s) :
    (∃ c', c.fire M P (.next i) = some c') ∨ ∃ j, c.Waits M i j := by
  simp only [fire, hs]
  cases hp : s.prog with
  | ret a => exact Or.inl ⟨_, rfl⟩
  | raise e => exact Or.inl ⟨_, rfl⟩
  | call st k =>
    dsimp only
    by_cases htake : c.CanTake M i s st
    · rw [if_pos htake]
      cases M.answer st (s.view M c.db) with
      | ok r => exact Or.inl ⟨_, rfl⟩
      | error e => exact Or.inl ⟨_, rfl⟩
    · -- the lock has another owner
      refine Or.inr ?_
      simp only [CanTake, not_forall, not_or] at htake
      obtain ⟨l, hl, hfree, hown⟩ := htake
      obtain ⟨j, hj⟩ := Option.ne_none_iff_exists'.mp hfree
      exact ⟨j, fun hji => hown (hji ▸ hj), l, ⟨s, st, k, hs, hp, hl⟩, hj⟩

/-- Who waits has no step. -/
theorem Waits.blocked {P : ι → Program S R ε α} {i j : ι} (h : c.Waits M i j) :
    c.fire M P (.next i) = none := by
  obtain ⟨hne, l, ⟨s, st, k, hs, hp, hl⟩, hown⟩ := h
  have htake : ¬ c.CanTake M i s st := by
    intro htake
    rcases htake l hl with hfree | hself
    · cases hfree.symm.trans hown
    · exact hne (Option.some.inj (hown.symm.trans hself))
  simp only [fire, hs, hp]
  exact if_neg htake

/-! ### One transaction at a time -/

omit [DecidableEq Λ] [DecidableEq ι] in
variable (M) in
/-- The transaction goes on with `p`, and sees the store `v`. -/
def Underway (c : Config S R σ Λ ε α ι) (i : ι) (p : Program S R ε α) (v : σ) : Prop :=
  ∃ s, c.sessions i = some s ∧ s.prog = p ∧ s.view M c.db = v

omit [DecidableEq Λ] [DecidableEq ι] in
theorem Underway.wants {i : ι} {st : S} {k : R st → Program S R ε α} {v : σ} {l : Λ}
    (h : c.Underway M i (.call st k) v) (hl : M.needs st v = some l) : c.Wants M i l := by
  obtain ⟨s, hs, hp, rfl⟩ := h
  exact ⟨s, st, k, hs, hp, hl⟩

variable (M) in
/-- A run in which the other transactions stand still. -/
structure Advances (P : ι → Program S R ε α) (i : ι) (c c' : Config S R σ Λ ε α ι) : Prop where
  run : ∃ l, Trail (fun c e c' => fire M P e c = some c') c l c'
  store : c'.db = c.db
  others : ∀ j, j ≠ i → c'.sessions j = c.sessions j

variable {P : ι → Program S R ε α} {i : ι} {v : σ}

theorem Advances.trans {c' c'' : Config S R σ Λ ε α ι} (h : Advances M P i c c')
    (h' : Advances M P i c' c'') : Advances M P i c c'' := by
  obtain ⟨l, hl⟩ := h.run
  obtain ⟨l', hl'⟩ := h'.run
  exact ⟨⟨l ++ l', hl.append hl'⟩, h'.store.trans h.store,
    fun j hji => (h'.others j hji).trans (h.others j hji)⟩

/-- The others are where they were. -/
theorem Advances.underway {c' : Config S R σ Λ ε α ι} (h : Advances M P i c c') {j : ι}
    {p : Program S R ε α} (hji : j ≠ i) (hj : c.Underway M j p v) : c'.Underway M j p v := by
  obtain ⟨s, hs, hp, rfl⟩ := hj
  refine ⟨s, (h.others j hji).trans hs, hp, ?_⟩
  rw [h.store]

/-- The next statement, when its lock is free. -/
theorem Underway.executed {st : S} {k : R st → Program S R ε α} {r : R st}
    (h : c.Underway M i (.call st k) v) (hr : M.answer st v = .ok r)
    (hl : ∀ l, M.needs st v = some l → c.owner l = none ∨ c.owner l = some i) :
    ∃ c', Advances M P i c c' ∧ c'.Underway M i (k r) (M.apply st v) ∧
      c'.owner = fun l => if M.needs st v = some l then some i else c.owner l := by
  obtain ⟨s, hs, hp, rfl⟩ := h
  have htake : c.CanTake M i s st := hl
  have hfire : c.fire M P (.next i) = some (c.executed M i s st (k r)) := by
    simp only [fire, hs, hp]
    rw [if_pos htake, hr]
  exact ⟨c.executed M i s st (k r), ⟨⟨_, Trail.nil.snoc hfire⟩, rfl, fun j hji => if_neg hji⟩,
    ⟨_, if_pos rfl, rfl, Session.replay_snoc ..⟩, rfl⟩

/-- And when it takes the lock `l`. -/
theorem Underway.locked {st : S} {k : R st → Program S R ε α} {r : R st} {l : Λ}
    (h : c.Underway M i (.call st k) v) (hr : M.answer st v = .ok r)
    (hneeds : M.needs st v = some l) (hl : c.owner l = none ∨ c.owner l = some i) :
    ∃ c', Advances M P i c c' ∧ c'.Underway M i (k r) (M.apply st v) ∧
      c'.owner = fun m => if m = l then some i else c.owner m := by
  obtain ⟨c', hrun, hunder, howner⟩ := h.executed (P := P) hr fun m hm =>
    Option.some.inj (hneeds.symm.trans hm) ▸ hl
  refine ⟨c', hrun, hunder, howner.trans (funext fun m => ?_)⟩
  rw [hneeds]
  exact if_congr ⟨fun h => (Option.some.inj h).symm, congrArg some ∘ Eq.symm⟩ rfl rfl

/-- A part that only reads. -/
theorem Underway.reads {β : Type} {p : Program S R ε β} {f : β → Program S R ε α} {b : β}
    (h : c.Underway M i (p >>= f) v) (hp : p.Within M.Reads) (hexec : p.exec M v = .ok (b, v)) :
    ∃ c', Advances M P i c c' ∧ c'.Underway M i (f b) v ∧ c'.owner = c.owner := by
  induction p generalizing c with
  | ret a =>
    cases hexec
    exact ⟨c, ⟨⟨[], .nil⟩, rfl, fun _ _ => rfl⟩, h, rfl⟩
  | raise e => cases hexec
  | call st k ih =>
    obtain ⟨hreads, hrest⟩ := hp
    cases hr : M.answer st v with
    | error e =>
      rw [Program.exec_call_error hr] at hexec
      cases hexec
    | ok r =>
      rw [Program.exec_call_ok hr, (hreads v).1] at hexec
      obtain ⟨c₁, hadvance, hunder, howner⟩ := Underway.executed (k := fun r => k r >>= f) h hr
        fun l hl => absurd hl (by rw [(hreads v).2]; nofun)
      rw [(hreads v).1] at hunder
      obtain ⟨c₂, hadvance', hunder', howner'⟩ := ih r hunder (hrest r) hexec
      refine ⟨c₂, hadvance.trans hadvance', hunder', howner'.trans ?_⟩
      rw [howner, (hreads v).2]
      exact funext fun l => if_neg nofun

theorem Advances.start {d₀ : σ} (h : c.sessions i = none) (hdb : c.db = d₀) :
    ∃ c', Advances M P i c c' ∧ c'.Underway M i (P i) d₀ ∧ c'.owner = c.owner := by
  have hfire : c.fire M P (.start i) = some (c.setSession i (some ⟨P i, []⟩)) := by
    simp only [fire, h]
  exact ⟨_, ⟨⟨_, Trail.nil.snoc hfire⟩, rfl, fun j hji => if_neg hji⟩,
    ⟨⟨P i, []⟩, if_pos rfl, rfl, hdb⟩, rfl⟩

end Config

/-! ## Taking locks in order

`Obeys` is computed along a program, from what each statement needs. Reads need
nothing, and the second part of a program starts with the locks of the first. -/

section obeys

variable [LT κ] (M : Semantics S R σ Λ ε) (rank : Λ → κ) (I : σ → Prop)

/-- A lock that may be taken by one who holds `held`. -/
def MayTake (held : Λ → Prop) (l : Λ) : Prop := held l ∨ ∀ m, held m → rank m < rank l

/-- On stores that satisfy `I` the program keeps `I`, takes its locks in the order
of the rank, and if it ends, does so as `Q` says of its result and its locks. -/
def Obeys : Program S R ε α → (Λ → Prop) → (α → (Λ → Prop) → Prop) → Prop
  | .ret a, held, Q => Q a held
  | .raise _, _, _ => True
  | .call st k, held, Q => (∀ d, I d → I (M.apply st d)) ∧ ∀ v, I v →
      (∀ l, M.needs st v = some l → MayTake rank held l) ∧
      ∀ r, M.answer st v = .ok r → Obeys (k r) (fun l => held l ∨ M.needs st v = some l) Q

namespace Obeys

variable {M rank I} {p : Program S R ε α} {held : Λ → Prop} {Q Q' : α → (Λ → Prop) → Prop}

theorem mono (h : Obeys M rank I p held Q) (hQ : ∀ a held', Q a held' → Q' a held') :
    Obeys M rank I p held Q' := by
  induction p generalizing held with
  | ret a => exact hQ a held h
  | raise e => trivial
  | call st k ih =>
    refine ⟨h.1, fun v hv => ⟨(h.2 v hv).1, fun r hr => ih r ((h.2 v hv).2 r hr)⟩⟩

/-- The second part goes on with the locks of the first. -/
theorem bind {f : α → Program S R ε β} {Q : β → (Λ → Prop) → Prop}
    (h : Obeys M rank I p held fun a held' => Obeys M rank I (f a) held' Q) :
    Obeys M rank I (p >>= f) held Q := by
  induction p generalizing held with
  | ret a => exact h
  | raise e => trivial
  | call st k ih =>
    refine ⟨h.1, fun v hv => ⟨(h.2 v hv).1, fun r hr => ih r ((h.2 v hv).2 r hr)⟩⟩

/-- A part that only reads. -/
theorem of_reads (h : p.Within M.Reads)
    (hQ : ∀ log a, p.Traces M log a → (∀ y ∈ log, I y.2) → Q a held) :
    Obeys M rank I p held Q := by
  induction p with
  | ret a => exact hQ [] a (.ret a) fun y hy => absurd hy List.not_mem_nil
  | raise e => trivial
  | call st k ih =>
    obtain ⟨hreads, hrest⟩ := h
    refine ⟨fun d hd => (hreads d).1.symm ▸ hd, fun v hv => ⟨fun l hl => ?_, fun r hr => ?_⟩⟩
    · cases (hreads v).2.symm.trans hl
    · have hheld : (fun l => held l ∨ M.needs st v = some l) = held := by
        funext l
        rw [(hreads v).2]
        exact propext (or_iff_left nofun)
      rw [hheld]
      refine ih r (hrest r) fun log a htraces hviews => ?_
      exact hQ ((st, v) :: log) a (.call hr htraces) (List.forall_mem_cons.mpr ⟨hv, hviews⟩)

end Obeys

end obeys

/-! ## Along an interleaving

Each transaction under way obeys every rank that suits it, with the locks it
holds now. A step of another one leaves it as it is. -/

section disciplined

variable [LinearOrder κ] [DecidableEq Λ] [DecidableEq ι] (M : Semantics S R σ Λ ε)
  (Suits : ι → (Λ → κ) → Prop) (I : σ → Prop)

/-- The locks of a transaction. -/
def Config.holds (c : Config S R σ Λ ε α ι) (i : ι) (l : Λ) : Prop := c.owner l = some i

/-- Every transaction under way goes on in the order of the ranks that suit it, and
locks are held by transactions under way only. -/
structure Disciplined (c : Config S R σ Λ ε α ι) : Prop where
  store : I c.db
  keeps : ∀ i s, c.sessions i = some s → ∀ d, I d → I (s.view M d)
  obeys : ∀ i s, c.sessions i = some s → ∀ rank, Suits i rank →
    Obeys M rank I s.prog (c.holds i) fun _ _ => True
  underWay : ∀ i l, c.owner l = some i → ∃ s, c.sessions i = some s

variable {M Suits I} {c c' : Config S R σ Λ ε α ι} {P : ι → Program S R ε α} {rank : Λ → κ}

namespace Disciplined

omit [DecidableEq Λ] [DecidableEq ι] in
theorem initial {d₀ : σ} (h : I d₀) :
    Disciplined M Suits I (Config.initial d₀ : Config S R σ Λ ε α ι) where
  store := h
  keeps := nofun
  obeys := nofun
  underWay := nofun

omit [DecidableEq Λ] in
/-- What is to be shown after a step of `i`, whose session is `x` then: the
others keep their sessions and their locks. -/
theorem frame (h : Disciplined M Suits I c) {i : ι} {x : Option (Session S R σ ε α)}
    (hstore : I c'.db) (hsessions : c'.sessions = fun j => if j = i then x else c.sessions j)
    (hothers : ∀ j l, j ≠ i → (c'.owner l = some j ↔ c.owner l = some j))
    (hkeeps : ∀ s ∈ x, ∀ d, I d → I (s.view M d))
    (hobeys : ∀ s ∈ x, ∀ rank, Suits i rank →
      Obeys M rank I s.prog (c'.holds i) fun _ _ => True)
    (hown : ∀ l, c'.owner l = some i → x.isSome) : Disciplined M Suits I c' := by
  have hold : ∀ {j s}, c'.sessions j = some s →
      (j = i ∧ s ∈ x) ∨ (j ≠ i ∧ c.sessions j = some s) := by
    intro j s hs
    rw [hsessions] at hs
    by_cases hji : j = i
    · exact Or.inl ⟨hji, (if_pos hji).symm.trans hs⟩
    · exact Or.inr ⟨hji, (if_neg hji).symm.trans hs⟩
  refine ⟨hstore, fun j s hs => ?_, fun j s hs => ?_, fun j l hl => ?_⟩
  · rcases hold hs with ⟨-, hx⟩ | ⟨-, hs⟩
    · exact hkeeps s hx
    · exact h.keeps j s hs
  · rcases hold hs with ⟨rfl, hx⟩ | ⟨hji, hs⟩
    · exact hobeys s hx
    · have hsame : c'.holds j = c.holds j := by
        funext l
        exact propext (hothers j l hji)
      rw [hsame]
      exact h.obeys j s hs
  · rw [hsessions]
    by_cases hji : j = i
    · obtain ⟨s, hs⟩ := Option.isSome_iff_exists.mp (hown l (hji ▸ hl))
      exact ⟨s, (if_pos hji).trans hs⟩
    · obtain ⟨s, hs⟩ := h.underWay j l ((hothers j l hji).mp hl)
      exact ⟨s, (if_neg hji).trans hs⟩

theorem statement (h : Disciplined M Suits I c) {i : ι} (hsome : ∃ rank, Suits i rank)
     {s : Session S R σ ε α} {st : S} {k : R st → Program S R ε α} {r : R st}
    (hs : c.sessions i = some s) (hp : s.prog = .call st k) (hl : c.CanTake M i s st)
    (hr : M.answer st (s.view M c.db) = .ok r) :
    Disciplined M Suits I (c.executed M i s st (k r)) := by
  have hprog : ∀ rank, Suits i rank →
      Obeys M rank I (.call st k) (c.holds i) fun _ _ => True := by
    rw [← hp]
    exact h.obeys i s hs
  obtain ⟨rank₀, hsuits₀⟩ := hsome
  have hkeep := (hprog rank₀ hsuits₀).1
  -- the locks of the others stay, the store does, and this program has one statement less
  refine h.frame (x := some ⟨k r, s.log ++ [(st, s.view M c.db)]⟩) h.store rfl ?_ ?_ ?_
    fun _ _ => rfl
  · intro j l hji
    refine ⟨fun hown => ?_, Config.owner_executed_of_ne hl hji⟩
    have hown : (if M.needs st (s.view M c.db) = some l then some i else c.owner l) = some j := hown
    split at hown
    · exact absurd (Option.some.inj hown).symm hji
    · exact hown
  · rintro t ⟨⟩ d hd
    show I (Session.replay M (s.log ++ [(st, s.view M c.db)]) d)
    rw [Session.replay_snoc]
    exact hkeep _ (h.keeps i s hs d hd)
  · rintro t ⟨⟩ rank hsuits
    -- it holds what it held and what the statement has taken
    have hheld : (c.executed M i s st (k r)).holds i
        = fun l => c.holds i l ∨ M.needs st (s.view M c.db) = some l := by
      funext l
      refine propext ⟨fun hown => ?_, fun hown => Config.owner_executed_self hown.symm⟩
      have hown : (if M.needs st (s.view M c.db) = some l then some i else c.owner l) = some i :=
        hown
      split at hown
      · next hneeds => exact Or.inr hneeds
      · exact Or.inl hown
    rw [hheld]
    exact ((hprog rank hsuits).2 _ (h.keeps i s hs c.db h.store)).2 r hr

theorem step (h : Disciplined M Suits I c) (hsome : ∀ i, ∃ rank, Suits i rank)
    (hP : ∀ i rank, Suits i rank → Obeys M rank I (P i) (fun _ => False) fun _ _ => True)
    {e : Event ι}
    (hf : c.fire M P e = some c') : Disciplined M Suits I c' := by
  -- a transaction that is over holds nothing
  have hover : ∀ {i : ι} {j : ι} {l : Λ}, j ≠ i → (c.released i l = some j ↔ c.owner l = some j) :=
    fun hji => Config.owner_released.trans (and_iff_left hji)
  have hnone : ∀ {i : ι} (l : Λ), c.released i l = some i →
      (none : Option (Session S R σ ε α)).isSome :=
    fun l hl => absurd rfl (Config.owner_released.mp hl).2
  cases Config.fires_of_fire hf with
  | @start i hi =>
    have hfree : ∀ l, c.owner l ≠ some i := by
      intro l hl
      obtain ⟨s, hs⟩ := h.underWay i l hl
      cases hi.symm.trans hs
    refine h.frame (x := some ⟨P i, []⟩) h.store rfl (fun _ _ _ => Iff.rfl) ?_ ?_ fun _ _ => rfl
    · rintro t ⟨⟩ d hd
      exact hd
    · rintro t ⟨⟩ rank hsuits
      have hheld : (c.setSession i (some ⟨P i, []⟩)).holds i = fun _ => False := by
        funext l
        exact propext (iff_false_intro (hfree l))
      rw [hheld]
      exact hP i rank hsuits
  | @statement i s st k r hs hp hl hr => exact h.statement (hsome i) hs hp hl hr
  | @commit i s a hs hp =>
    exact h.frame (x := none) (h.keeps i s hs c.db h.store) rfl (fun _ _ => hover) nofun nofun hnone
  | @drop i e s hs => exact h.frame (x := none) h.store rfl (fun _ _ => hover) nofun nofun hnone

omit [DecidableEq Λ] [DecidableEq ι] in
/-- What a transaction wants and another one holds is above all that it holds
itself. -/
theorem lt_of_wants (h : Disciplined M Suits I c) {i j : ι} {l m : Λ} (hsuits : Suits i rank)
    (hji : j ≠ i) (hwants : c.Wants M i l) (hl : c.owner l = some j) (hm : c.owner m = some i) :
    rank m < rank l := by
  obtain ⟨s, st, k, hs, hp, hneeds⟩ := hwants
  have hprog := h.obeys i s hs rank hsuits
  rw [hp] at hprog
  obtain ⟨htake, -⟩ := hprog.2 _ (h.keeps i s hs c.db h.store)
  rcases htake l hneeds with hheld | hlow
  · exact absurd (Option.some.inj (hl.symm.trans hheld)) hji
  · exact hlow m hm

omit [DecidableEq Λ] [DecidableEq ι] in
/-- Along a chain of waits the locks rise. -/
theorem lt_of_waits (h : Disciplined M Suits I c) {i j : ι}
    (hwaits : Relation.TransGen (c.Waits M) i j)
    (hsuits : ∀ k, Relation.TransGen (c.Waits M) i k → Suits k rank) {l m : Λ}
    (hi : c.Wants M i l) (hj : c.Wants M j m) (hm : ∃ o, o ≠ j ∧ c.owner m = some o) :
    rank l < rank m := by
  induction hwaits generalizing m with
  | single hij =>
    have hsuitsj := hsuits _ (.single hij)
    obtain ⟨-, l', hl', hown⟩ := hij
    obtain rfl := hi.unique hl'
    obtain ⟨o, hne, ho⟩ := hm
    exact h.lt_of_wants hsuitsj hne hj ho hown
  | tail hik hjk ih =>
    have hsuitsj := hsuits _ (.tail hik hjk)
    obtain ⟨hne, l', hl', hown⟩ := hjk
    obtain ⟨o, hne', ho⟩ := hm
    exact lt_trans (ih hl' ⟨_, hne, hown⟩) (h.lt_of_wants hsuitsj hne' hj ho hown)

omit [DecidableEq Λ] [DecidableEq ι] in
/-- No circle of waits. -/
theorem not_circular (h : Disciplined M Suits I c) {i : ι}
    (hsuits : ∀ k, Relation.TransGen (c.Waits M) i k → Suits k rank) :
    ¬ Relation.TransGen (c.Waits M) i i := by
  intro hi
  obtain ⟨j, ⟨hne, l, hl, hown⟩, -⟩ := Relation.TransGen.head'_iff.mp hi
  exact lt_irrefl _ (h.lt_of_waits hi hsuits hl hl ⟨j, hne, hown⟩)

/-- Behind a transaction under way there is one that can move. -/
theorem exists_move [Finite ι] (h : Disciplined M Suits I c) (P : ι → Program S R ε α) {i : ι}
    {s : Session S R σ ε α} (hs : c.sessions i = some s)
    (hsuits : ∀ k, Relation.TransGen (c.Waits M) i k → Suits k rank) :
    ∃ j, Relation.ReflTransGen (c.Waits M) i j ∧ ∃ c', c.fire M P (.next j) = some c' := by
  -- the chains of waits that begin at `i` come to an end
  let later : ι → ι → Prop := fun k j =>
    Relation.ReflTransGen (c.Waits M) i j ∧ Relation.TransGen (c.Waits M) j k
  have htrans : IsTrans ι later := ⟨fun _ _ _ hab hbc => ⟨hbc.1, hbc.2.trans hab.2⟩⟩
  have hirrefl : Std.Irrefl later :=
    ⟨fun j hj => h.not_circular (fun k hk => hsuits k (hk.trans_right hj.1)) hj.2⟩
  have hwf : WellFounded later := Finite.wellFounded_of_trans_of_irrefl later
  have hall : ∀ j, Relation.ReflTransGen (c.Waits M) i j → ∀ t, c.sessions j = some t →
      ∃ k, Relation.ReflTransGen (c.Waits M) j k ∧ ∃ c', c.fire M P (.next k) = some c' := by
    intro j
    induction j using hwf.induction with
    | _ j ih =>
    intro hij t ht
    rcases Config.moves_or_waits (M := M) (P := P) ht with hmoves | ⟨k, hwaits⟩
    · exact ⟨j, .refl, hmoves⟩
    · obtain ⟨u, hu⟩ : ∃ u, c.sessions k = some u := by
        obtain ⟨-, l, -, hown⟩ := hwaits
        exact h.underWay k l hown
      obtain ⟨o, ho, hmoves⟩ := ih k ⟨hij, .single hwaits⟩ (hij.tail hwaits) u hu
      exact ⟨o, .head hwaits ho, hmoves⟩
  exact hall i .refl s hs

end Disciplined

end disciplined
