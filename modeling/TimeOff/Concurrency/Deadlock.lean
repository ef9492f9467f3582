import Mathlib.Data.Prod.Lex
import TimeOff.Concurrency.Routes
import TimeOff.Lib.Deadlock
import TimeOff.Requests.Events
import TimeOff.Requests.Expansion
import TimeOff.Requests.NetEffect

/-!
# Who waits for whom

A submission and a cancellation lock the snapshot first, then ledger entries,
then the request; a decision locks the request before the snapshot. Entries of a
request are written year by year. So the locks of any number of routes can be
ranked (`lockRank`) as long as no request is both decided and cancelled, and
then no circle of waits closes (`deadlock_conflicts`). A decision and a
cancellation of one request can wait for each other, and do
(`decide_cancel_deadlock`).

For the first, every route is shown to follow a rank (`Route.inOrder`): it only
goes for a lock that ranks above all it holds. `InOrder` is closed under binds,
and its rules are one for a statement that takes no new lock and one for a
statement that may; a loop over the legs of a request needs that they are in the
order of their years, which holds because the days of a request are. The ranks
differ in one point only, whether a request comes before the snapshots or after
the entries, so transactions none of which opposes another agree on one rank for
all that they wait for (`exists_suits`), and the library rules out the circle.

For the second, the two routes are run up to the point where each holds the lock
that the other wants: the decision holds the request and wants the snapshot, the
cancellation holds the snapshot and wants the request (`decide_locks`,
`cancel_locks`).
-/

namespace TimeOff

open Gregorian

/-! ## Legs in the order of their years

The legs of a request are posted in the order in which their years first appear,
and the days of a stored request are sorted: so the keys of its entries are
inserted year by year. -/

/-- Later days are in later years, or in the same. -/
theorem year_mono {d e : Date} (h : d ≤ e) : d.year ≤ e.year := by
  have hindex := monthIndex_mono h
  obtain ⟨hd₁, hd₂, -⟩ := month_bounds d
  obtain ⟨he₁, he₂, -⟩ := month_bounds e
  unfold Date.monthIndex at hindex
  omega

/-- The years of a dictionary, in the order of the rows. -/
def MinutesByYear.years (totals : MinutesByYear) : List Int := totals.rows.map Prod.fst

namespace MinutesByYear

variable {totals : MinutesByYear} {day : RequestDay}

/-- A day adds its year unless it is there. -/
theorem years_addDay : (totals.addDay day).years
    = if Table.Has totals day.date.year then totals.years
      else totals.years ++ [day.date.year] := by
  have hkeys : (totals.addDay day).years
      = (Table.insertNew totals (day.date.year, (0 : Int))).rows.map Prod.fst :=
    Table.keys_modify
  rw [hkeys]
  split
  · next h => rw [Table.insertNew_of_has h]; rfl
  · next h =>
    rw [Table.rows_insertNew h, List.map_append]
    rfl

/-- Days in order add years in order. -/
theorem years_increasing {days : List RequestDay} (hdays : days.Pairwise (·.date < ·.date))
    (hbefore : ∀ year ∈ totals.years, ∀ day ∈ days, year ≤ day.date.year)
    (htotals : totals.years.Pairwise (· < ·)) :
    (MinutesByYear.years (days.foldl addDay totals)).Pairwise (· < ·) := by
  induction days generalizing totals with
  | nil => exact htotals
  | cons day days ih =>
    obtain ⟨hfirst, hrest⟩ := List.pairwise_cons.mp hdays
    have hlater : ∀ later ∈ days, day.date.year ≤ later.date.year :=
      fun later hl => year_mono (le_of_lt (hfirst later hl))
    have hday : ∀ year ∈ totals.years, year ≤ day.date.year :=
      fun year hyear => hbefore year hyear day (List.mem_cons_self ..)
    refine ih hrest ?_ ?_
    · intro year hyear later hl
      rw [years_addDay] at hyear
      split at hyear
      · exact hbefore year hyear later (List.mem_cons_of_mem _ hl)
      · rcases List.mem_append.mp hyear with hyear | hyear
        · exact hbefore year hyear later (List.mem_cons_of_mem _ hl)
        · rw [List.mem_singleton.mp hyear]
          exact hlater later hl
    · rw [years_addDay]
      split
      · exact htotals
      · next hnew =>
        refine List.pairwise_append.mpr ⟨htotals, List.pairwise_singleton .., ?_⟩
        intro year hyear year' hyear'
        rw [List.mem_singleton.mp hyear']
        refine lt_of_le_of_ne (hday year hyear) ?_
        rintro rfl
        exact hnew hyear

end MinutesByYear

/-- So the legs of a request come in the order of their years. -/
theorem legs_increasing {days : List RequestDay} (h : days.Pairwise (·.date < ·.date)) :
    (legs days).Pairwise (·.year < ·.year) := by
  have hyears : (legs days).map (·.year) = (minutesByYear days).years := by
    unfold MinutesByYear.years
    rw [← legs_eq, List.map_map]
    rfl
  have hpairwise : ((legs days).map (·.year)).Pairwise (· < ·) := by
    rw [hyears]
    exact MinutesByYear.years_increasing h (fun _ hyear => absurd hyear List.not_mem_nil)
      List.Pairwise.nil
  exact List.pairwise_map.mp hpairwise

/-! ## Ranking the locks

Snapshots come first, then the entries of requests by year, and the requests
themselves last, or first for those that a decision locks before anything else.
Which of the two holds for a request is what a rank leaves open (`decided`). -/

open Classical in
/-- The year of a leg's source id. -/
noncomputable def legYear (source : String) : Int :=
  if h : ∃ year id, source = legSource id year then h.choose else 0

/-- The year can be read off the source of a leg. -/
theorem legYear_legSource (id : Uuid) (year : Int) : legYear (legSource id year) = year := by
  have h : ∃ year' id', legSource id year = legSource id' year' := ⟨year, id, rfl⟩
  obtain ⟨id', hsource⟩ := h.choose_spec
  unfold legYear
  rw [dif_pos h]
  exact (legSource_inj hsource).2.symm

open Classical in
/-- Requests that are decided come before the snapshots, the others after the
entries. -/
noncomputable def lockRank (decided : Uuid → Prop) : Lock → Nat ×ₗ Int
  | .request id => toLex (if decided id then 0 else 3, 0)
  | .snapshot _ => toLex (1, 0)
  | .entry key => toLex (2, legYear key.2)

/-- The catalog is the given one, and every request has its days in order. -/
structure Orderly (c : Catalog) (db : Db) : Prop where
  catalog : db.catalog = c
  sorted : ∀ r ∈ db.requests.rows, r.days.Pairwise (·.date < ·.date)

/-- Statements keep this, if the request they insert has its days in order. -/
theorem Orderly.apply {c : Catalog} {db : Db} {s : Stmt} (h : Orderly c db)
    (hs : ∀ row, s = .insertRequest row → row.days.Pairwise (·.date < ·.date)) :
    Orderly c (s.apply db) := by
  refine ⟨(Stmt.apply_catalog s db).trans h.catalog, ?_⟩
  cases s with
  | insertRequest row =>
    intro r hr
    rcases Table.mem_insertNew hr with hold | ⟨rfl, -⟩
    · exact h.sorted r hold
    · exact hs r rfl
  | updateRequest id u =>
    intro r hr
    have hr : r ∈ (db.requests.modify id (TimeOffRequest.update u) fun _ => rfl).rows := hr
    obtain ⟨old, hold, rfl⟩ := Table.mem_modify.mp hr
    have hsorted := h.sorted old hold
    split
    · exact hsorted
    · exact hsorted
  | _ => exact h.sorted

/-- The routes that lock a request before its snapshot. -/
def Route.Decides (id : Uuid) : Route → Prop
  | .decide _ requestId _ _ => requestId = id
  | .submit .. | .cancel .. => False

/-- And those that lock it last. -/
def Route.LocksLast (id : Uuid) : Route → Prop
  | .submit _ newId _ _ => newId = id
  | .cancel _ requestId _ => requestId = id
  | .decide .. => False

section obeys

variable {α : Type} {decided : Uuid → Prop} {c : Catalog} {held : Lock → Prop}

/-- A transaction follows the rank. -/
abbrev InOrder (decided : Uuid → Prop) (c : Catalog) (p : Tx α) (held : Lock → Prop)
    (Q : α → (Lock → Prop) → Prop) : Prop :=
  Obeys database (lockRank decided) (Orderly c) p held Q

namespace InOrder

variable {Q : α → (Lock → Prop) → Prop} {s : Stmt} {k : s.Answer → Tx α}

/-- A statement that takes no new lock. -/
theorem keeping (hs : ∀ row, s = .insertRequest row → row.days.Pairwise (·.date < ·.date))
    (hneeds : ∀ v l, s.needs v = some l → held l)
    (hk : ∀ v r, Orderly c v → s.answer v = .ok r → InOrder decided c (k r) held Q) :
    InOrder decided c (.call s k) held Q := by
  refine ⟨fun d hd => hd.apply hs, fun v hv => ⟨fun l hl => Or.inl (hneeds v l hl), ?_⟩⟩
  intro r hr
  have hsame : (fun l => held l ∨ database.needs s v = some l) = held := by
    funext l
    exact propext (or_iff_left_of_imp (hneeds v l))
  rw [hsame]
  exact hk v r hv hr

/-- A statement that may take the lock `l`. -/
theorem taking {l : Lock} (hs : ∀ row, s = .insertRequest row → row.days.Pairwise (·.date < ·.date))
    (hneeds : ∀ v l', s.needs v = some l' → l' = l) (hl : MayTake (lockRank decided) held l)
    (hk : ∀ v r, Orderly c v → s.answer v = .ok r →
      (s.needs v = some l → InOrder decided c (k r) (fun m => held m ∨ m = l) Q) ∧
      (s.needs v = none → InOrder decided c (k r) held Q)) :
    InOrder decided c (.call s k) held Q := by
  refine ⟨fun d hd => hd.apply hs, fun v hv => ⟨fun l' hl' => hneeds v l' hl' ▸ hl, ?_⟩⟩
  intro r hr
  obtain ⟨htaken, hfree⟩ := hk v r hv hr
  cases hn : s.needs v with
  | none =>
    have hsame : (fun l => held l ∨ database.needs s v = some l) = held := by
      funext m
      rw [show database.needs s v = none from hn]
      exact propext (or_iff_left nofun)
    rw [hsame]
    exact hfree hn
  | some l' =>
    obtain rfl := hneeds v l' hn
    have hmore : (fun l => held l ∨ database.needs s v = some l) = fun m => held m ∨ m = l' := by
      funext m
      rw [show database.needs s v = some l' from hn]
      exact propext (or_congr_right ⟨fun h => (Option.some.inj h).symm, congrArg some ∘ Eq.symm⟩)
    rw [hmore]
    exact htaken hn

/-- A last statement that takes no new lock. -/
theorem last (hs : ∀ row, s = .insertRequest row → row.days.Pairwise (·.date < ·.date))
    {Q : s.Answer → (Lock → Prop) → Prop} (hneeds : ∀ v l, s.needs v = some l → held l)
    (hQ : ∀ r, Q r held) : InOrder decided c (Program.perform s) held Q :=
  keeping hs hneeds fun _ r _ _ => hQ r

/-! ### Snapshots -/

/-- Reading or creating a snapshot takes its lock. -/
theorem snapshot {a : Account} {loaded : Option BalanceSnapshot}
    {Q : BalanceSnapshot → (Lock → Prop) → Prop}
    (hl : MayTake (lockRank decided) held (.snapshot a))
    (hQ : ∀ row held', (∀ l, held' l ↔ held l ∨ l = .snapshot a) → Q row held') :
    InOrder decided c (RequestService.snapshot a true loaded) held Q := by
  -- no snapshot was found: it is summed and inserted, and the insert takes its lock
  have hmissing : InOrder decided c (do
      let balance : Int ← Tx.query (.balance a none)
      Program.perform (Stmt.insertSnapshot ⟨a, balance, 0⟩)
      return ⟨a, balance, 0⟩ : Tx BalanceSnapshot) held Q := by
    refine keeping (s := .select (.balance a none)) nofun nofun fun v balance _ _ => ?_
    refine taking (s := .insertSnapshot ⟨a, balance, 0⟩) nofun ?_ hl fun v r _ hr => ⟨?_, ?_⟩
    · intro v l hn
      simp only [Stmt.needs] at hn
      split at hn
      · cases hn
      · exact (Option.some.inj hn).symm
    · intro _
      exact hQ _ _ fun _ => Iff.rfl
    · -- a snapshot that is there already fails the insert
      intro hn
      simp only [Stmt.needs] at hn
      split at hn
      · next hhas => cases (if_pos hhas).symm.trans hr
      · cases hn
  refine taking (s := .lockSnapshot a) nofun ?_ hl fun v found _ hfound => ⟨?_, ?_⟩
  · intro v l hn
    simp only [Stmt.needs] at hn
    split at hn
    · exact (Option.some.inj hn).symm
    · cases hn
  · intro hn
    have hfound : v.snapshots.find? a = found := Except.ok.inj hfound
    cases found with
    | some row => exact hQ _ _ fun _ => Iff.rfl
    | none =>
      simp only [Stmt.needs] at hn
      rw [if_neg (Table.find?_eq_none.mp hfound)] at hn
      cases hn
  · intro hn
    have hfound : v.snapshots.find? a = found := Except.ok.inj hfound
    cases found with
    | some row =>
      simp only [Stmt.needs] at hn
      rw [if_pos (Table.has_iff.mpr ⟨row, hfound⟩)] at hn
      cases hn
    | none => exact hmissing

/-! ### Entries -/

/-- Posting takes the lock of the entry. -/
theorem post {e : LedgerEntry} {Q : Int → (Lock → Prop) → Prop}
    (hsnapshot : held (.snapshot e.account))
    (hl : MayTake (lockRank decided) held (.entry e.key))
    (hQ : ∀ n held', (∀ l, held l → held' l) → (∀ l, held' l → held l ∨ l = .entry e.key) →
      Q n held') : InOrder decided c (LedgerService.post e) held Q := by
  refine taking (s := .insertLedgerEntry e) nofun ?_ hl fun v isNew _ _ => ⟨?_, ?_⟩
  · intro v l hn
    simp only [Stmt.needs] at hn
    split at hn
    · cases hn
    · exact (Option.some.inj hn).symm
  all_goals
    intro _
    cases isNew with
    | false => exact hQ _ _ (by tauto) (by tauto)
    | true =>
      refine keeping (s := .select (.balance e.account none)) nofun nofun fun v total _ _ => ?_
      refine keeping (s := .upsertSnapshot e.account total) nofun ?_ fun v r _ _ => ?_
      · intro v l hn
        cases hn
        tauto
      · exact hQ _ _ (by tauto) (by tauto)

/-- Entries of an account whose snapshot is locked, in the order of the rank. -/
theorem postEach {es : List LedgerEntry} {Q : Unit → (Lock → Prop) → Prop}
    (hsnapshot : ∀ e ∈ es, held (.snapshot e.account))
    (hafter : ∀ e ∈ es, ∀ l, held l → lockRank decided l < lockRank decided (.entry e.key))
    (hsorted : es.Pairwise fun e f =>
      lockRank decided (.entry e.key) < lockRank decided (.entry f.key))
    (hQ : ∀ held', (∀ l, held l → held' l) → (∀ l, held' l → held l ∨ ∃ k, l = .entry k) →
      Q () held') : InOrder decided c (LedgerService.postEach es) held Q := by
  induction es generalizing held with
  | nil => exact hQ held (fun _ hl => hl) fun _ hl => Or.inl hl
  | cons e es ih =>
    obtain ⟨hfirst, hrest⟩ := List.pairwise_cons.mp hsorted
    refine Obeys.bind (post (hsnapshot e (List.mem_cons_self ..))
      (Or.inr (hafter e (List.mem_cons_self ..))) fun n held' hmore hless => ?_)
    refine ih (fun f hf => hmore _ (hsnapshot f (List.mem_cons_of_mem _ hf))) ?_ hrest ?_
    · intro f hf l hl
      rcases hless l hl with hl | rfl
      · exact hafter f (List.mem_cons_of_mem _ hf) l hl
      · exact hfirst f hf
    · intro held'' hmore' hless'
      refine hQ held'' (fun l hl => hmore' l (hmore l hl)) fun l hl => ?_
      rcases hless' l hl with hl | hentry
      · exact (hless l hl).imp_right fun h => ⟨_, h⟩
      · exact Or.inr hentry

end InOrder

/-! ### The rank along a request -/

/-- The ranks of the three kinds of locks. -/
theorem lockRank_snapshot_lt_entry (a : Account) (k : SourceKey) :
    lockRank decided (.snapshot a) < lockRank decided (.entry k) :=
  Prod.Lex.toLex_lt_toLex.mpr (Or.inl Nat.one_lt_two)

theorem lockRank_entry_lt {j k : SourceKey} (h : legYear j.2 < legYear k.2) :
    lockRank decided (.entry j) < lockRank decided (.entry k) :=
  Prod.Lex.toLex_lt_toLex.mpr (Or.inr ⟨rfl, h⟩)

theorem lockRank_request_lt {id : Uuid} (h : decided id) (a : Account) :
    lockRank decided (.request id) < lockRank decided (.snapshot a) := by
  simp only [lockRank, if_pos h]
  exact Prod.Lex.toLex_lt_toLex.mpr (Or.inl Nat.zero_lt_one)

theorem lockRank_lt_request {id : Uuid} (h : ¬ decided id) {l : Lock}
    (hl : (∃ a, l = .snapshot a) ∨ ∃ k, l = .entry k) :
    lockRank decided l < lockRank decided (.request id) := by
  rcases hl with ⟨a, rfl⟩ | ⟨k, rfl⟩
  · simp only [lockRank, if_neg h]
    exact Prod.Lex.toLex_lt_toLex.mpr (Or.inl (show 1 < 3 by decide))
  · simp only [lockRank, if_neg h]
    exact Prod.Lex.toLex_lt_toLex.mpr (Or.inl (show 2 < 3 by decide))

/-- The entries of a request are posted in the order of the rank. -/
theorem lockRank_legs {r : TimeOffRequest} {f : Leg → LedgerEntry}
    (hf : ∀ leg, (f leg).key.2 = legSource r.id leg.year)
    (h : r.days.Pairwise (·.date < ·.date)) :
    ((legs r.days).map f).Pairwise fun d e =>
      lockRank decided (.entry d.key) < lockRank decided (.entry e.key) := by
  refine List.pairwise_map.mpr ((legs_increasing h).imp fun {leg leg'} hlt => ?_)
  refine lockRank_entry_lt ?_
  rw [hf, hf, legYear_legSource, legYear_legSource]
  exact hlt

end obeys

/-! ## Routes in order

Each part of a route follows the rank from the locks it is given. -/

namespace RequestService

variable {decided : Uuid → Prop} {c : Catalog} {held : Lock → Prop} {r : TimeOffRequest}

/-- The entries of a request, posted once its snapshot is locked. -/
theorem inOrder_legs {f : Leg → LedgerEntry} {Q : Unit → (Lock → Prop) → Prop}
    (hkey : ∀ leg, (f leg).key.2 = legSource r.id leg.year)
    (haccount : ∀ leg, (f leg).account = r.account) (hsorted : r.days.Pairwise (·.date < ·.date))
    (hsnapshot : held (.snapshot r.account))
    (hafter : ∀ l k, held l → lockRank decided l < lockRank decided (.entry k))
    (hQ : ∀ held', (∀ l, held l → held' l) → (∀ l, held' l → held l ∨ ∃ k, l = .entry k) →
      Q () held') : InOrder decided c (LedgerService.postEach ((legs r.days).map f)) held Q := by
  refine InOrder.postEach (fun e he => ?_) (fun e _ l hl => hafter l e.key hl)
    (lockRank_legs hkey hsorted) hQ
  obtain ⟨leg, -, rfl⟩ := List.mem_map.mp he
  rw [haccount]
  exact hsnapshot

/-- The parts of the routes, each from the locks that it is given. -/
theorem inOrder_settle {approve : Bool} {actorId : String} {note : Option String}
    (hdecided : decided r.id) (hsorted : r.days.Pairwise (·.date < ·.date)) :
    InOrder decided c (settle r approve actorId note) (fun l => l = .request r.id)
      fun _ _ => True := by
  refine Obeys.bind (Obeys.of_reads (within_frozenVersion (fun _ _ => reads_select _)
    (fun _ => reads_select _) r) fun log found _ _ => ?_)
  refine Obeys.bind (InOrder.snapshot (Or.inr ?_) fun row held hheld => ?_)
  · rintro l rfl
    exact lockRank_request_lt hdecided _
  cases found with
  | none => trivial
  | some version =>
  have hsnapshot : held (.snapshot r.account) := (hheld _).mpr (Or.inr rfl)
  have hafter : ∀ l k, held l → lockRank decided l < lockRank decided (.entry k) := by
    intro l k hl
    rcases (hheld l).mp hl with rfl | rfl
    · exact (lockRank_request_lt hdecided r.account).trans (lockRank_snapshot_lt_entry _ k)
    · exact lockRank_snapshot_lt_entry _ k
  -- what is left writes the snapshot and the request, both locked
  have hrest : ∀ held' : Lock → Prop, (∀ l, held l → held' l) →
      InOrder decided c (releaseHold r version row >>= fun _ => do
        Program.perform (Stmt.updateRequest r.id (decision approve actorId note))
        return r.update (decision approve actorId note)) held' fun _ _ => True := by
    intro held' hmore
    have hupdate : InOrder decided c (do
        Program.perform (Stmt.updateRequest r.id (decision approve actorId note))
        return r.update (decision approve actorId note)) held' fun _ _ => True := by
      refine InOrder.keeping (s := .updateRequest r.id (decision approve actorId note)) nofun ?_
        fun _ _ _ _ => trivial
      rintro v l ⟨⟩
      exact hmore _ ((hheld _).mpr (Or.inl rfl))
    refine Obeys.bind ?_
    unfold releaseHold
    split
    · refine InOrder.last (s := .updateSnapshotHold r.account _) nofun ?_ fun _ => hupdate
      rintro v l ⟨⟩
      exact hmore _ hsnapshot
    · exact hupdate
  refine Obeys.bind ?_
  unfold debitRequest
  split
  · split
    · trivial
    · exact inOrder_legs (fun _ => rfl) (fun _ => rfl) hsorted hsnapshot hafter
        fun held' hmore _ => hrest held' hmore
  · exact hrest held fun _ hl => hl

/-- A decision locks the request, then its snapshot, then entries. -/
theorem inOrder_decide {id : Uuid} {approve : Bool} {actorId : String} {note : Option String}
    (hdecided : decided id) :
    InOrder decided c (decide id approve actorId note) (fun _ => False) fun _ _ => True := by
  refine InOrder.taking (s := .lockRequest id) (l := .request id) nofun ?_
    (Or.inr fun _ => False.elim) fun v found hv hfound => ⟨fun _ => ?_, fun hn => ?_⟩
  · intro v l hn
    simp only [Stmt.needs] at hn
    split at hn
    · exact (Option.some.inj hn).symm
    · cases hn
  · have hfind : v.requests.find? id = found := Except.ok.inj hfound
    cases found with
    | none => trivial
    | some r =>
    obtain ⟨hr, rfl⟩ := Table.find?_eq_some.mp hfind
    show InOrder decided c (if _ then _ else _) _ _
    split
    · trivial
    · have hheld : (fun l => False ∨ l = Lock.request r.id) = fun l => l = .request r.id := by
        funext l
        exact false_or _
      rw [hheld]
      exact inOrder_settle hdecided (hv.sorted r hr)
  · -- a request that is not locked was not found
    have hfind : v.requests.find? id = found := Except.ok.inj hfound
    cases found with
    | none => trivial
    | some r =>
      simp only [Stmt.needs] at hn
      rw [if_pos (Table.has_iff.mpr ⟨r, hfind⟩)] at hn
      cases hn

/-- A cancellation locks the snapshot, then entries, then the request. -/
theorem inOrder_cancel {actorId : String} {today : Date} (hdecided : ¬ decided r.id)
    (hsorted : r.days.Pairwise (·.date < ·.date)) :
    InOrder decided c (cancel r actorId today) (fun _ => False) fun _ _ => True := by
  unfold cancel
  split
  · trivial
  split
  · trivial
  refine Obeys.bind (InOrder.snapshot (Or.inr fun _ => False.elim) fun row held hheld => ?_)
  have hheld : ∀ l, held l ↔ l = .snapshot r.account := fun l => by rw [hheld, false_or]
  have hupdate : ∀ held' : Lock → Prop, (∀ l, held' l → held l ∨ ∃ k, l = .entry k) →
      InOrder decided c (do
        Program.perform (Stmt.updateRequest r.id (cancellation r.status actorId))
        return r.update (cancellation r.status actorId)) held' fun _ _ => True := by
    intro held' hless
    refine InOrder.taking (s := .updateRequest r.id (cancellation r.status actorId))
      (l := .request r.id) nofun ?_ (Or.inr fun l hl => ?_)
      fun _ _ _ _ => ⟨fun _ => trivial, fun _ => trivial⟩
    · rintro v l ⟨⟩
      rfl
    · refine lockRank_lt_request hdecided ?_
      rcases hless l hl with hl | hentry
      · exact Or.inl ⟨_, (hheld l).mp hl⟩
      · exact Or.inr hentry
  refine Obeys.bind ?_
  unfold giveBack
  split
  · refine InOrder.last (s := .updateSnapshotHold r.account _) nofun ?_
      fun _ => hupdate held fun _ hl => Or.inl hl
    rintro v l ⟨⟩
    exact (hheld _).mpr rfl
  · refine inOrder_legs (fun _ => rfl) (fun _ => rfl) hsorted ((hheld _).mpr rfl) ?_
      fun held' _ hless => hupdate held' hless
    intro l k hl
    rw [(hheld l).mp hl]
    exact lockRank_snapshot_lt_entry _ k

theorem inOrder_store {id : Uuid} {row : TimeOffRequest} {version : PolicyVersion}
    {loaded : BalanceSnapshot} (hid : row.id = id) (hdecided : ¬ decided id)
    (hsorted : row.days.Pairwise (·.date < ·.date))
    (hheld : ∀ l, held l ↔ l = .snapshot row.account) :
    InOrder decided c (store row version loaded) held fun _ _ => True := by
  have hrow : ∀ r, Stmt.insertRequest row = .insertRequest r →
      r.days.Pairwise (·.date < ·.date) := by
    rintro r ⟨⟩
    exact hsorted
  have hneeds : ∀ v l, (Stmt.insertRequest row).needs v = some l → l = .request id := by
    intro v l hn
    simp only [Stmt.needs] at hn
    split at hn
    · cases hn
    · rw [← hid]
      exact (Option.some.inj hn).symm
  have hlast : ∀ held' : Lock → Prop, (∀ l, held' l ↔ l = .snapshot row.account) →
      MayTake (lockRank decided) held' (.request id) :=
    fun held' hheld' => Or.inr fun l hl =>
      lockRank_lt_request hdecided (Or.inl ⟨_, (hheld' l).mp hl⟩)
  unfold store
  split
  · -- the hold is written under a lock that is held already
    have hagain : MayTake (lockRank decided) held (.snapshot row.account) :=
      Or.inl ((hheld _).mpr rfl)
    refine Obeys.bind (InOrder.snapshot hagain fun snapshot held' hheld' => ?_)
    have hheld' : ∀ l, held' l ↔ l = .snapshot row.account := by
      intro l
      rw [hheld', hheld, or_self]
    have hhold : ∀ held'' : Lock → Prop, held'' (.snapshot row.account) → InOrder decided c (do
        Program.perform (Stmt.updateSnapshotHold row.account
          (snapshot.pendingHoldMinutes + row.totalMinutes))
        return row) held'' fun _ _ => True := by
      intro held'' hsnapshot
      refine InOrder.keeping (s := .updateSnapshotHold row.account _) nofun ?_
        fun _ _ _ _ => trivial
      rintro v l ⟨⟩
      exact hsnapshot
    refine InOrder.taking (s := .insertRequest row) hrow hneeds (hlast held' hheld')
      fun v r _ _ => ⟨fun _ => ?_, fun _ => ?_⟩
    · exact hhold _ (Or.inl ((hheld' _).mpr rfl))
    · exact hhold _ ((hheld' _).mpr rfl)
  · exact InOrder.taking (s := .insertRequest row) hrow hneeds (hlast held hheld)
      fun v r _ _ => ⟨fun _ => trivial, fun _ => trivial⟩

/-- And so does a submission. -/
theorem inOrder_submit {dir : Directory} {id : Uuid} {actorId reason : String}
    {fields : RequestFields} (hdecided : ¬ decided id) :
    InOrder decided c (submit dir id actorId reason fields) (fun _ => False) fun _ _ => True := by
  refine Obeys.bind (Obeys.of_reads (within_resolve reads_select dir fields)
    fun log r htraces hviews => ?_)
  have hsorted : r.days.Pairwise (·.date < ·.date) := by
    obtain ⟨v, hv, -, hres⟩ := resolve_traces htraces
    obtain ⟨employee, -, -, hdays⟩ := (hres fun x hx =>
      (hviews x hx).catalog.trans (hviews _ hv).catalog.symm).employee
    exact (mem_of_requestDays hdays).1
  refine Obeys.bind ?_
  unfold checkBalance
  refine Obeys.bind (InOrder.snapshot (Or.inr fun _ => False.elim) fun row held hheld => ?_)
  dsimp only
  split
  · trivial
  · refine inOrder_store rfl hdecided hsorted fun l => ?_
    rw [hheld, false_or]
    rfl

end RequestService

/-- A lookup takes no lock. -/
theorem Api.within_findRequest (id : Uuid) (companyId : String) :
    (findRequest id companyId).Within database.Reads := by
  refine (Tx.within_query (reads_select _)).bind fun found => ?_
  cases found <;> trivial

/-- A route follows every rank that has the requests it decides before, and those it
locks last after, the snapshots. -/
theorem Route.inOrder {decided : Uuid → Prop} {c : Catalog} {dir : Directory} (route : Route)
    (hdecides : ∀ id, route.Decides id → decided id)
    (hlast : ∀ id, route.LocksLast id → ¬ decided id) :
    InOrder decided c (route.program dir) (fun _ => False) fun _ _ => True := by
  have hfind : ∀ {id : Uuid} {companyId : String} {f : TimeOffRequest → Tx TimeOffRequest},
      (∀ r : TimeOffRequest, r.id = id → r.days.Pairwise (·.date < ·.date) →
        InOrder decided c (f r) (fun _ => False) fun _ _ => True) →
      InOrder decided c (Api.findRequest id companyId >>= f) (fun _ => False) fun _ _ => True := by
    intro id companyId f hf
    refine Obeys.bind (Obeys.of_reads (Api.within_findRequest id companyId)
      fun log r htraces hviews => ?_)
    obtain ⟨v, rfl, hfound, -⟩ := Api.findRequest_traces htraces
    obtain ⟨hr, hid⟩ := Table.find?_eq_some.mp hfound
    exact hf r hid ((hviews _ (List.mem_singleton.mpr rfl)).sorted r hr)
  have hlift : ∀ {α β : Type} {x : Except Error α} {f : α → Tx β},
      (∀ a, InOrder decided c (f a) (fun _ => False) fun _ _ => True) →
      InOrder decided c (Tx.lift x >>= f) (fun _ => False) fun _ _ => True := by
    intro α β x f hf
    cases x with
    | ok a => exact hf a
    | error e => trivial
  cases route with
  | submit actor id reason fields =>
    exact hlift fun _ => RequestService.inOrder_submit (hlast id rfl)
  | decide actor id approve note =>
    refine hlift fun _ => hfind fun r hid _ => ?_
    exact RequestService.inOrder_decide (hid ▸ hdecides id rfl)
  | cancel actor id today =>
    refine hfind fun r hid hsorted => hlift fun _ => ?_
    exact RequestService.inOrder_cancel (hid ▸ hlast id rfl) hsorted

/-! ## No circle without a conflict

A rank suits a route unless the route locks a request at the other end of the
rank. If no two routes that wait for each other treat a request differently, one
rank suits them all, and there is no circle. -/

/-- In a reachable state requests have their days in order. -/
theorem Reachable.orderly {dir : Directory} {db : Db} (h : Reachable dir db) :
    Orderly db.catalog db := by
  obtain ⟨l, hl⟩ := h
  refine ⟨rfl, hl.invariant (I := fun db => ∀ r ∈ db.requests.rows,
    r.days.Pairwise (·.date < ·.date)) (fun r hr => absurd hr List.not_mem_nil) ?_⟩
  intro t op u hsorted hstep s hs
  rcases (effect_of_step hstep).row_cases hs with hold | ⟨r, hr, w, rfl⟩ |
    ⟨id, actorId, reason, fields, r, hres, rfl⟩
  · exact hsorted s hold
  · exact hsorted r hr
  · obtain ⟨employee, -, -, hdays⟩ := hres.employee
    exact (mem_of_requestDays hdays).1

/-- One route decides a request that the other cancels, or stores. -/
def Route.Opposes (r r' : Route) : Prop := ∃ id, r.Decides id ∧ r'.LocksLast id

/-- The ranks that suit a route. -/
def Route.Suits (route : Route) (rank : Lock → Nat ×ₗ Int) : Prop :=
  ∃ decided, rank = lockRank decided ∧ (∀ id, route.Decides id → decided id) ∧
    ∀ id, route.LocksLast id → ¬ decided id

/-- Every route has a rank that suits it. -/
theorem Route.suits_self (route : Route) : ∃ rank, route.Suits rank := by
  refine ⟨_, fun id => route.Decides id, rfl, fun _ h => h, fun id hlast hdecides => ?_⟩
  cases route with
  | submit | cancel => exact hdecides
  | decide => exact hlast

section circles

variable {ι : Type} {dir : Directory} {routes : ι → Route} {c : TxConfig TimeOffRequest ι}

/-- One rank suits all that a transaction waits for, when none opposes another. -/
theorem exists_suits {i : ι} (h : ∀ j k, Relation.TransGen (c.Waits database) i j →
      Relation.TransGen (c.Waits database) i k → ¬ (routes j).Opposes (routes k)) :
    ∃ rank, ∀ k, Relation.TransGen (c.Waits database) i k → (routes k).Suits rank := by
  refine ⟨_, fun k hk => ⟨fun id => ∃ j, Relation.TransGen (c.Waits database) i j ∧
    (routes j).Decides id, rfl, fun id hdecides => ⟨k, hk, hdecides⟩, ?_⟩⟩
  rintro id hlast ⟨j, hj, hdecides⟩
  exact h j k hj hk ⟨id, hdecides, hlast⟩

/-- In every interleaving, transactions follow the ranks that suit them. -/
theorem Interleaved.disciplined [DecidableEq ι] {d₀ : Db}
    {l : List (TxConfig TimeOffRequest ι × Event ι × TxConfig TimeOffRequest ι)}
    (hd₀ : Orderly d₀.catalog d₀)
    (h : Interleaved database (fun i => (routes i).program dir) d₀ l c) :
    Disciplined database (fun i => (routes i).Suits) (Orderly d₀.catalog) c := by
  refine h.invariant (.initial hd₀) fun hc hstep => ?_
  refine hc.step (fun i => (routes i).suits_self) (fun i rank hsuits => ?_) hstep
  obtain ⟨decided, rfl, hdecides, hlast⟩ := hsuits
  exact (routes i).inOrder hdecides hlast

end circles

/-- **Deadlocks need a conflict**: from any state that operations lead to, in every
interleaving of submissions, decisions and cancellations, a transaction waits
for itself, directly or through others, only if among those it waits for one
decides a request that another cancels or stores. Otherwise it can move, or one
it waits for can. -/
theorem deadlock_conflicts {ι : Type} [DecidableEq ι] [Finite ι] {dir : Directory}
    {ops : List Op} {routes : ι → Route} {c : TxConfig TimeOffRequest ι}
    {l : List (TxConfig TimeOffRequest ι × Event ι × TxConfig TimeOffRequest ι)}
    (h : Interleaved database (fun i => (routes i).program dir)
      (ops.foldl (Op.tried dir) .empty) l c) (i : ι) :
    (∃ j k, Relation.TransGen (c.Waits database) i j ∧ Relation.TransGen (c.Waits database) i k ∧
      (routes j).Opposes (routes k)) ∨
    (¬ Relation.TransGen (c.Waits database) i i ∧
      ∀ s, c.sessions i = some s → ∃ j, Relation.ReflTransGen (c.Waits database) i j ∧
        ∃ c', c.fire database (fun i => (routes i).program dir) (.next j) = some c') := by
  have hd := Interleaved.disciplined (reachable_tried ⟨[], .nil⟩ : Reachable dir _).orderly h
  refine or_iff_not_imp_left.mpr fun hnone => ?_
  obtain ⟨rank, hsuits⟩ := exists_suits fun j k hj hk hopposes => hnone ⟨j, k, hj, hk, hopposes⟩
  exact ⟨hd.not_circular hsuits, fun s hs => hd.exists_move _ hs hsuits⟩

namespace Demo

/-- Ada asks for two days off. -/
def twoDaysOff (second : Bool) : Route :=
  .submit admin (if second then otherRequestId else requestId) "Time off"
    { employeeId := "emp_ada", categoryId := categoryId
      startDate := if second then ofYmd 2026 3 3 else ofYmd 2026 3 2
      endDate := if second then ofYmd 2026 3 3 else ofYmd 2026 3 2 }

/-- She has earned one. -/
def oneDayEarned : List Op :=
  monthlyDay none ++ [.runScheduled "cmp_warp_demo" (ofYmd 2026 1 31)]

end Demo

/-- The second submission waits for the snapshot that the first has locked, and
the first can move. -/
theorem two_days_off_move :
    ∃ (c : TxConfig TimeOffRequest Bool) (s : TxSession TimeOffRequest),
      c.sessions true = some s ∧
      c.fire database (fun i => (Demo.twoDaysOff i).program Demo.directory) (.next true) = none ∧
      ¬ Relation.TransGen (c.Waits database) true true ∧
      ∃ j, Relation.ReflTransGen (c.Waits database) true j ∧ ∃ c',
        c.fire database (fun i => (Demo.twoDaysOff i).program Demo.directory) (.next j)
          = some c' := by
  have hrun : ((Config.schedule database
      (fun i => (Demo.twoDaysOff i).program Demo.directory) (fun _ _ => True)
      ([.start false, .start true] ++ List.replicate 5 (.next false) ++
        List.replicate 4 (.next true))
      (Config.initial (Demo.oneDayEarned.foldl (Op.tried Demo.directory) .empty))).any fun c =>
        (c.sessions true).isSome ∧
        (c.fire database (fun i => (Demo.twoDaysOff i).program Demo.directory)
          (.next true)).isNone) = true := by
    decide +kernel
  obtain ⟨c, hc, hend⟩ := (Option.any_eq_true _ _).mp hrun
  obtain ⟨hsome, hblocked⟩ := of_decide_eq_true hend
  obtain ⟨s, hs⟩ := Option.isSome_iff_exists.mp hsome
  obtain ⟨l, hl, -⟩ := Config.trail_of_schedule hc
  rcases deadlock_conflicts hl true with ⟨j, k, -, -, id, hdecides, -⟩ | ⟨hnot, hmoves⟩
  · cases j <;> cases hdecides
  · exact ⟨c, s, hs, Option.isNone_iff_eq_none.mp hblocked, hnot, hmoves s hs⟩

/-! ## A decision against a cancellation

The conflict that is left: a decision locks the request and goes on to the
snapshot, a cancellation locks the snapshot and goes on to the request. The run
is built step by step, each transaction up to the lock it needs. -/

/-- Every request's account has a snapshot. -/
def RequestsHeld (db : Db) : Prop := ∀ r ∈ db.requests.rows, db.snapshots.Has r.account

/-- Snapshots are never deleted, and every request operation leaves one. -/
theorem RequestEffect.requestsHeld {db db' : Db} {op : Op} (h : RequestEffect db op db')
    (hheld : RequestsHeld db) : RequestsHeld db' := by
  have hensure : ∀ {a b : Account}, db.snapshots.Has b → (db.ensureSnapshot a).snapshots.Has b :=
    fun hb => Table.has_insertNew.mpr (Or.inl hb)
  intro s hs
  cases h with
  | other hrequests _ hsnapshots =>
    rw [hsnapshots]
    exact Db.has_posts (hheld s (hrequests ▸ hs))
  | @submit actor id reason fields row v =>
    rw [Db.afterSubmit_requests] at hs
    rcases Table.mem_insertNew hs with hold | ⟨rfl, -⟩
    · unfold Db.afterSubmit
      dsimp only
      split
      · exact Db.has_setHold.mpr (hensure (hheld s hold))
      · exact hensure (hheld s hold)
    · exact Db.has_afterSubmit
  | @decide actor approve note r v hr =>
    rw [Db.afterDecide_requests] at hs
    have hdebits : ∀ {b}, db.snapshots.Has b →
        ((db.ensureSnapshot r.account).afterDebits r approve v.kind).snapshots.Has b :=
      fun hb => Db.has_afterDebits (hensure hb)
    rcases Table.eq_or_mem_of_mem_modify hr hs with rfl | ⟨hold, -⟩
    · exact Db.has_afterDecide
    · unfold Db.afterDecide Db.release
      dsimp only
      split
      · exact Db.has_setHold.mpr (hdebits (hheld s hold))
      · exact hdebits (hheld s hold)
  | @cancel actor today r hr =>
    rw [Db.afterCancel_requests] at hs
    rcases Table.eq_or_mem_of_mem_modify hr hs with rfl | ⟨hold, -⟩
    · exact Db.has_afterCancel
    · unfold Db.afterCancel Db.release
      dsimp only
      split
      · exact Db.has_setHold.mpr (hensure (hheld s hold))
      · exact Db.has_posts (hensure (hheld s hold))

/-- So it is in every reachable state. -/
theorem Reachable.requestsHeld {dir : Directory} {db : Db} (h : Reachable dir db) :
    RequestsHeld db := by
  obtain ⟨l, hl⟩ := h
  exact hl.invariant (fun r hr => absurd hr List.not_mem_nil)
    fun hheld hstep => (effect_of_step hstep).onRequests.requestsHeld hheld

/-- A manager decides on a request and somebody cancels it. -/
def decideAndCancel (manager actor : Employee) (requestId : Uuid) (approve : Bool)
    (note : Option String) (today : Date) (second : Bool) : Route :=
  if second then .cancel actor requestId today else .decide manager requestId approve note

/-- The request is found. -/
theorem Api.run_findRequest_found {id : Uuid} {companyId : String} {db : Db} {r : TimeOffRequest}
    (h : db.requests.find? id = some r) (hcompany : r.companyId = companyId) :
    Tx.run (findRequest id companyId) db = .ok (r, db) := by
  have hquery : Query.run db (.request id companyId) = .ok (some r) := by
    simp only [Query.run, h, Option.filter, hcompany, decide_true, if_true]
  exact (Tx.run_query (q := .request id companyId) hquery).trans rfl

section crossed

variable {dir : Directory} {db : Db} {manager actor : Employee} {approve : Bool}
  {note : Option String} {today : Date} {r : TimeOffRequest} {row : BalanceSnapshot}

/-- An admin's decision, once the request is locked. -/
theorem decide_locks {ι : Type} [DecidableEq ι] {P : ι → Tx TimeOffRequest} {i : ι}
    {c : TxConfig TimeOffRequest ι} (hfind : db.requests.find? r.id = some r)
    (hpending : r.status = .PENDING) (hmanager : manager.companyId = r.companyId)
    (hadmin : manager.isAdmin = true)
    (h : c.Underway database i (Api.decide manager r.id approve note) db)
    (hfree : c.owner (.request r.id) = none) :
    ∃ c', Config.Advances database P i c c' ∧
      c'.Underway database i (RequestService.settle r approve manager.id note) db ∧
      c'.owner = fun l => if l = .request r.id then some i else c.owner l := by
  have hok : Api.requireAdmin manager = .ok () := if_pos hadmin
  rw [Api.decide_of_ok hok] at h
  obtain ⟨c₁, hrun₁, h₁, howner₁⟩ := h.reads (P := P) (Api.within_findRequest ..)
    (Api.run_findRequest_found hfind hmanager.symm)
  have hneeds : database.needs (.lockRequest r.id) db = some (.request r.id) :=
    if_pos (Table.has_iff.mpr ⟨r, hfind⟩)
  have hanswer : database.answer (.lockRequest r.id) db = .ok (some r) := congrArg Except.ok hfind
  obtain ⟨c₂, hrun₂, h₂, howner₂⟩ := Config.Underway.locked (P := P) h₁ hanswer hneeds
    (Or.inl ((congrFun howner₁ _).trans hfree))
  refine ⟨c₂, hrun₁.trans hrun₂, ?_, ?_⟩
  · have hrest : (if r.status ≠ .PENDING then
        .raise (.request "Only a pending request can be decided.")
      else RequestService.settle r approve manager.id note : Tx TimeOffRequest)
        = RequestService.settle r approve manager.id note := if_neg (not_not.mpr hpending)
    rw [← hrest]
    exact h₂
  · rw [howner₂, howner₁]

/-- A cancellation, once the snapshot is locked and the hold released. -/
theorem cancel_locks {ι : Type} [DecidableEq ι] {P : ι → Tx TimeOffRequest} {i : ι}
    {c : TxConfig TimeOffRequest ι} (hfind : db.requests.find? r.id = some r)
    (hrow : db.snapshots.find? r.account = some row) (hpending : r.status = .PENDING)
    (htoday : today < r.startDate) (hactor : actor.companyId = r.companyId)
    (hself : Api.requireSelfOrAdmin dir r.employeeId actor = .ok ())
    (h : c.Underway database i (Api.cancel dir actor r.id today) db)
    (hfree : c.owner (.snapshot r.account) = none) :
    ∃ c' v, Config.Advances database P i c c' ∧
      c'.Underway database i (do
        Program.perform (Stmt.updateRequest r.id (RequestService.cancellation .PENDING actor.id))
        return r.update (RequestService.cancellation .PENDING actor.id)) v ∧
      c'.owner = fun l => if l = .snapshot r.account then some i else c.owner l := by
  obtain ⟨c₁, hrun₁, h₁, howner₁⟩ := h.reads (P := P) (Api.within_findRequest ..)
    (Api.run_findRequest_found hfind hactor.symm)
  rw [hself] at h₁
  -- of a pending request only the hold is given back
  have hprogram : RequestService.cancel r actor.id today
      = (do
        let row ← RequestService.snapshot r.account true none
        Program.perform (Stmt.updateSnapshotHold r.account
          (row.pendingHoldMinutes - r.totalMinutes))
        Program.perform (Stmt.updateRequest r.id (RequestService.cancellation .PENDING actor.id))
        return r.update (RequestService.cancellation .PENDING actor.id)) := by
    unfold RequestService.cancel RequestService.giveBack
    rw [hpending, if_neg (by decide), if_neg (not_le.mpr htoday)]
    rfl
  have h₁ : c₁.Underway database i (RequestService.cancel r actor.id today) db := h₁
  rw [hprogram] at h₁
  have hneeds : database.needs (.lockSnapshot r.account) db = some (.snapshot r.account) :=
    if_pos (Table.has_iff.mpr ⟨row, hrow⟩)
  have hanswer : database.answer (.lockSnapshot r.account) db = .ok (some row) :=
    congrArg Except.ok hrow
  -- the snapshot is locked and its hold written; next is the row of the request
  obtain ⟨c₂, hrun₂, h₂, howner₂⟩ := Config.Underway.locked (P := P) h₁ hanswer hneeds
    (Or.inl ((congrFun howner₁ _).trans hfree))
  have howns : c₂.owner (.snapshot r.account) = some i := by
    rw [howner₂]
    exact if_pos rfl
  obtain ⟨c₃, hrun₃, h₃, howner₃⟩ := Config.Underway.locked (P := P) (r := ()) h₂ rfl rfl
    (Or.inr howns)
  refine ⟨c₃, _, (hrun₁.trans hrun₂).trans hrun₃, h₃, ?_⟩
  rw [howner₃, howner₂, howner₁]
  funext l
  split
  · rfl
  · next hl => exact if_neg hl

end crossed

/-- **A decision and a cancellation can deadlock**: in every state that operations
lead to, for every pending request that has not begun, a decision that has
locked the request and wants the snapshot and a cancellation that has locked the
snapshot and wants the request wait for each other, and neither has a step until
one is dropped. -/
theorem decide_cancel_deadlock {dir : Directory} {ops : List Op} {manager actor : Employee}
    (approve : Bool) (note : Option String) {today : Date} {r : TimeOffRequest}
    (hr : r ∈ (ops.foldl (Op.tried dir) .empty).requests.rows) (hpending : r.status = .PENDING)
    (htoday : today < r.startDate) (hmanager : manager.companyId = r.companyId)
    (hadmin : manager.isAdmin = true) (hactor : actor.companyId = r.companyId)
    (hself : Api.requireSelfOrAdmin dir r.employeeId actor = .ok ()) :
    ∃ (l : List (TxConfig TimeOffRequest Bool × Event Bool × TxConfig TimeOffRequest Bool))
      (c : TxConfig TimeOffRequest Bool),
      Interleaved database
        (fun i => (decideAndCancel manager actor r.id approve note today i).program dir)
        (ops.foldl (Op.tried dir) .empty) l c ∧
      (c.owner (.request r.id) = some false ∧ c.Wants database false (.snapshot r.account)) ∧
      (c.owner (.snapshot r.account) = some true ∧ c.Wants database true (.request r.id)) ∧
      c.Waits database false true ∧ c.Waits database true false ∧
      ∀ i, c.fire database
        (fun i => (decideAndCancel manager actor r.id approve note today i).program dir)
        (.next i) = none := by
  have hheld : RequestsHeld (ops.foldl (Op.tried dir) .empty) :=
    (reachable_tried ⟨[], .nil⟩ : Reachable dir _).requestsHeld
  generalize ops.foldl (Op.tried dir) .empty = db at hr hheld ⊢
  have hfind : db.requests.find? r.id = some r := Table.find?_eq_some.mpr ⟨hr, rfl⟩
  obtain ⟨row, hrow⟩ := Table.has_iff.mp (hheld r hr)
  let P : Bool → Tx TimeOffRequest :=
    fun i => (decideAndCancel manager actor r.id approve note today i).program dir
  obtain ⟨c₁, hrun₁, hdecide, howner₁⟩ := Config.Advances.start (M := database) (P := P)
    (i := false) (c := Config.initial db) rfl rfl
  obtain ⟨c₂, hrun₂, hcancel, howner₂⟩ := Config.Advances.start (M := database) (P := P)
    (i := true) ((hrun₁.others true (by decide)).trans rfl) hrun₁.store
  have howner₂ : c₂.owner = fun _ => none := howner₂.trans howner₁
  -- the decision locks the request, the cancellation the snapshot
  obtain ⟨c₃, hrun₃, hdecide, howner₃⟩ := decide_locks (P := P) (i := false) hfind hpending
    hmanager hadmin (hrun₂.underway (by decide) hdecide) (congrFun howner₂ _)
  have hfree : c₃.owner (.snapshot r.account) = none := by
    rw [howner₃, howner₂]
    exact if_neg nofun
  obtain ⟨c₄, v, hrun₄, hcancel, howner₄⟩ := cancel_locks (P := P) (i := true) hfind hrow hpending
    htoday hactor hself (hrun₃.underway (by decide) hcancel) hfree
  obtain ⟨c₅, hrun₅, hdecide, howner₅⟩ := Config.Underway.reads (P := P)
    (hrun₄.underway (by decide) hdecide)
    (RequestService.within_frozenVersion (fun _ _ => reads_select _) (fun _ => reads_select _) r)
    (RequestService.run_frozenVersion r db)
  have hsnapshot : c₅.owner (.snapshot r.account) = some true := by
    rw [howner₅, howner₄]
    exact if_pos rfl
  have hrequest : c₅.owner (.request r.id) = some false := by
    rw [howner₅, howner₄, howner₃]
    exact (if_neg nofun).trans (if_pos rfl)
  have hneeds : database.needs (.lockSnapshot r.account) db = some (.snapshot r.account) :=
    if_pos (Table.has_iff.mpr ⟨row, hrow⟩)
  have hwants : c₅.Wants database false (.snapshot r.account) := hdecide.wants hneeds
  have hwants' : c₅.Wants database true (.request r.id) :=
    (hrun₅.underway (by decide) hcancel).wants rfl
  have hfirst : c₅.Waits database false true := ⟨by decide, _, hwants, hsnapshot⟩
  have hsecond : c₅.Waits database true false := ⟨by decide, _, hwants', hrequest⟩
  obtain ⟨l₁, hl₁⟩ := hrun₁.run
  obtain ⟨l₂, hl₂⟩ := hrun₂.run
  obtain ⟨l₃, hl₃⟩ := hrun₃.run
  obtain ⟨l₄, hl₄⟩ := hrun₄.run
  obtain ⟨l₅, hl₅⟩ := hrun₅.run
  refine ⟨_, c₅, (((hl₁.append hl₂).append hl₃).append hl₄).append hl₅, ⟨hrequest, hwants⟩,
    ⟨hsnapshot, hwants'⟩, hfirst, hsecond, ?_⟩
  intro i
  cases i with
  | false => exact hfirst.blocked
  | true => exact hsecond.blocked

/-- The admin approves Ada's day off while it is cancelled. -/
theorem day_off_deadlock :
    ∃ (db : Db) (r : TimeOffRequest) (c : TxConfig TimeOffRequest Bool), r ∈ db.requests.rows ∧
      (c.owner (.request r.id) = some false ∧ c.Wants database false (.snapshot r.account)) ∧
      (c.owner (.snapshot r.account) = some true ∧ c.Wants database true (.request r.id)) ∧
      c.Waits database false true ∧ c.Waits database true false := by
  have hrun : (((Demo.oneDayEarned ++ [Demo.dayOff Demo.requestId (ofYmd 2026 3 2)]).foldl
      (Op.tried Demo.directory) .empty).requests.rows.any fun r =>
      r.status = .PENDING ∧ ofYmd 2026 2 1 < r.startDate ∧ Demo.admin.companyId = r.companyId ∧
      (Api.requireSelfOrAdmin Demo.directory r.employeeId Demo.admin).passes fun _ => true)
        = true := by
    decide +kernel
  obtain ⟨r, hr, hpass⟩ := List.any_eq_true.mp hrun
  obtain ⟨hpending, htoday, hcompany, hself⟩ := of_decide_eq_true hpass
  obtain ⟨u, hself, -⟩ := Except.ok_of_passes hself
  obtain ⟨l, c, -, hrequest, hsnapshot, hfirst, hsecond, -⟩ :=
    decide_cancel_deadlock true none hr hpending htoday hcompany rfl hcompany hself
  exact ⟨_, r, c, hr, hrequest, hsnapshot, hfirst, hsecond⟩

end TimeOff
