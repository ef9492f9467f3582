import TimeOff.Concurrency.Audit
import TimeOff.Concurrency.Decisions
import TimeOff.Requests.Events

/-!
# The event log side by side

A cancellation can overwrite the status that a decision has just committed, for
it goes on with a row it loaded before. The event log loses nothing of this:
whatever jobs and routes run side by side, the log of each request grows by one
event for every committed route on it (**`events_complete_interleaved`**). An
event is a row of its own; all it needs is that its request is there, and
requests never go away. In which order a reader finds the events of transactions
that overlapped is left open: they are sorted by the times the transactions began.

- `Route.Writes` is the event of a route. That of a cancellation has the status of
  the row it loaded, and `Loads` says which row this is: the one that the
  transaction of this very commit found committed with its first statement;
- `Route.eventsOf_commit` reads the event off the log of a transaction that is done;
- `Accounts` is the invariant of the run, by induction on its steps: a commit of a
  route adds one event (`Accounts.route`), everything else none.
-/

namespace TimeOff

/-! ## The ids of requests -/

/-- The id of the request a statement stores. -/
def Stmt.storedId? : Stmt → Option Uuid
  | .insertRequest row => some row.id
  | _ => none

/-- A request that is new is stored under the lock of its id. -/
theorem request_keys :
    KeyLocks database (fun db => db.requests.Has) Stmt.storedId? Lock.request where
  has_apply {st d k} := by
    cases st with
    | insertRequest row =>
      refine Table.has_insertNew.trans (or_congr_right ?_)
      exact ⟨fun h => congrArg some h.symm, fun h => (Option.some.inj h).symm⟩
    | updateRequest id u =>
      have hid : ∀ r, (TimeOffRequest.update u r).id = r.id := fun _ => rfl
      have hmodify : (d.requests.modify id (TimeOffRequest.update u) hid).Has k
          ↔ d.requests.Has k := Table.has_modify
      exact hmodify.trans ⟨Or.inl, fun h => h.resolve_right (by simp [Stmt.storedId?])⟩
    | _ => simp [Stmt.storedId?, database, Stmt.apply, Stmt.upsertBalance, Stmt.setHold]
  needs {st v r k} hr hins hfree := by
    cases st with
    | insertRequest row =>
      cases hins
      exact if_neg hfree
    | _ => cases hins

/-! ## The event of a route

Each of the three routes ends with one write to one request, and the write has
the event in it. The request is there at the commit, since ids are never
deleted, and it is new if it was new to the insert. -/

/-- The event that a route which commits writes, and the request it is for. A
cancellation records the status of the row it has loaded. -/
def Route.Writes (Loaded : TimeOffRequest → Prop) (id : Uuid) (e : RequestEvent) : Route → Prop
  | .submit actor requestId _ _ => id = requestId ∧ e = ⟨none, .PENDING, actor.id, none⟩
  | .decide actor requestId approve note =>
    id = requestId ∧ e = (RequestService.decision approve actor.id note).event
  | .cancel actor requestId _ =>
    id = requestId ∧ ∃ row, Loaded row ∧ row.id = requestId ∧ row.status.LIVE = true ∧
      e = (RequestService.cancellation row.status actor.id).event

theorem Route.Writes.mono {Loaded Loaded' : TimeOffRequest → Prop} {id : Uuid} {e : RequestEvent}
    {r : Route} (h : r.Writes Loaded id e) (hle : ∀ row, Loaded row → Loaded' row) :
    r.Writes Loaded' id e := by
  cases r with
  | submit => exact h
  | decide => exact h
  | cancel actor requestId today =>
    obtain ⟨hid, row, hrow, hevent⟩ := h
    exact ⟨hid, row, hle row hrow, hevent⟩

/-- The first statement of the log found the row. -/
def LoadedFirst (log : List (Stmt × Db)) (row : TimeOffRequest) : Prop :=
  ∃ y rest, log = y :: rest ∧ y.2.requests.find? row.id = some row

section commits

variable {dir : Directory} {log pre post : List (Stmt × Db)} {st : Stmt} {db w : Db} {id : Uuid}
  {u : RequestUpdate} {a : TimeOffRequest} {Keeps : Lock → Db → Db → Prop}

/-- The last write of a log to a request. -/
theorem requests_replay (db : Db) (hpost : ∀ y ∈ post, y.1.writesRequest = false) :
    (Session.replay database (pre ++ (st, w) :: post) db).requests
      = (st.apply (Session.replay database pre db)).requests := by
  unfold Session.replay
  rw [List.foldl_append, List.foldl_cons]
  exact replay_requests hpost _

/-- An update that comes last adds its event. -/
theorem eventsOf_updated (hlog : log = pre ++ [(.updateRequest id u, w)])
    (hpre : ∀ y ∈ pre, y.1.writesRequest = false) (hhas : db.requests.Has id) (id' : Uuid) :
    (Session.replay database log db).eventsOf id'
      = db.eventsOf id' ++ if id = id' then [u.event] else [] := by
  obtain ⟨r, hr⟩ := Table.has_iff.mp hhas
  obtain ⟨-, rfl⟩ := Table.find?_eq_some.mp hr
  refine eventsOf_modify hr ?_
  rw [hlog, requests_replay db fun y hy => absurd hy List.not_mem_nil]
  show (Session.replay database pre db).requests.modify r.id (TimeOffRequest.update u)
    (fun _ => rfl) = _
  rw [replay_requests hpre]

/-- The request that a transaction found first is still there. -/
theorem has_of_found (hseen : Seen database Keeps (KeysGrow fun db => db.requests.Has)
    ((st, w) :: log) db) (hfound : w.requests.find? id = some a) : db.requests.Has id := by
  obtain ⟨d, rfl, hle, -⟩ := hseen [] st w log rfl
  exact hle id (Table.has_iff.mpr ⟨a, hfound⟩)

/-- A route that commits adds one event to the log of one request. -/
theorem Route.eventsOf_commit {r : Route} (h : (r.program dir).Traces database log a)
    (hseen : Seen database Keeps (KeysGrow fun db => db.requests.Has) log db)
    (hdecided : Decided database (fun db => db.requests.Has) Stmt.storedId? log db) :
    ∃ id e, r.Writes (LoadedFirst log) id e ∧ ∀ id', (Session.replay database log db).eventsOf id'
      = db.eventsOf id' ++ if id = id' then [e] else [] := by
  cases r with
  | submit actor requestId reason fields =>
    obtain ⟨-, -, hsubmit⟩ := Tx.traces_lift.mp h
    obtain ⟨r, pre, w, post, rfl, hrow, hfree, hpre, hpost, -⟩ :=
      RequestService.submit_traces hsubmit
    refine ⟨requestId, _, ⟨rfl, rfl⟩, fun id' => ?_⟩
    have hid : a.id = requestId := congrArg TimeOffRequest.id hrow
    have hevents : a.events = [⟨none, .PENDING, actor.id, none⟩] :=
      congrArg TimeOffRequest.events hrow
    -- the id was free when the row was stored, and still is
    have hnew : ¬ db.requests.Has a.id := by
      have hsame : w.requests.Has a.id ↔ (Session.replay database pre db).requests.Has a.id :=
        hdecided pre _ w post a.id rfl rfl
      rw [replay_requests hpre] at hsame
      exact mt hsame.mpr hfree
    rw [← hid, ← hevents]
    refine eventsOf_insertNew hnew ?_
    rw [requests_replay db hpost]
    show (Session.replay database pre db).requests.insertNew a = _
    rw [replay_requests hpre]
  | decide actor requestId approve note =>
    obtain ⟨-, -, hroute⟩ := Tx.traces_lift.mp h
    obtain ⟨log₁, row, log₂, rfl, hfind, hdecide⟩ := Program.traces_bind.mp hroute
    obtain ⟨v₀, rfl, hfound, -⟩ := Api.findRequest_traces hfind
    obtain ⟨-, hid⟩ := Table.find?_eq_some.mp hfound
    obtain ⟨r, v, mid, w, rfl, -, -, hmid⟩ := RequestService.decide_traces hdecide
    refine ⟨row.id, _, ⟨hid, rfl⟩, ?_⟩
    have hhas : db.requests.Has row.id := by
      rw [hid]
      exact has_of_found hseen hfound
    have hpre : ∀ y ∈ (Stmt.select (.request requestId actor.companyId), v₀) ::
        (.lockRequest row.id, v) :: mid, y.1.writesRequest = false :=
      List.forall_mem_cons.mpr ⟨rfl, List.forall_mem_cons.mpr ⟨rfl, hmid⟩⟩
    exact eventsOf_updated rfl hpre hhas
  | cancel actor requestId today =>
    obtain ⟨log₁, row, log₂, rfl, hfind, hroute⟩ := Program.traces_bind.mp h
    obtain ⟨v₀, rfl, hfound, -⟩ := Api.findRequest_traces hfind
    obtain ⟨-, hid⟩ := Table.find?_eq_some.mp hfound
    obtain ⟨-, -, hcancel⟩ := Tx.traces_lift.mp hroute
    have hlive : row.status.LIVE = true := by
      by_contra hdead
      unfold RequestService.cancel at hcancel
      rw [if_pos hdead] at hcancel
      exact absurd hcancel Program.not_traces_raise
    obtain ⟨pre, w, rfl, hpre⟩ := RequestService.cancel_traces hcancel
    refine ⟨row.id, _, ⟨hid, row, ⟨_, _, rfl, hid ▸ hfound⟩, hid, hlive, rfl⟩, ?_⟩
    have hhas : db.requests.Has row.id := by
      rw [hid]
      exact has_of_found hseen hfound
    have hpre : ∀ y ∈ (Stmt.select (.request requestId actor.companyId), v₀) :: pre,
        y.1.writesRequest = false := List.forall_mem_cons.mpr ⟨rfl, hpre⟩
    exact eventsOf_updated rfl hpre hhas

end commits

/-! ## Every interleaving

The event logs are accounted for by the committed transactions, each with the
event it wrote. A commit adds its own: to the log as it is then, since the
update appends to the committed row. The status in the event comes from the row
that the transaction loaded first. An index may be used again once its
transaction has ended, so `Loads` tells a commit by how many came before. -/

/-- The route of a job that is one. -/
def Job.route? : Job → Option Route
  | .route r => some r
  | _ => none

section interleaved

variable {ι : Type} {dir : Directory} {jobs : ι → Job} {d₀ db : Db} {c c' : TxConfig Unit ι}
  {e : Event ι} {i : ι}

/-- A run of the application's transactions. -/
abbrev TxRun (ι : Type) := List (TxConfig Unit ι × Event ι × TxConfig Unit ι)

/-- The committed transactions that are routes, in the order of their commits. -/
def committedRoutes (jobs : ι → Job) (commits : List ι) : List ι :=
  commits.filter fun i => (jobs i).route?.isSome

/-- In the run `l`, a transaction of `i` committed when `n` routes had, and had found
`row` committed with its first statement. -/
def Loads (jobs : ι → Job) (l : TxRun ι) (n : ℕ) (i : ι) (row : TimeOffRequest) : Prop :=
  ∃ before x after d, l = before ++ x :: after ∧ x.2.1 = .next i ∧
    x.2.2.commits = x.1.commits ++ [i] ∧ (committedRoutes jobs x.1.commits).length = n ∧
      FirstSaw before i d ∧ d.requests.find? row.id = some row

theorem Loads.append {l : TxRun ι} {n : ℕ} {row : TimeOffRequest} (h : Loads jobs l n i row)
    (l' : TxRun ι) : Loads jobs (l ++ l') n i row := by
  obtain ⟨before, x, after, d, rfl, hrest⟩ := h
  exact ⟨before, x, after ++ l', d, by rw [List.append_assoc, List.cons_append], hrest⟩

/-- Transactions that committed in the run `l`, each route with the event it wrote
at its commit, account for the event logs of `db`. -/
structure Accounts (jobs : ι → Job) (d₀ : Db) (l : TxRun ι) (commits : List ι)
    (es : List (ι × Uuid × RequestEvent)) (db : Db) : Prop where
  order : es.map (·.1) = committedRoutes jobs commits
  written : ∀ n y, es[n]? = some y →
    ∃ r, (jobs y.1).route? = some r ∧ r.Writes (Loads jobs l n y.1) y.2.1 y.2.2
  events : ∀ id, (db.eventsOf id).Perm
    (d₀.eventsOf id ++ (es.filter fun y => y.2.1 = id).map (·.2.2))

theorem accounts_initial : Accounts jobs d₀ [] [] [] d₀ :=
  ⟨rfl, nofun, fun _ => .of_eq (List.append_nil _).symm⟩

namespace Accounts

variable {l : TxRun ι} {commits : List ι} {es : List (ι × Uuid × RequestEvent)} {db' : Db}

/-- A longer run accounts for the same. -/
theorem append (h : Accounts jobs d₀ l commits es db) (l' : TxRun ι) :
    Accounts jobs d₀ (l ++ l') commits es db := by
  refine ⟨h.order, fun n y hy => ?_, h.events⟩
  obtain ⟨r, hr, hwrites⟩ := h.written n y hy
  exact ⟨r, hr, hwrites.mono fun row hrow => hrow.append l'⟩

/-- A job that is no route writes no event. -/
theorem job (h : Accounts jobs d₀ l commits es db) (hi : (jobs i).route? = none)
    (hdb : db'.requests = db.requests) : Accounts jobs d₀ l (commits ++ [i]) es db' := by
  refine ⟨?_, h.written, fun id => ?_⟩
  · rw [h.order, committedRoutes, committedRoutes, List.filter_append]
    simp [hi]
  · rw [eventsOf_congr hdb]
    exact h.events id

/-- A route writes one. -/
theorem route (h : Accounts jobs d₀ l commits es db) {r : Route} (hi : (jobs i).route? = some r)
    {id : Uuid} {event : RequestEvent}
    (hwrites : r.Writes (Loads jobs l (committedRoutes jobs commits).length i) id event)
    (hdb : ∀ id', db'.eventsOf id' = db.eventsOf id' ++ if id = id' then [event] else []) :
    Accounts jobs d₀ l (commits ++ [i]) (es ++ [(i, id, event)]) db' := by
  refine ⟨?_, fun n y hy => ?_, fun id' => ?_⟩
  · rw [List.map_append, h.order, committedRoutes, committedRoutes, List.filter_append]
    simp [hi]
  · have hlength : (committedRoutes jobs commits).length = es.length := by
      rw [← h.order, List.length_map]
    rcases lt_or_ge n es.length with hn | hn
    · rw [List.getElem?_append_left hn] at hy
      exact h.written n y hy
    · -- the new event is the last one
      rw [List.getElem?_append_right hn, List.getElem?_singleton] at hy
      split at hy
      · next hzero =>
        obtain rfl : n = es.length := by omega
        cases hy
        rw [← hlength]
        exact ⟨r, hi, hwrites⟩
      · cases hy
  · rw [hdb, List.filter_append, List.map_append, ← List.append_assoc]
    have hlast : ([(i, id, event)].filter fun y => y.2.1 = id').map (·.2.2)
        = if id = id' then [event] else [] := by
      by_cases hid : id = id' <;> simp [hid]
    rw [hlast]
    exact (h.events id').append_right _

end Accounts

/-- A job that is a route has the log of the route. -/
theorem route_traces {r : Route} {log : List (Stmt × Db)} {u : Unit} (hjob : jobs i = .route r)
    (h : ((jobs i).program dir).Traces database log u) :
    ∃ row, (r.program dir).Traces database log row := by
  rw [hjob] at h
  obtain ⟨log₁, row, log₂, rfl, h₁, h₂⟩ := Program.traces_bind.mp h
  obtain ⟨rfl, -⟩ := Program.traces_ret.mp h₂
  rw [List.append_nil]
  exact ⟨row, h₁⟩

variable [DecidableEq ι]

/-- A commit accounts for what it adds to the event logs. -/
theorem Accounts.fire {l : TxRun ι} {es : List (ι × Uuid × RequestEvent)}
    (hrun : Interleaved database (fun i => (jobs i).program dir) d₀ l c)
    (h : Accounts jobs d₀ l c.commits es c.db)
    (hf : c.fire database (fun i => (jobs i).program dir) e = some c') :
    ∃ es', Accounts jobs d₀ (l ++ [(c, e, c')]) c'.commits es' c'.db := by
  have htracked : Tracked database (fun _ _ _ => True) (KeysGrow fun db => db.requests.Has)
      (fun i => (jobs i).program dir) c :=
    hrun.invariant (tracked_initial d₀) fun ht hf => ht.step protects_true request_keys.grows hf
  have hlater := h.append [(c, e, c')]
  cases Config.fires_of_fire hf with
  | start => exact ⟨es, hlater⟩
  | statement => exact ⟨es, hlater⟩
  | drop => exact ⟨es, hlater⟩
  | @commit i s a hs hprog =>
    have htraces : ((jobs i).program dir).Traces database s.log a := htracked.traces hs hprog
    cases hi : (jobs i).route? with
    | none =>
      have hroute : ∀ r, jobs i ≠ .route r := by
        intro r hr
        rw [hr] at hi
        cases hi
      have hquiet := ((jobs i).jobLog hroute htraces).quiet
      exact ⟨es, hlater.job hi (replay_requests hquiet c.db)⟩
    | some r =>
      have hjob : jobs i = .route r := by
        cases hj : jobs i with
        | route r' =>
          rw [hj] at hi
          cases hi
          rfl
        | _ =>
          rw [hj] at hi
          cases hi
      obtain ⟨row, h₁⟩ := route_traces hjob htraces
      obtain ⟨id, event, hwrites, hevents⟩ := r.eventsOf_commit h₁ (htracked.seen hs)
        (decided_interleaved request_keys hrun hs)
      -- what the log found first, the run had committed
      have hloads :
          r.Writes (Loads jobs (l ++ [(c, .next i, c.committed database i s)])
            (committedRoutes jobs c.commits).length i) id event := by
        refine hwrites.mono fun row ⟨y, rest, hlog, hfound⟩ => ?_
        exact ⟨l, _, [], y.2, rfl, rfl, rfl, rfl, firstSaw_of_log hrun hs hlog, hfound⟩
      exact ⟨_, hlater.route hi hloads hevents⟩

/-- **No event is lost in any interleaving**: whatever jobs and routes run side by
side, the log of each request grows by exactly one event for every committed
route on it, with its actor, its note and the status it found; a cancellation
finds the status that its request had, committed, when it loaded it. -/
theorem events_complete_interleaved {l : TxRun ι}
    (h : Interleaved database (fun i => (jobs i).program dir) d₀ l c) :
    ∃ es, Accounts jobs d₀ l c.commits es c.db := by
  induction h with
  | nil => exact ⟨[], accounts_initial⟩
  | snoc hrun hf ih =>
    obtain ⟨es, haccounts⟩ := ih
    exact haccounts.fire hrun hf

end interleaved

/-- A cancellation that has loaded the request before the approval commits takes it
for pending: the log has the approval all the same. -/
theorem approval_kept :
    ∃ (l : TxRun Bool) (d₀ : Db) (c : TxConfig Unit Bool),
      Interleaved database
        (fun i => (Job.route (Demo.approveAndCancel i)).program Demo.directory) d₀ l c ∧
        ((c.db.eventsOf Demo.requestId).map fun e => (e.fromStatus, e.toStatus)).Perm
          [(none, .PENDING), (some .PENDING, .APPROVED), (some .PENDING, .CANCELLED)] ∧
        ∃ es, Accounts (fun i => .route (Demo.approveAndCancel i)) d₀ l [false, true] es c.db := by
  have hrun : (Op.runAll Demo.directory Demo.oneDayAsked .empty).passes (fun r =>
      (Config.schedule database
        (fun i => (Job.route (Demo.approveAndCancel i)).program Demo.directory) (fun _ _ => True)
        ([.start false, .start true, .next true] ++ List.replicate 10 (.next false) ++
          List.replicate 4 (.next true))
        (Config.initial r.2)).any fun c =>
          c.commits = [false, true] ∧
            ((c.db.eventsOf Demo.requestId).map fun e => (e.fromStatus, e.toStatus)).Perm
              [(none, .PENDING), (some .PENDING, .APPROVED), (some .PENDING, .CANCELLED)])
      = true := by
    decide +kernel
  obtain ⟨⟨l₀, d₀⟩, -, hpass⟩ := Except.ok_of_passes hrun
  obtain ⟨c, hc, hend⟩ := (Option.any_eq_true _ _).mp hpass
  obtain ⟨hcommits, hevents⟩ := of_decide_eq_true hend
  obtain ⟨l, hl, -⟩ := Config.trail_of_schedule hc
  have haccounts := events_complete_interleaved hl
  rw [hcommits] at haccounts
  exact ⟨l, d₀, c, hl, hevents, haccounts⟩

end TimeOff
