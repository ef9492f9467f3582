import TimeOff.Concurrency.Routes

/-!
# Decisions of one request side by side

A decision locks the request before it reads it, and the snapshot after. A
cancellation goes on with the status its route has loaded before any lock, and
locks the snapshot first. Both hold both locks when they commit, so the locks
are critical in the sense of `serializable`; what is left to ask is that what a
cancellation loaded is still so when it locks the snapshot (`StatusCurrent`).
Then the committed database is at every moment that of the committed
transactions one after another (`decisions_serial`).

`serializable` is a theorem of the library about optimistic transactions: if
every statement of a program, answered at the time it is issued, would be
answered alike at the commit, then the program might as well have run at its
commit. What has to be shown of each route is `Optimistic`, statement by
statement. Under a lock of `locks` nothing that was read can change. Before the
locks, a route reads three things:

- the request itself, which a decision reads again under its lock, and a
  cancellation does not: here `StatusCurrent` comes in, and a row with the same
  status is the same row, since every update moves the status on (`Rely.same`);
- the version the request froze, which is never rewritten;
- the snapshot of the account, which may be missing and is then created by
  whoever inserts it first (`optimistic_snapshot`).
-/

namespace TimeOff

open Gregorian

/-! ## Locking a snapshot

Decisions and cancellations both lock the snapshot of the account, or insert it;
either way the key is locked from then on. What comes before may only read, and
what comes after runs alone. -/

section locking

variable {α : Type} {x : Account} {crit : List Lock} {f : BalanceSnapshot → Tx α}

/-- Whoever gets a snapshot holds its lock, whether the row was there or not. -/
theorem covers_snapshot {held : List Lock} {db : Db}
    (hf : ∀ row db' held', held ⊆ held' → Lock.snapshot x ∈ held' →
      Covers database crit (f row) held' db') :
    Covers database crit (RequestService.snapshot x true none >>= f) held db := by
  intro r hr
  have hrow : db.snapshots.find? x = r := Except.ok.inj hr
  cases r with
  | some row =>
    have hneeds : database.needs (.lockSnapshot x) db = some (.snapshot x) :=
      if_pos (Table.has_iff.mpr ⟨row, hrow⟩)
    rw [hneeds]
    exact hf row _ _ (fun l hl => List.mem_cons_of_mem _ hl) (List.mem_cons_self ..)
  | none =>
    intro balance hbalance u hu
    have hfree : ¬ db.snapshots.Has x := Table.find?_eq_none.mp hrow
    have hneeds : database.needs (.insertSnapshot ⟨x, balance, 0⟩) db = some (.snapshot x) :=
      if_neg hfree
    refine hf _ _ _ (fun l hl => ?_) ?_
    · exact List.mem_append_right _ (List.mem_append_right _ (List.mem_append_right _ hl))
    · refine List.mem_append_left _ (Option.mem_toList.mpr ?_)
      exact hneeds

/-- A transaction may read the balance of an account it finds without a snapshot:
nobody else has committed when it can still create the row. -/
theorem optimistic_snapshot {ok : TxSession α → Db → Prop} {D H : Db → Prop} {Rely : Db → Db → Prop}
    {Q : Tx α → Prop} {log : List (Stmt × Db)} (hcrit : Lock.snapshot x ∈ crit)
    (hrely : ∀ d d', Rely d d' → d = d' ∨ d'.snapshots.Has x)
    (hq : ∀ d, D d → H d → ok ⟨RequestService.snapshot x true none >>= f, log⟩ d →
      ∃ q, Q q ∧ q.exec database d = (RequestService.snapshot x true none >>= f).exec database d)
    (hcov : ∀ row d held, Lock.snapshot x ∈ held → Covers database crit (f row) held d) :
    Optimistic database crit ok D Rely Q H log (RequestService.snapshot x true none >>= f) := by
  intro d r hd hH hok hr
  obtain ⟨q, hQ, hexec⟩ := hq d hd hH hok
  have hrow : d.snapshots.find? x = r := Except.ok.inj hr
  cases r with
  | some row =>
    have hneeds : database.needs (.lockSnapshot x) d = some (.snapshot x) :=
      if_pos (Table.has_iff.mpr ⟨row, hrow⟩)
    constructor
    · intro l hl _
      rw [hneeds] at hl
      cases hl
      refine ⟨⟨q, hQ, hexec.trans (Program.exec_call_ok hr)⟩, ?_⟩
      exact hcov row _ _ (List.mem_singleton.mpr rfl)
    · intro hn
      exact absurd hcrit (hn _ hneeds)
  | none =>
    have hfree : ¬ d.snapshots.Has x := Table.find?_eq_none.mp hrow
    have hneeds : database.needs (.lockSnapshot x) d = none := if_neg hfree
    constructor
    · intro l hl
      rw [hneeds] at hl
      cases hl
    intro _
    refine ⟨fun _ => rfl, fun e balance _ he _ hbalance => ⟨fun l hl => (nomatch hl), fun _ => ?_⟩⟩
    refine ⟨fun _ => rfl, fun e' u _ he' _ hu => ?_⟩
    have hfree' : ¬ e'.snapshots.Has x := by
      intro hhas
      cases (if_pos hhas).symm.trans hu
    -- no commit has come between
    obtain rfl : d = e' := (hrely d e' he'.1.2).resolve_right hfree'
    obtain rfl : e = d := (hrely e d he'.2).resolve_right hfree'
    have hneeds' : database.needs (.insertSnapshot ⟨x, balance, 0⟩) e = some (.snapshot x) :=
      if_neg hfree'
    constructor
    · intro l hl _
      rw [hneeds'] at hl
      cases hl
      refine ⟨⟨q, hQ, hexec.trans ?_⟩, hcov _ _ _ (List.mem_singleton.mpr rfl)⟩
      refine (Program.exec_call_ok hr).trans ((Program.exec_call_ok hbalance).trans ?_)
      exact Program.exec_call_ok hu
    · intro hn
      exact absurd hcrit (hn _ hneeds')

end locking

/-- A route first loads the request, as some commit has left it. -/
theorem optimistic_findRequest {α : Type} {crit : List Lock} {ok : TxSession α → Db → Prop}
    {D : Db → Prop} {Rely : Db → Db → Prop} {Q : Tx α → Prop} {id : Uuid} {companyId : String}
    {f : TimeOffRequest → Tx α}
    (hf : ∀ v r, D v → v.requests.find? id = some r → r.companyId = companyId →
      Optimistic database crit ok D Rely Q
        (fun d => True ∧ ∀ x ∈ [(Stmt.select (.request id companyId), v)], Rely x.2 d)
        [(.select (.request id companyId), v)] (f r)) :
    Optimistic database crit ok D Rely Q (fun _ => True) []
      (Api.findRequest id companyId >>= f) := by
  refine Optimistic.bind_reads ?_ fun log row hlog hseen => ?_
  · refine (Tx.within_query (reads_select _)).bind fun found => ?_
    cases found <;> trivial
  obtain ⟨v, rfl, hv, hcompany⟩ := Api.findRequest_traces hlog
  exact hf v row (hseen _ (List.mem_singleton.mpr rfl)) hv hcompany

/-! ## One request

What others may do to a request while a transaction waits: it is settled at most
once, so its status moves in one direction, and everything else about it stays.
-/

namespace Stmt

/-- The statement locks the snapshot of an account. -/
def locksSnapshot : Stmt → Bool
  | .lockSnapshot _ => true
  | _ => false

/-- The statement loads the request without locking it. -/
def loads (requestId : Uuid) : Stmt → Bool
  | .select (.request id _) => id = requestId
  | _ => false

end Stmt

/-- When a transaction that has not locked the request goes for the snapshot, the
status it has loaded is still the committed one. -/
def StatusCurrent (requestId : Uuid) (s : TxSession TimeOffRequest) (db : Db) : Prop :=
  ∀ st ∈ s.prog.next?, st.locksSnapshot = true → (∀ y ∈ s.log, y.1 ≠ .lockRequest requestId) →
    ∀ y ∈ s.log, y.1.loads requestId = true →
      (y.2.requests.find? requestId).map (·.status) = (db.requests.find? requestId).map (·.status)

instance (requestId : Uuid) (s : TxSession TimeOffRequest) (db : Db) :
    Decidable (StatusCurrent requestId s db) :=
  inferInstanceAs (Decidable (∀ st ∈ s.prog.next?, _ → (∀ y ∈ s.log, _) → ∀ y ∈ s.log, _ → _))

/-- A decision or a cancellation of one request. -/
def Route.ActsOn (requestId : Uuid) : Route → Prop
  | .submit .. => False
  | .decide _ id _ _ => id = requestId
  | .cancel _ id _ => id = requestId

/-- A request as it is, or as updates have left it. -/
def TimeOffRequest.StemsFrom (r₀ r : TimeOffRequest) : Prop :=
  ∃ status decidedBy events,
    r = { r₀ with status := status, decidedBy := decidedBy, events := events }

namespace TimeOffRequest.StemsFrom

variable {r₀ r : TimeOffRequest}

theorem refl (r : TimeOffRequest) : r.StemsFrom r := ⟨r.status, r.decidedBy, r.events, rfl⟩

theorem update (h : r₀.StemsFrom r) (u : RequestUpdate) : r₀.StemsFrom (r.update u) := by
  obtain ⟨status, decidedBy, events, rfl⟩ := h
  exact ⟨_, _, _, rfl⟩

/-- What updates leave alone. -/
theorem account (h : r₀.StemsFrom r) : r.account = r₀.account := by
  obtain ⟨status, decidedBy, events, rfl⟩ := h
  rfl

theorem companyId (h : r₀.StemsFrom r) : r.companyId = r₀.companyId := by
  obtain ⟨status, decidedBy, events, rfl⟩ := h
  rfl

end TimeOffRequest.StemsFrom

/-- How far a request has come: every update takes it further. -/
def RequestStatus.stage : RequestStatus → Nat
  | .PENDING => 0
  | .APPROVED => 1
  | .DENIED | .CANCELLED => 2

namespace Decisions

variable {dir : Directory} {requestId : Uuid} {r₀ : TimeOffRequest}

/-- The request is there, as updates have left it. -/
def Kept (requestId : Uuid) (r₀ : TimeOffRequest) (db : Db) : Prop :=
  ∃ r, db.requests.find? requestId = some r ∧ r₀.StemsFrom r

/-- The stage of the request in a database. -/
def stageOf (requestId : Uuid) (db : Db) : Nat :=
  ((db.requests.find? requestId).map (·.status.stage)).getD 0

/-- What commits of others can have done: the account has a snapshot now, and the
request has come further if it is not the same. -/
def Rely (x : Account) (requestId : Uuid) (d d' : Db) : Prop :=
  (d = d' ∨ d'.snapshots.Has x) ∧
    (d.requests.find? requestId = d'.requests.find? requestId ∨
      stageOf requestId d < stageOf requestId d')

theorem Rely.refl (x : Account) (d : Db) : Rely x requestId d d := ⟨Or.inl rfl, Or.inl rfl⟩

theorem Rely.trans {x : Account} {d e f : Db} (h : Rely x requestId d e)
    (h' : Rely x requestId e f) : Rely x requestId d f := by
  refine ⟨?_, ?_⟩
  · rcases h'.1 with rfl | hf
    · exact h.1
    · exact Or.inr hf
  · rcases h.2 with heq | hlt <;> rcases h'.2 with heq' | hlt'
    · exact Or.inl (heq.trans heq')
    · refine Or.inr ?_
      unfold stageOf at hlt' ⊢
      rwa [heq]
    · refine Or.inr ?_
      unfold stageOf at hlt ⊢
      rwa [← heq']
    · exact Or.inr (hlt.trans hlt')

/-- A route that updates the request keeps it and takes it further. -/
theorem kept_update {d d' : Db} {r : TimeOffRequest} {u : RequestUpdate}
    (hstem : r₀.StemsFrom r) (hfind : d.requests.find? requestId = some r)
    (hstage : r.status.stage < u.status.stage)
    (hrequests : d'.requests = d.requests.modify r.id (TimeOffRequest.update u) fun _ => rfl)
    (hhas : d'.snapshots.Has r.account) :
    Kept requestId r₀ d' ∧ Rely r₀.account requestId d d' := by
  obtain ⟨-, rfl⟩ := Table.find?_eq_some.mp hfind
  have hfind' : d'.requests.find? r.id = some (r.update u) := by
    rw [hrequests]
    exact Table.find?_modify_self hfind
  refine ⟨⟨_, hfind', hstem.update u⟩, Or.inr (hstem.account ▸ hhas), Or.inr ?_⟩
  unfold stageOf
  rw [hfind, hfind']
  exact hstage

/-- A route on the request, run alone, keeps it and takes it further. -/
theorem kept_route {route : Route} (hroute : route.ActsOn requestId) {d d' : Db}
    {a : TimeOffRequest} (hkept : Kept requestId r₀ d)
    (h : (route.program dir).exec database d = .ok (a, d')) :
    Kept requestId r₀ d' ∧ Rely r₀.account requestId d d' := by
  obtain ⟨r₁, hfind₁, hstem⟩ := hkept
  cases route with
  | submit => cases hroute
  | decide actor id approve note =>
    cases hroute
    obtain ⟨r, v, hfind, hpending, -, -, rfl⟩ :=
      RequestService.decide_cases (Api.decide_cases h)
    obtain rfl := Option.mem_unique hfind hfind₁
    refine kept_update hstem hfind ?_ Db.afterDecide_requests Db.has_afterDecide
    rw [hpending]
    cases approve with
    | true => exact Nat.zero_lt_one
    | false => exact Nat.zero_lt_two
  | cancel actor id today =>
    cases hroute
    obtain ⟨r, hfind, hcancel⟩ := Api.cancel_cases h
    obtain rfl := Option.mem_unique hfind hfind₁
    obtain ⟨hlive, -, rfl⟩ := RequestService.cancel_cases hcancel
    refine kept_update hstem hfind ?_ Db.afterCancel_requests Db.has_afterCancel
    show r.status.stage < RequestStatus.CANCELLED.stage
    revert hlive
    cases r.status <;> decide

/-! ### The routes run alone, with the request at hand -/

/-- The route finds the request of its company. -/
theorem run_request {companyId : String} {d : Db} {r : TimeOffRequest}
    (hfind : d.requests.find? requestId = some r) (hcompany : r.companyId = companyId) :
    (Query.request requestId companyId).run d = .ok (some r) := by
  show Except.ok ((d.requests.find? requestId).filter _) = _
  rw [hfind, Option.filter_some, if_pos (decide_eq_true hcompany)]

/-- So a decision is the decision of the service. -/
theorem run_decide {actor : Employee} {approve : Bool} {note : Option String} {d : Db}
    {r : TimeOffRequest} (hadmin : Api.requireAdmin actor = .ok ())
    (hfind : d.requests.find? requestId = some r) (hcompany : r.companyId = actor.companyId) :
    (Api.decide actor requestId approve note).exec database d
      = (RequestService.decide requestId approve actor.id note).exec database d := by
  obtain ⟨-, rfl⟩ := Table.find?_eq_some.mp hfind
  unfold Api.decide
  rw [hadmin]
  exact Tx.run_query (q := .request r.id actor.companyId) (run_request hfind hcompany)

theorem run_cancel {actor : Employee} {today : Date} {d : Db} {r : TimeOffRequest}
    (hfind : d.requests.find? requestId = some r) (hcompany : r.companyId = actor.companyId)
    (hself : Api.requireSelfOrAdmin dir r.employeeId actor = .ok ()) :
    (Api.cancel dir actor requestId today).exec database d
      = (RequestService.cancel r actor.id today).exec database d := by
  unfold Api.cancel
  refine (Tx.run_query (q := .request requestId actor.companyId)
    (run_request hfind hcompany)).trans ?_
  show (Tx.lift (Api.requireSelfOrAdmin dir r.employeeId actor) >>= fun _ =>
    RequestService.cancel r actor.id today).exec database d = _
  rw [hself]
  rfl

/-! ### The routes beside others -/

/-- The locks every decision and cancellation of the request ends up with. -/
abbrev locks (requestId : Uuid) (x : Account) : List Lock := [.request requestId, .snapshot x]

variable {ok : TxSession TimeOffRequest → Db → Prop}

/-- From its lock on the request a decision takes both locks. -/
theorem covers_settle {approve : Bool} {actorId : String} {note : Option String} {d : Db}
    {r : TimeOffRequest} (haccount : r.account = r₀.account) :
    Covers database (locks requestId r₀.account) (RequestService.settle r approve actorId note)
      [.request requestId] d := by
  refine Covers.bind fun found d₁ held₁ _ hheld₁ => ?_
  rw [haccount]
  refine covers_snapshot fun row d₂ held₂ hheld₂ hlock => Covers.of_all fun l hl => ?_
  rcases List.mem_cons.mp hl with rfl | hl
  · exact hheld₂ (hheld₁ (List.mem_singleton.mpr rfl))
  · rw [List.mem_singleton.mp hl]
    exact hlock

/-- A request that is found with the status it had is the same. -/
theorem Rely.same {x : Account} {d d' : Db} (h : Rely x requestId d d')
    (hstatus : (d.requests.find? requestId).map (·.status)
      = (d'.requests.find? requestId).map (·.status)) :
    d.requests.find? requestId = d'.requests.find? requestId := by
  refine h.2.resolve_right fun hlt => ?_
  have hstage := congrArg (Option.map RequestStatus.stage) hstatus
  rw [Option.map_map, Option.map_map] at hstage
  unfold stageOf at hlt
  exact absurd hlt (not_lt_of_ge (congrArg (·.getD 0) hstage).ge)

/-- A decision reads the request under its lock. -/
theorem optimistic_decide {actor : Employee} {approve : Bool} {note : Option String} :
    Optimistic database (locks requestId r₀.account) ok (Kept requestId r₀)
      (Rely r₀.account requestId) (fun q => q = Api.decide actor requestId approve note)
      (fun _ => True) [] (Api.decide actor requestId approve note) := by
  cases hadmin : Api.requireAdmin actor with
  | error e =>
    rw [Api.decide_of_error hadmin]
    trivial
  | ok u =>
  have hprogram : Api.decide actor requestId approve note = _ := Api.decide_of_ok hadmin
  generalize hq : Api.decide actor requestId approve note = q at hprogram
  rw [hprogram]
  refine optimistic_findRequest fun v row hkept hrow hcompany => ?_
  obtain ⟨r₁, hr₁, hstem₁⟩ := hkept
  obtain rfl := Option.mem_unique hr₁ hrow
  rw [(Table.find?_eq_some.mp hr₁).2]
  intro d found ⟨r, hr, hstem⟩ _ _ hfound
  have hfound' : d.requests.find? requestId = found := Except.ok.inj hfound
  have hneeds : database.needs (.lockRequest requestId) d = some (.request requestId) :=
    if_pos (Table.has_iff.mpr ⟨r, hr⟩)
  constructor
  · intro l hl _
    rw [hneeds] at hl
    cases hl
    refine ⟨⟨_, rfl, ?_⟩, ?_⟩
    · rw [← hprogram, ← hq]
      refine (run_decide hadmin hr ?_).trans (Program.exec_call_ok hfound)
      rw [hstem.companyId, ← hstem₁.companyId, hcompany]
    · obtain rfl : found = some r := hfound'.symm.trans hr
      show Covers database _ (if _ then _ else _) _ _
      split
      · trivial
      · exact covers_settle hstem.account
  · intro hn
    exact absurd (List.mem_cons_self ..) (hn _ hneeds)

/-- A cancellation whose status is current might have loaded it at the commit. -/
theorem optimistic_cancel {actor : Employee} {today : Date} :
    Optimistic database (locks requestId r₀.account) (StatusCurrent requestId) (Kept requestId r₀)
      (Rely r₀.account requestId) (fun q => q = Api.cancel dir actor requestId today)
      (fun _ => True) [] (Api.cancel dir actor requestId today) := by
  refine optimistic_findRequest fun v row hkept hrow hcompany => ?_
  obtain ⟨r₁, hr₁, hstem⟩ := hkept
  -- the loaded row is the request as it is kept
  obtain rfl := Option.mem_unique hr₁ hrow
  cases hself : Api.requireSelfOrAdmin dir r₁.employeeId actor with
  | error e => trivial
  | ok u =>
  show Optimistic _ _ _ _ _ _ _ _ (RequestService.cancel r₁ actor.id today)
  unfold RequestService.cancel
  split
  · trivial
  next hlive =>
  split
  · trivial
  next hstart =>
  rw [hstem.account]
  refine optimistic_snapshot (List.mem_cons_of_mem _ (List.mem_cons_self ..))
    (fun d d' h => h.1) (fun d hd hH hok => ⟨_, rfl, ?_⟩) fun row d held hheld => ?_
  · -- the status is current, so the request has not changed since it was loaded
    have hstatus : (v.requests.find? requestId).map (·.status)
        = (d.requests.find? requestId).map (·.status) := by
      refine hok (.lockSnapshot r₀.account) rfl rfl ?_
        (.select (.request requestId actor.companyId), v)
        (List.mem_singleton.mpr rfl) (decide_eq_true rfl)
      intro y hy
      rw [List.mem_singleton.mp hy]
      nofun
    have hrely : Rely r₀.account requestId v d := hH.2 _ (List.mem_singleton.mpr rfl)
    have hfind : d.requests.find? requestId = some r₁ := (hrely.same hstatus).symm.trans hr₁
    refine (run_cancel hfind hcompany hself).trans ?_
    unfold RequestService.cancel
    rw [if_neg hlive, if_neg hstart, hstem.account]
  · -- the request is locked when it is written
    refine Covers.bind fun _ d₁ held₁ _ hheld₁ => ?_
    intro u _
    refine Covers.of_all fun l hl => ?_
    rcases List.mem_cons.mp hl with rfl | hl
    · refine List.mem_append_left _ (Option.mem_toList.mpr ?_)
      show some (Lock.request _) = some _
      rw [(Table.find?_eq_some.mp hr₁).2]
    · rw [List.mem_singleton.mp hl]
      exact List.mem_append_right _ (hheld₁ hheld)

end Decisions

/-- In an interleaving of decisions and cancellations of one request, if every
cancellation finds the status it has loaded still current when it locks the
snapshot, the committed database is always that of the committed transactions
one after another. -/
theorem decisions_serial {ι : Type} [DecidableEq ι] {dir : Directory} {routes : ι → Route}
    {requestId : Uuid} {r₀ : TimeOffRequest} {d₀ : Db} {c : TxConfig TimeOffRequest ι}
    {l : List (TxConfig TimeOffRequest ι × Event ι × TxConfig TimeOffRequest ι)}
    (hroutes : ∀ i, (routes i).ActsOn requestId) (hr₀ : d₀.requests.find? requestId = some r₀)
    (h : Interleaved database (fun i => (routes i).program dir) d₀ l c)
    (hcurrent : ∀ y ∈ l, Meets (StatusCurrent requestId) y.1 y.2.1) :
    Serial database (fun i q => q = (routes i).program dir) d₀ c.commits c.db := by
  have hP : ∀ i, Optimistic database (Decisions.locks requestId r₀.account)
      (StatusCurrent requestId) (Decisions.Kept requestId r₀)
      (Decisions.Rely r₀.account requestId) (fun q => q = (routes i).program dir)
      (fun _ => True) [] ((routes i).program dir) := by
    intro i
    have hi := hroutes i
    cases hroute : routes i with
    | submit =>
      rw [hroute] at hi
      cases hi
    | decide actor id approve note =>
      rw [hroute] at hi
      cases hi
      exact Decisions.optimistic_decide
    | cancel actor id today =>
      rw [hroute] at hi
      cases hi
      exact Decisions.optimistic_cancel
  refine (serializable (Decisions.Rely.refl _) Decisions.Rely.trans ?_ hP ⟨r₀, hr₀, .refl r₀⟩ h
    hcurrent).2
  rintro i q a d d' hd rfl hexec
  exact Decisions.kept_route (hroutes i) hd hexec

/-! ## An approval and a cancellation

The run that is not serial: the cancellation reads the status before it has any
lock, and the approval commits in between. -/

namespace Demo

/-- The admin approves the request, and Ada's cancellation comes in. -/
def approveAndCancel (second : Bool) : Route :=
  if second then .cancel admin requestId (ofYmd 2026 2 1) else .decide admin requestId true none

/-- Ada has earned a day and asked for one. -/
def oneDayAsked : List Op :=
  monthlyDay none ++ [.runScheduled "cmp_warp_demo" (ofYmd 2026 1 31),
    dayOff requestId (ofYmd 2026 3 2)]

end Demo

/-- The cancellation loads the request while it is pending, and goes on when the
approval has committed: it releases the hold a second time, and the debit stays.
No order of the two does that. -/
theorem decisions_not_serial :
    ¬ ∀ (dir : Directory) (routes : Bool → Route) (requestId : Uuid) (r₀ : TimeOffRequest) (d₀ : Db)
      (l : List (TxConfig TimeOffRequest Bool × Event Bool × TxConfig TimeOffRequest Bool))
      (c : TxConfig TimeOffRequest Bool), (∀ i, (routes i).ActsOn requestId) →
        d₀.requests.find? requestId = some r₀ →
        (∃ v, d₀.catalog.version r₀.policyVersionId = some v ∧ v.kind = .ACCRUAL) →
        Interleaved database (fun i => (routes i).program dir) d₀ l c →
          ∃ order d, order.Perm c.commits ∧
            Serial database (fun i q => q = (routes i).program dir) d₀ order d ∧
            d.requests.find? requestId = c.db.requests.find? requestId ∧
            d.hold r₀.account = c.db.hold r₀.account ∧
            ∀ e, e ∈ r₀.debits ∨ e ∈ r₀.reversals →
              (e ∈ d.ledger.rows ↔ e ∈ c.db.ledger.rows) := by
  intro hclaim
  have hrun : (Op.runAll Demo.directory Demo.oneDayAsked .empty).passes (fun r =>
      (r.2.requests.find? Demo.requestId).any fun r₀ =>
        r₀.account = Demo.account ∧
        ((r.2.catalog.version r₀.policyVersionId).any fun v => v.kind = .ACCRUAL) ∧
        (∀ order ∈ [[false, true], [true, false]],
          ¬ (serially database (fun i => (Demo.approveAndCancel i).program Demo.directory) order
            r.2).passes fun d => d.hold Demo.account = -480) ∧
        (Config.schedule database
          (fun i => (Demo.approveAndCancel i).program Demo.directory) (fun _ _ => True)
          ([.start false, .start true, .next true] ++ List.replicate 10 (.next false) ++
            List.replicate 4 (.next true))
          (Config.initial r.2)).any fun c =>
            c.commits = [false, true] ∧ c.db.hold Demo.account = -480) = true := by
    decide +kernel
  -- a run of both to the end, and a serial run in either order
  obtain ⟨⟨l₀, d₀⟩, -, hpass⟩ := Except.ok_of_passes hrun
  obtain ⟨r₀, hr₀, hpass⟩ := (Option.any_eq_true _ _).mp hpass
  obtain ⟨haccount, hkind, horders, hschedule⟩ := of_decide_eq_true hpass
  obtain ⟨v, hv, hkind⟩ := (Option.any_eq_true _ _).mp hkind
  obtain ⟨c, hc, hend⟩ := (Option.any_eq_true _ _).mp hschedule
  obtain ⟨hcommits, hhold⟩ := of_decide_eq_true hend
  obtain ⟨l, hl, -⟩ := Config.trail_of_schedule hc
  obtain ⟨order, d, hperm, hserial, -, hsame, -⟩ := hclaim _ _ Demo.requestId r₀ d₀ l c
    (fun i => by cases i <;> rfl) hr₀ ⟨v, hv, of_decide_eq_true hkind⟩ hl
  rw [hcommits] at hperm
  -- the serial orders of two transactions
  have horder : order ∈ [[false, true], [true, false]] := by
    rcases order with - | ⟨a, - | ⟨b, - | ⟨b', rest⟩⟩⟩
    · cases hperm.length_eq
    · cases hperm.length_eq
    · revert hperm
      cases a <;> cases b <;> decide
    · have hlength := hperm.length_eq
      simp at hlength
  refine horders order horder ?_
  rw [serially_of_serial hserial]
  rw [haccount, hhold] at hsame
  exact decide_eq_true hsame

/-- A cancellation that loads the request when the approval has committed is the
second of the two. -/
theorem decisions_serial_in_turn :
    ∃ (d₀ : Db) (c : TxConfig TimeOffRequest Bool), c.commits = [false, true] ∧
      Serial database (fun i q => q = (Demo.approveAndCancel i).program Demo.directory) d₀
        c.commits c.db := by
  have hrun : (Op.runAll Demo.directory Demo.oneDayAsked .empty).passes (fun r =>
      (r.2.requests.find? Demo.requestId).isSome ∧
      (Config.schedule database
        (fun i => (Demo.approveAndCancel i).program Demo.directory)
        (Meets (StatusCurrent Demo.requestId))
        ([.start false, .start true] ++ List.replicate 10 (.next false) ++
          List.replicate 7 (.next true))
        (Config.initial r.2)).any fun c => c.commits = [false, true]) = true := by
    decide +kernel
  obtain ⟨⟨l₀, d₀⟩, -, hpass⟩ := Except.ok_of_passes hrun
  obtain ⟨hsome, hschedule⟩ := of_decide_eq_true hpass
  obtain ⟨r₀, hr₀⟩ := Option.isSome_iff_exists.mp hsome
  obtain ⟨c, hc, hcommits⟩ := (Option.any_eq_true _ _).mp hschedule
  obtain ⟨l, hl, hguard⟩ := Config.trail_of_schedule hc
  exact ⟨d₀, c, of_decide_eq_true hcommits,
    decisions_serial (fun i => by cases i <;> rfl) hr₀ hl hguard⟩

end TimeOff
