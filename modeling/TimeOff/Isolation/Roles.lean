import TimeOff.Isolation.Api
import TimeOff.Lib.Refinement
import TimeOff.Requests.Events

/-!
# Who may do what

Each route checks its actor before it writes: most of them ask for an admin, the
rest for the employee concerned or an admin of their company. What the checks
come to over whole runs of calls:

- **`events_authorized`**: the log of every request names, for every event, an
  actor of its company who may cause it;
- **`employees_guarded`**: what is stored about an employee only changes by
  calls of the employee or of an admin of their company.

A route runs operations in its actor's name, or as an admin (`run_of_route`),
and both theorems are about such operations. For the first, `Db.Authorized` is
an invariant of the steps: the new event of an operation is by its actor, whom
the check of the route has let through. For the second, a step is followed table
by table (`Db.KeepsEmployee`): an actor who is no admin writes rows about
themselves only (`keepsEmployee_of_step`), and an admin writes rows of their own
company, which is the frame that `Isolation.Operations` proves.
-/

namespace TimeOff

open Gregorian

/-! ## Operations and their actors

What a route does is done by its actor, and the checks of the route are about
that actor. -/

/-- The operation is the actor's: a request operation in their name, or anything
else of an admin. -/
def Op.By (actor : Employee) : Op → Prop
  | .submit a _ _ _ => a = actor
  | .decide a _ _ _ => a = actor
  | .cancel a _ _ => a = actor
  | .catalog _ | .runScheduled .. | .onPayrollProcessed .. | .rollover .. => actor.isAdmin = true

namespace Api

variable {dir : Directory} {actor : Employee} {s s' : State} {op : Op}

/-- What the checks of the routes establish. -/
theorem requireAdmin_ok {u : Unit} (h : requireAdmin actor = .ok u) : actor.isAdmin = true := by
  simp only [requireAdmin] at h
  split at h
  · next hadmin => exact hadmin
  · cases h

theorem requireSelfOrAdmin_self {employeeId : String} {u : Unit}
    (h : requireSelfOrAdmin dir employeeId actor = .ok u) :
    actor.isAdmin = true ∨ actor.id = employeeId := by
  simp only [requireSelfOrAdmin] at h
  split at h
  · cases h
  split at h
  · cases h
  split at h
  · cases h
  next hself =>
  by_cases hadmin : actor.isAdmin = true
  · exact Or.inl hadmin
  · by_contra hnot
    push Not at hnot
    exact hself ⟨Ne.symm hnot.2, hadmin⟩

/-- The actor of a call is in the directory. -/
theorem getActor_ok {actorId : String} (h : getActor dir actorId = .ok actor) :
    dir.employees.find? actorId = some actor := by
  simp only [getActor] at h
  split at h
  · next hfind =>
    cases h
    exact hfind
  · cases h

/-- A route that performs an operation runs it in the actor's name. -/
theorem run_of_perform (h : s.perform dir op = .ok s') (hby : op.By actor) :
    ∃ l, Run dir s.db l s'.db ∧ ∀ x ∈ l, x.2.1.By actor := by
  simp only [State.perform] at h
  cases hrun : op.run dir s.db with
  | error e =>
    rw [hrun] at h
    cases h
  | ok db =>
    rw [hrun] at h
    cases h
    exact ⟨[(s.db, op, db)], Trail.nil.snoc hrun,
      fun x hx => List.mem_singleton.mp hx ▸ hby⟩

/-- Two operations of one route. -/
theorem run_of_performs {op' : Op} {s'' : State} (h : s.perform dir op = .ok s')
    (h' : s'.perform dir op' = .ok s'') (hby : op.By actor) (hby' : op'.By actor) :
    ∃ l, Run dir s.db l s''.db ∧ ∀ x ∈ l, x.2.1.By actor := by
  obtain ⟨l, hl, hall⟩ := run_of_perform h hby
  obtain ⟨l', hl', hall'⟩ := run_of_perform h' hby'
  exact ⟨l ++ l', hl.append hl', List.forall_mem_append.mpr ⟨hall, hall'⟩⟩

/-- A route runs operations of its actor. -/
theorem run_of_route {dateToday : Date} {route : Route}
    (h : route.run dir actor dateToday s = .ok s') :
    ∃ l, Run dir s.db l s'.db ∧ ∀ x ∈ l, x.2.1.By actor := by
  cases route with
  | createPolicy policyId versionId name categoryId fields rules allEmployees groupIds newId =>
    obtain ⟨_, hadmin, h⟩ := Except.bind_eq_ok.mp h
    obtain ⟨s₁, hcreate, h⟩ := Except.bind_eq_ok.mp h
    exact run_of_performs hcreate h (requireAdmin_ok hadmin) (requireAdmin_ok hadmin)
  | updatePolicy policyId versionId name fields rules allEmployees groupIds newId =>
    obtain ⟨_, hadmin, h⟩ := Except.bind_eq_ok.mp h
    obtain ⟨_, -, h⟩ := Except.bind_eq_ok.mp h
    obtain ⟨s₁, hupdate, h⟩ := Except.bind_eq_ok.mp h
    cases allEmployees with
    | none =>
      cases h
      exact run_of_perform hupdate (requireAdmin_ok hadmin)
    | some allEmployees =>
      exact run_of_performs hupdate h (requireAdmin_ok hadmin) (requireAdmin_ok hadmin)
  | assign | endAssignment | replaceGroupMembers | deleteGroup | setPolicyAudience =>
    obtain ⟨_, hadmin, h⟩ := Except.bind_eq_ok.mp h
    obtain ⟨_, -, h⟩ := Except.bind_eq_ok.mp h
    exact run_of_perform h (requireAdmin_ok hadmin)
  | submit | approve | deny | cancel => exact run_of_perform h rfl
  | setClock currentDate =>
    obtain ⟨_, -, h⟩ := Except.bind_eq_ok.mp h
    cases h
    exact ⟨[], .nil, fun x hx => absurd hx List.not_mem_nil⟩
  | createCategory | addHoliday | syncHolidays | scheduled | payroll | rollover | runAccruals
  | runRollover | createGroup | setEmployeeGroup =>
    obtain ⟨_, hadmin, h⟩ := Except.bind_eq_ok.mp h
    exact run_of_perform h (requireAdmin_ok hadmin)

/-- The state after a call: what fails changes nothing. -/
def State.after (dir : Directory) : State → Call → State :=
  attempt fun call s => s.serve dir call

end Api

section allowed

variable {dir : Directory} {db db' : Db} {actor : Employee} {id : Uuid} {r : TimeOffRequest}

/-- Who submits a request is its employee or an admin of the company. -/
theorem submit_allowed {reason : String} {fields : RequestFields}
    (h : Step dir db (.submit actor id reason fields) db') :
    dir.employeeCompany fields.employeeId = some actor.companyId ∧
      (actor.isAdmin = true ∨ actor.id = fields.employeeId) := by
  obtain ⟨_, hrun⟩ := map_snd_eq_ok h
  obtain ⟨_, hself, -⟩ := Tx.run_lift_ok.mp hrun
  exact ⟨Api.requireSelfOrAdmin_ok hself, Api.requireSelfOrAdmin_self hself⟩

/-- Who decides one is an admin of its company. -/
theorem decide_allowed {approve : Bool} {note : Option String}
    (h : Step dir db (.decide actor id approve note) db') (hfind : db.requests.find? id = some r) :
    r.companyId = actor.companyId ∧ actor.isAdmin = true := by
  obtain ⟨_, hrun⟩ := map_snd_eq_ok h
  obtain ⟨_, hadmin, hroute⟩ := Tx.run_lift_ok.mp hrun
  obtain ⟨r', db₁, hr', -⟩ := Program.exec_bind_ok.mp hroute
  have hcompany := Api.findRequest_company hr'
  obtain rfl : r = r' := Option.some.inj (hfind.symm.trans (Api.findRequest_cases hr').1)
  exact ⟨hcompany, Api.requireAdmin_ok hadmin⟩

theorem cancel_allowed {today : Date} (h : Step dir db (.cancel actor id today) db')
    (hfind : db.requests.find? id = some r) :
    r.companyId = actor.companyId ∧ (actor.isAdmin = true ∨ actor.id = r.employeeId) := by
  obtain ⟨_, hrun⟩ := map_snd_eq_ok h
  obtain ⟨r', db₁, hr', hroute⟩ := Program.exec_bind_ok.mp hrun
  obtain ⟨_, hself, -⟩ := Tx.run_lift_ok.mp hroute
  have hcompany := Api.findRequest_company hr'
  obtain rfl : r = r' := Option.some.inj (hfind.symm.trans (Api.findRequest_cases hr').1)
  exact ⟨hcompany, Api.requireSelfOrAdmin_self hself⟩

end allowed

/-! ## The log names who was allowed to

Events are written by operations that went through, and an operation of a route
goes through after its checks only. Later operations add events and change none.
-/

/-- The actor of an event is of the request's company, and an admin unless the
event is the employee's own submission or cancellation. -/
def RequestEvent.Authorized (dir : Directory) (r : TimeOffRequest) (e : RequestEvent) : Prop :=
  ∃ actor ∈ dir.employees.find? e.actorId, actor.companyId = r.companyId ∧
    (actor.isAdmin = true ∨ ¬ e.Decides ∧ actor.id = r.employeeId)

/-- Every event of every request was authorized. -/
def Db.Authorized (dir : Directory) (db : Db) : Prop :=
  ∀ r ∈ db.requests.rows, ∀ e ∈ r.events, e.Authorized dir r

section authorized

variable {dir : Directory} {db db' : Db} {actor : Employee} {op : Op}

/-- A submission is charged to an assignment of the employee's company. -/
theorem RequestService.Resolves.company {fields : RequestFields} {r : RequestService.Resolved}
    (h : RequestService.Resolves dir fields db r) :
    dir.employeeCompany fields.employeeId = some r.assignment.companyId := by
  obtain ⟨employee, hfound, hassignment, -⟩ := h.employee
  obtain ⟨-, hfilter⟩ := List.mem_filter.mp (mem_of_scalarOneOrNone hassignment)
  obtain ⟨hcompany, -⟩ := of_decide_eq_true hfilter
  simp only [Directory.employee] at hfound
  split at hfound
  · next hfind =>
    cases hfound
    simp only [Directory.employeeCompany]
    rw [hfind, hcompany]
    rfl
  · cases hfound

/-- One more event by an allowed actor. -/
theorem TimeOffRequest.authorized_update {r : TimeOffRequest} {u : RequestUpdate}
    (h : ∀ e ∈ r.events, e.Authorized dir r) (hu : u.event.Authorized dir r) :
    ∀ e ∈ (r.update u).events, e.Authorized dir (r.update u) := by
  intro e he
  rcases List.mem_append.mp he with hold | hnew
  · exact h e hold
  · rw [List.mem_singleton.mp hnew]
    exact hu

/-- An operation adds an event of its actor, or none. -/
theorem Db.Authorized.step (h : db.Authorized dir)
    (hactor : dir.employees.find? actor.id = some actor)
    (hby : op.By actor) (hstep : Step dir db op db') : db'.Authorized dir := by
  intro s hs
  cases effect_of_step hstep with
  | catalog => exact h s hs
  | @submit a id reason fields r row hrow hres =>
    obtain rfl : a = actor := hby
    rw [Db.afterSubmit_requests] at hs
    rcases Table.mem_insertNew hs with hold | ⟨rfl, -⟩
    · exact h s hold
    obtain ⟨hcompany, hself⟩ := submit_allowed hstep
    -- the request is stored for the company of whoever may submit it
    have hsame : r.assignment.companyId = a.companyId :=
      Option.some.inj (hres.company.symm.trans hcompany)
    rw [hrow]
    intro e he
    rw [List.mem_singleton.mp he]
    refine ⟨a, hactor, hsame.symm, hself.imp_right fun hid => ⟨?_, hid⟩⟩
    show ¬ ((RequestStatus.PENDING = .APPROVED) ∨ (RequestStatus.PENDING = .DENIED))
    decide
  | @decide a id approve note r v hfind =>
    obtain rfl : a = actor := hby
    obtain ⟨hr, -⟩ := Table.find?_eq_some.mp hfind
    obtain ⟨hcompany, hadmin⟩ := decide_allowed hstep hfind
    rw [Db.afterDecide_requests] at hs
    rcases Table.eq_or_mem_of_mem_modify hr hs with rfl | ⟨hold, -⟩
    · -- a decision is by an admin of the company
      refine TimeOffRequest.authorized_update (h r hr) ⟨a, ?_, hcompany.symm, Or.inl hadmin⟩
      cases approve <;> exact hactor
    · exact h s hold
  | @cancel a id today r hfind =>
    obtain rfl : a = actor := hby
    obtain ⟨hr, -⟩ := Table.find?_eq_some.mp hfind
    obtain ⟨hcompany, hself⟩ := cancel_allowed hstep hfind
    rw [Db.afterCancel_requests] at hs
    rcases Table.eq_or_mem_of_mem_modify hr hs with rfl | ⟨hold, -⟩
    · refine TimeOffRequest.authorized_update (h r hr)
        ⟨a, hactor, hcompany.symm, hself.imp_right fun hid => ⟨?_, hid⟩⟩
      show ¬ ((RequestStatus.CANCELLED = .APPROVED) ∨ (RequestStatus.CANCELLED = .DENIED))
      decide
    · exact h s hold
  | runScheduled | onPayrollProcessed =>
    refine h s ?_
    rwa [show (Db.recordRun _ _).requests = _ from Db.postAccruals_requests] at hs
  | rollover =>
    refine h s ?_
    rwa [show (Db.recordRun _ _).requests = _ from Db.closeAccounts_requests ..] at hs

end authorized

namespace Api

/-- **Every event was authorized**: whatever calls come in, every event of every
request is by a known actor of the request's company; decisions are by admins,
submissions and cancellations by the employee or an admin. -/
theorem events_authorized (dir : Directory) (calls : List Call) :
    (calls.foldl (State.after dir) .empty).db.Authorized dir := by
  refine (attempts_rel (I := fun s : State => s.db.Authorized dir) (R := fun _ _ => True)
    (fun _ => trivial) (fun _ _ => trivial) (fun call _ s t hauth hserve => ⟨?_, trivial⟩)
    fun r hr => absurd hr List.not_mem_nil).1
  obtain ⟨actor, hactor, h⟩ := Except.bind_eq_ok.mp hserve
  have hactor := getActor_ok hactor
  obtain ⟨-, hid⟩ := Table.find?_eq_some.mp hactor
  obtain ⟨l, hl, hby⟩ := run_of_route h
  exact (hl.restrict (P := fun op => op.By actor) hby).invariant hauth
    fun hauth hstep => hauth.step (hid ▸ hactor) hstep.2 hstep.1

end Api

/-! ## What is stored about an employee

Table by table: a write about somebody else leaves the rows about the employee
as they are. Then by operation, and by the checks that come before it. -/

/-- The rows about the employee are the same in both states. -/
structure Db.KeepsEmployee (employeeId : String) (db db' : Db) : Prop where
  requests : others (·.employeeId ≠ employeeId) db'.requests.rows
    = others (·.employeeId ≠ employeeId) db.requests.rows
  ledger : others (·.employeeId ≠ employeeId) db'.ledger.rows
    = others (·.employeeId ≠ employeeId) db.ledger.rows
  snapshots : others (·.account.employeeId ≠ employeeId) db'.snapshots.rows
    = others (·.account.employeeId ≠ employeeId) db.snapshots.rows
  assignments : others (·.employeeId ≠ employeeId) db'.catalog.assignments.rows
    = others (·.employeeId ≠ employeeId) db.catalog.assignments.rows
  members : others (·.employeeId ≠ employeeId) db'.catalog.members.rows
    = others (·.employeeId ≠ employeeId) db.catalog.members.rows

namespace Db.KeepsEmployee

variable {db db' db'' : Db} {employeeId : String} {a : Account} {r : TimeOffRequest}

/-- Keeping the rows of an employee composes. -/
theorem refl (employeeId : String) (db : Db) : db.KeepsEmployee employeeId db :=
  ⟨rfl, rfl, rfl, rfl, rfl⟩

theorem trans (h : db.KeepsEmployee employeeId db') (h' : db'.KeepsEmployee employeeId db'') :
    db.KeepsEmployee employeeId db'' where
  requests := h'.requests.trans h.requests
  ledger := h'.ledger.trans h.ledger
  snapshots := h'.snapshots.trans h.snapshots
  assignments := h'.assignments.trans h.assignments
  members := h'.members.trans h.members

/-- Writes about other employees, table by table. -/
theorem insertSnapshot {s : BalanceSnapshot} (h : s.account.employeeId ≠ employeeId) :
    db.KeepsEmployee employeeId { db with snapshots := db.snapshots.insertNew s } :=
  { refl employeeId db with snapshots := Table.others_insertNew h }

theorem modifySnapshot {f : BalanceSnapshot → BalanceSnapshot}
    {hf : ∀ s, (f s).account = s.account} (h : a.employeeId ≠ employeeId) :
    db.KeepsEmployee employeeId { db with snapshots := db.snapshots.modify a f hf } := by
  refine { refl employeeId db with snapshots := ?_ }
  show others (·.account.employeeId ≠ employeeId) (db.snapshots.modify a f hf).rows = _
  refine Table.others_modify (fun s _ ha => ?_) fun s hs => ?_
  · rw [ha]
    exact h
  · rw [hf s]
    exact hs

theorem ensureSnapshot (h : a.employeeId ≠ employeeId) :
    db.KeepsEmployee employeeId (db.ensureSnapshot a) := insertSnapshot h

/-- Neither column of another employee's snapshot is one of theirs. -/
theorem setHold {hold : Int} (h : a.employeeId ≠ employeeId) :
    db.KeepsEmployee employeeId (Stmt.setHold db a hold) := modifySnapshot h

theorem upsertBalance {balance : Int} (h : a.employeeId ≠ employeeId) :
    db.KeepsEmployee employeeId (Stmt.upsertBalance db a balance) := by
  have hrow : db.KeepsEmployee employeeId
      { db with snapshots := db.snapshots.insertNew ⟨a, balance, 0⟩ } := insertSnapshot h
  exact hrow.trans (modifySnapshot h)

theorem insertRequest (h : r.employeeId ≠ employeeId) :
    db.KeepsEmployee employeeId { db with requests := db.requests.insertNew r } :=
  { refl employeeId db with requests := Table.others_insertNew h }

theorem setRequest {u : RequestUpdate} (hr : r ∈ db.requests.rows)
    (h : r.employeeId ≠ employeeId) : db.KeepsEmployee employeeId (Stmt.setRequest db r.id u) := by
  refine { refl employeeId db with requests := ?_ }
  show others (·.employeeId ≠ employeeId) (db.requests.modify r.id (TimeOffRequest.update u)
    fun _ => rfl).rows = _
  refine Table.others_modify (fun s hs hid => ?_) fun s hs => hs
  rw [Table.eq_of_key hs hr hid]
  exact h

/-- An entry is about the employee it names. -/
theorem post {e : LedgerEntry} (h : e.employeeId ≠ employeeId) :
    db.KeepsEmployee employeeId (db.post e) := by
  simp only [Db.post]
  split
  · exact refl employeeId db
  · have hentry : db.KeepsEmployee employeeId { db with ledger := db.ledger.insertNew e } :=
      { refl employeeId db with ledger := Table.others_insertNew h }
    exact hentry.trans (upsertBalance h)

theorem posts {es : List LedgerEntry} (h : ∀ e ∈ es, e.employeeId ≠ employeeId) :
    db.KeepsEmployee employeeId (db.posts es) := by
  induction es generalizing db with
  | nil => exact refl employeeId db
  | cons e es ih =>
    have hfirst : db.KeepsEmployee employeeId (db.post e) := post (h e (List.mem_cons_self ..))
    exact hfirst.trans (ih fun f hf => h f (List.mem_cons_of_mem _ hf))

/-- A submission is about its employee. -/
theorem afterSubmit {kind : PolicyKind} (h : r.employeeId ≠ employeeId) :
    db.KeepsEmployee employeeId (db.afterSubmit r kind) := by
  have hsnapshot : db.KeepsEmployee employeeId (db.ensureSnapshot r.account) := ensureSnapshot h
  have hstored := hsnapshot.trans (insertRequest h)
  simp only [Db.afterSubmit]
  split
  · exact hstored.trans (setHold h)
  · exact hstored

theorem afterCancel {u : RequestUpdate} (hr : r ∈ db.requests.rows)
    (h : r.employeeId ≠ employeeId) : db.KeepsEmployee employeeId (db.afterCancel r u) := by
  have hsnapshot : db.KeepsEmployee employeeId (db.ensureSnapshot r.account) := ensureSnapshot h
  simp only [Db.afterCancel]
  split
  · exact (hsnapshot.trans (setHold (a := r.account) h)).trans (setRequest hr h)
  · have hreversed :
        db.KeepsEmployee employeeId ((db.ensureSnapshot r.account).posts r.reversals) := by
      refine hsnapshot.trans (posts fun e he => ?_)
      obtain ⟨leg, -, rfl⟩ := List.mem_map.mp he
      exact h
    refine hreversed.trans (setRequest ?_ h)
    rw [posts_requests]
    exact hr

/-- The rows about an employee are rows of their company. -/
theorem of_keepsOthers {dir : Directory} {company : String} (href : db.References dir)
    (href' : db'.References dir) (hother : dir.employeeCompany employeeId ≠ some company)
    (h : db.KeepsOthers company db') : db.KeepsEmployee employeeId db' := by
  have hcompany : ∀ {id c}, dir.employeeCompany id = some c → ¬ id ≠ employeeId →
      ¬ c = company := by
    intro id c hc hid hsame
    rw [not_not.mp hid, hsame] at hc
    exact hother hc
  have hsnapshot : ∀ {db : Db}, db.References dir → ∀ s ∈ db.snapshots.rows,
      ¬ s.account.employeeId ≠ employeeId →
        ¬ db.catalog.policyCompany s.account.policyId = some company := by
    intro db href s hs hid hsame
    obtain ⟨c, hpolicy, hemployee⟩ := href.snapshots s hs
    exact hcompany hemployee hid (Option.some.inj (hpolicy.symm.trans hsame))
  exact {
    requests := others_mono (fun r hr => hcompany (href.requests r hr).1.2)
      (fun r hr => hcompany (href'.requests r hr).1.2) h.requests
    ledger := others_mono (fun e he => hcompany (href.ledger e he).2)
      (fun e he => hcompany (href'.ledger e he).2) h.ledger
    snapshots := others_mono (hsnapshot href) (hsnapshot href') h.snapshots
    assignments := others_mono (fun a ha => hcompany (href.catalog.assignments a ha).1.2)
      (fun a ha => hcompany (href'.catalog.assignments a ha).1.2) h.catalog.assignments
    members := others_mono (fun m hm => hcompany (href.catalog.members m hm).2)
      (fun m hm => hcompany (href'.catalog.members m hm).2) h.catalog.members }

end Db.KeepsEmployee

/-- The actor may change what is stored about the employee. -/
def Directory.MayChange (dir : Directory) (actorId employeeId : String) : Prop :=
  ∃ actor ∈ dir.employees.find? actorId, actor.id = employeeId ∨
    actor.isAdmin = true ∧ dir.employeeCompany employeeId = some actor.companyId

instance (dir : Directory) (actorId employeeId : String) :
    Decidable (dir.MayChange actorId employeeId) :=
  inferInstanceAs (Decidable (∃ actor ∈ dir.employees.find? actorId, _))

/-- What someone who is not an admin runs is about themselves. -/
theorem keepsEmployee_of_step {dir : Directory} {db db' : Db} {actor : Employee} {op : Op}
    {employeeId : String} (hadmin : ¬ actor.isAdmin = true) (hne : actor.id ≠ employeeId)
    (hby : op.By actor) (h : Step dir db op db') : db.KeepsEmployee employeeId db' := by
  cases op with
  | catalog | runScheduled | onPayrollProcessed | rollover => exact absurd hby hadmin
  | submit a id reason fields =>
    obtain rfl : a = actor := hby
    obtain ⟨-, hself⟩ := submit_allowed h
    have hemployee : a.id = fields.employeeId := hself.resolve_left hadmin
    cases effect_of_step h with
    | submit hrow =>
    rw [hrow]
    exact .afterSubmit fun heq => hne (hemployee.trans heq)
  | decide a id approve note =>
    obtain rfl : a = actor := hby
    cases effect_of_step h with
    | decide hfind => exact absurd (decide_allowed h hfind).2 hadmin
  | cancel a id today =>
    obtain rfl : a = actor := hby
    cases effect_of_step h with
    | cancel hfind =>
    have hemployee := (cancel_allowed h hfind).2.resolve_left hadmin
    exact .afterCancel (Table.find?_eq_some.mp hfind).1 fun heq => hne (hemployee.trans heq)

namespace Api

variable {dir : Directory} {s s' : State}

/-- Calls keep references within companies. -/
theorem references_of_serve {call : Call} (href : s.db.References dir)
    (h : s.serve dir call = .ok s') : s'.db.References dir := by
  obtain ⟨actor, -, hchange⟩ := change_of_call href h
  exact hchange.references

/-- A call of someone who may not change what is stored about an employee. -/
theorem keepsEmployee_of_serve {call : Call} {employeeId : String} (href : s.db.References dir)
    (hnot : ¬ dir.MayChange call.actorId employeeId) (h : s.serve dir call = .ok s') :
    s.db.KeepsEmployee employeeId s'.db := by
  obtain ⟨actor, hfound, hchange⟩ := change_of_call href h
  obtain ⟨actor', hactor, hroute⟩ := Except.bind_eq_ok.mp h
  obtain rfl : actor = actor' := Option.some.inj (hfound.symm.trans (getActor_ok hactor))
  have hself : actor.id ≠ employeeId := fun hid => hnot ⟨actor, hfound, Or.inl hid⟩
  by_cases hadmin : actor.isAdmin = true
  · -- an admin of another company
    exact .of_keepsOthers href hchange.references
      (fun hown => hnot ⟨actor, hfound, Or.inr ⟨hadmin, hown⟩⟩) hchange.others
  · obtain ⟨l, hl, hby⟩ := run_of_route hroute
    exact ((hl.restrict (P := fun op => op.By actor) hby).invariant
      (I := fun db => s.db.KeepsEmployee employeeId db) (.refl employeeId s.db)
      fun hkept hstep => hkept.trans (keepsEmployee_of_step hadmin hself hstep.2 hstep.1))

/-- **Employees are guarded**: after any calls, further calls by anyone but the
employee and the admins of their company leave the employee's requests, ledger
entries, snapshots, assignments and memberships as they are. -/
theorem employees_guarded {dir : Directory} {before calls : List Call} {employeeId : String}
    (h : ∀ call ∈ calls, ¬ dir.MayChange call.actorId employeeId) :
    (before.foldl (State.after dir) .empty).db.KeepsEmployee employeeId
      ((before ++ calls).foldl (State.after dir) .empty).db := by
  have href : (before.foldl (State.after dir) .empty).db.References dir :=
    (attempts_rel (I := fun s : State => s.db.References dir) (R := fun _ _ => True)
      (fun _ => trivial) (fun _ _ => trivial)
      (fun call _ s t href hserve => ⟨references_of_serve href hserve, trivial⟩) .empty).1
  rw [List.foldl_append]
  exact (attempts_rel (I := fun s : State => s.db.References dir)
    (R := fun s t => s.db.KeepsEmployee employeeId t.db)
    (fun s => .refl employeeId s.db) (fun h h' => h.trans h')
    (fun call hcall s t href hserve =>
      ⟨references_of_serve href hserve, keepsEmployee_of_serve href (h call hcall) hserve⟩)
    href).2

end Api

/-- What the other company's employee has accrued is safe from this company's
administrator and employee. -/
theorem accrual_guarded :
    (∃ e ∈ (Demo.bothOpen.foldl (Api.State.after Demo.twoCompanies) .empty).db.ledger.rows,
      e.employeeId = "other_employee") ∧
    (Demo.bothOpen.foldl (Api.State.after Demo.twoCompanies) .empty).db.KeepsEmployee
      "other_employee"
      ((Demo.bothOpen ++ [Demo.callBy "adm_lindsey" .runAccruals,
        Demo.callBy "emp_ada" (.approve Demo.requestId none)]).foldl
          (Api.State.after Demo.twoCompanies) .empty).db := by
  refine ⟨by decide +kernel, Api.employees_guarded fun call hcall => ?_⟩
  revert call
  decide

end TimeOff
