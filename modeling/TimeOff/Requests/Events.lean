import TimeOff.Requests.Lifecycle

/-!
# The event log

Each change of a request's status writes an event beside it. Three things make
the log an audit trail: the events lead from the submission to the current
status by moves of the workflow (`Documented`), nothing but the status, the
decider and the end of the log ever changes (`Continues`), and the log has
exactly the operations that succeeded, in order (`Op.log`).

Each of the three is proved of a step and then of any operations tried in turn:

- **`requests_documented`**: `Documented` is an invariant. A decision and a
  cancellation append the event of a move from the status that the row has, so
  the moves still lead to the status;
- **`requests_continue`**: `Continues` is reflexive and transitive, and a step
  relates every row to one of the next state;
- **`events_complete`**: the events of a request after a step are those before
  and the one that `Op.event` says, so those after a run are those before it and
  the log of the run.

The status an event names is the one its transaction found. Here operations run
one at a time, so it is the current one.
-/

namespace TimeOff

/-! ## The workflow -/

/-- The moves of a request's status. -/
inductive RequestStatus.Moves : RequestStatus → RequestStatus → Prop
  | approve : Moves .PENDING .APPROVED
  | deny : Moves .PENDING .DENIED
  | withdraw : Moves .PENDING .CANCELLED
  | cancel : Moves .APPROVED .CANCELLED

/-- An event records one move. -/
def RequestEvent.Records (s : RequestStatus) (e : RequestEvent) (t : RequestStatus) : Prop :=
  e.fromStatus = some s ∧ e.toStatus = t ∧ s.Moves t

/-- Events that lead from one status to another. -/
def Leads (s : RequestStatus) (es : List RequestEvent) (t : RequestStatus) : Prop :=
  ∃ l, Trail RequestEvent.Records s l t ∧ es = l.map (·.2.1)

namespace Leads

variable {s t u : RequestStatus} {es fs : List RequestEvent} {e : RequestEvent}

theorem refl (s : RequestStatus) : Leads s [] s := ⟨[], .nil, rfl⟩

theorem single (h : e.Records s t) : Leads s [e] t := ⟨_, Trail.nil.snoc h, rfl⟩

theorem append (h : Leads s es t) (h' : Leads t fs u) : Leads s (es ++ fs) u := by
  obtain ⟨l, hl, rfl⟩ := h
  obtain ⟨l', hl', rfl⟩ := h'
  exact ⟨l ++ l', hl.append hl', List.map_append.symm⟩

end Leads

/-- What a decision writes records a move. -/
theorem RequestService.decision_records (approve : Bool) (actorId : String) (note : Option String) :
    (decision approve actorId note).event.Records .PENDING
      (decision approve actorId note).status := by
  cases approve with
  | true => exact ⟨rfl, rfl, .approve⟩
  | false => exact ⟨rfl, rfl, .deny⟩

/-- What a cancellation writes records one too, from either live status. -/
theorem RequestService.cancellation_records {s : RequestStatus} (h : s.LIVE = true)
    (actorId : String) : (cancellation s actorId).event.Records s .CANCELLED := by
  cases s with
  | PENDING => exact ⟨rfl, rfl, .withdraw⟩
  | APPROVED => exact ⟨rfl, rfl, .cancel⟩
  | DENIED => cases h
  | CANCELLED => cases h

/-! ## What is frozen

Between two states of one request, the log has grown at its end and what was
submitted is the same. -/

/-- What a request may have become: the rest of its row is frozen, the log is
only appended to, and the new events lead to the new status. -/
structure TimeOffRequest.Continues (r r' : TimeOffRequest) : Prop where
  frozen : r' = { r with status := r'.status, decidedBy := r'.decidedBy, events := r'.events }
  events : ∃ es, r'.events = r.events ++ es ∧ Leads r.status es r'.status

namespace TimeOffRequest.Continues

variable {r r' r'' : TimeOffRequest}

theorem refl (r : TimeOffRequest) : r.Continues r :=
  ⟨rfl, [], (List.append_nil _).symm, .refl _⟩

theorem trans (h : r.Continues r') (h' : r'.Continues r'') : r.Continues r'' := by
  obtain ⟨es, hes, hlead⟩ := h.events
  obtain ⟨fs, hfs, hlead'⟩ := h'.events
  refine ⟨?_, es ++ fs, by rw [hfs, hes, List.append_assoc], hlead.append hlead'⟩
  have := h'.frozen
  rw [h.frozen] at this
  exact this

/-- An update goes on with the log. -/
theorem update {u : RequestUpdate} (h : u.event.Records r.status u.status) :
    r.Continues (r.update u) :=
  ⟨rfl, [u.event], rfl, .single h⟩

theorem id_eq (h : r.Continues r') : r'.id = r.id := by rw [h.frozen]

end TimeOffRequest.Continues

/-- Every request is still there. -/
def Db.RequestsContinue (db db' : Db) : Prop :=
  ∀ r ∈ db.requests.rows, ∃ r' ∈ db'.requests.rows, r.Continues r'

namespace Db.RequestsContinue

variable {db db' db'' : Db} {row r : TimeOffRequest}

/-- Nothing is lost where requests stay as they are. -/
theorem of_eq (h : db'.requests = db.requests) : db.RequestsContinue db' := by
  intro r hr
  rw [h]
  exact ⟨r, hr, .refl r⟩

theorem trans (h : db.RequestsContinue db') (h' : db'.RequestsContinue db'') :
    db.RequestsContinue db'' := by
  intro r hr
  obtain ⟨r', hr', hcont⟩ := h r hr
  obtain ⟨r'', hr'', hcont'⟩ := h' r' hr'
  exact ⟨r'', hr'', hcont.trans hcont'⟩

/-- A new request leaves the others alone. -/
theorem insertNew (h : db'.requests = db.requests.insertNew row) : db.RequestsContinue db' := by
  intro r hr
  rw [h]
  exact ⟨r, Table.subset_insertNew _ _ hr, .refl r⟩

/-- An update with the event of its move. -/
theorem modify {u : RequestUpdate} (hr : r ∈ db.requests.rows)
    (hevent : u.event.Records r.status u.status)
    (h : db'.requests = db.requests.modify r.id (TimeOffRequest.update u) fun _ => rfl) :
    db.RequestsContinue db' := by
  intro s hs
  rw [h]
  refine ⟨_, Table.mem_modify.mpr ⟨s, hs, rfl⟩, ?_⟩
  split
  · next hid =>
    obtain rfl := Table.eq_of_key hs hr hid
    exact .update hevent
  · exact .refl s

end Db.RequestsContinue

/-- A request after a step is an old one, an old one updated, or the one that was
submitted. -/
theorem Effect.row_cases {dir : Directory} {db db' : Db} {op : Op} (h : Effect dir db op db')
    {s : TimeOffRequest} (hs : s ∈ db'.requests.rows) :
    s ∈ db.requests.rows ∨ (∃ r ∈ db.requests.rows, ∃ u, s = r.update u) ∨
      ∃ id actorId reason fields r, RequestService.Resolves dir fields db r ∧
        s = RequestService.newRequest id actorId reason fields r := by
  cases h with
  | catalog => exact Or.inl hs
  | @submit actor id reason fields r row hrow hres =>
    rw [Db.afterSubmit_requests] at hs
    rcases Table.mem_insertNew hs with hold | ⟨rfl, -⟩
    · exact Or.inl hold
    · exact Or.inr (Or.inr ⟨id, actor.id, reason, fields, r, hres, hrow⟩)
  | @decide actor id approve note r v hfind =>
    obtain ⟨hr, -⟩ := Table.find?_eq_some.mp hfind
    rw [Db.afterDecide_requests] at hs
    rcases Table.eq_or_mem_of_mem_modify hr hs with rfl | ⟨hold, -⟩
    · exact Or.inr (Or.inl ⟨r, hr, _, rfl⟩)
    · exact Or.inl hold
  | @cancel actor id today r hfind =>
    obtain ⟨hr, -⟩ := Table.find?_eq_some.mp hfind
    rw [Db.afterCancel_requests] at hs
    rcases Table.eq_or_mem_of_mem_modify hr hs with rfl | ⟨hold, -⟩
    · exact Or.inr (Or.inl ⟨r, hr, _, rfl⟩)
    · exact Or.inl hold
  | runScheduled | onPayrollProcessed =>
    exact Or.inl (by rwa [show (Db.recordRun _ _).requests = _ from Db.postAccruals_requests] at hs)
  | rollover =>
    exact Or.inl (by
      rwa [show (Db.recordRun _ _).requests = _ from Db.closeAccounts_requests ..] at hs)

/-- Every step lets requests continue. -/
theorem RequestEffect.requestsContinue {db db' : Db} {op : Op} (h : RequestEffect db op db') :
    db.RequestsContinue db' := by
  cases h with
  | other hrequests => exact .of_eq hrequests
  | submit => exact .insertNew Db.afterSubmit_requests
  | @decide actor approve note r v hr hpending =>
    refine .modify hr ?_ Db.afterDecide_requests
    rw [hpending]
    exact RequestService.decision_records approve actor.id note
  | @cancel actor today r hr hlive =>
    exact .modify hr (RequestService.cancellation_records hlive actor.id) Db.afterCancel_requests

/-- Whatever is tried, no request disappears, what it froze never changes, its
log is only appended to, and the new events lead to its new status by moves of
the workflow. -/
theorem requests_continue (dir : Directory) (ops : List Op) (db : Db) :
    db.RequestsContinue (ops.foldl (Op.tried dir) db) :=
  rel_tried (fun _ => .of_eq rfl) (fun h h' => h.trans h')
    (fun hstep => (effect_of_step hstep).onRequests.requestsContinue) ops db

/-! ## The log of one request

The log leads from the submission to the status, one move for each event; a step
adds one move, or nothing. -/

/-- An approval or a denial. -/
def RequestEvent.Decides (e : RequestEvent) : Prop :=
  e.toStatus = .APPROVED ∨ e.toStatus = .DENIED

instance (e : RequestEvent) : Decidable e.Decides := inferInstanceAs (Decidable (_ ∨ _))

/-- The log begins with the submission and leads to the status; the decider is
the actor of the decision. -/
structure TimeOffRequest.Documented (r : TimeOffRequest) : Prop where
  events : ∃ es, r.events = ⟨none, .PENDING, r.createdBy, none⟩ :: es ∧ Leads .PENDING es r.status
  decidedBy : r.decidedBy = (r.events.find? fun e => e.Decides).map (·.actorId)

/-- The log of every request is complete from its submission on. -/
def Db.Documented (db : Db) : Prop := ∀ r ∈ db.requests.rows, r.Documented

namespace TimeOffRequest.Documented

variable {r : TimeOffRequest}

/-- A new request has its submission for a log. -/
theorem newRequest (id : Uuid) (actorId reason : String) (fields : RequestFields)
    (r : RequestService.Resolved) :
    (RequestService.newRequest id actorId reason fields r).Documented :=
  ⟨⟨[], rfl, .refl _⟩, rfl⟩

/-- Nothing has decided a pending request. -/
theorem undecided (h : r.Documented) (hpending : r.status = .PENDING) :
    ∀ e ∈ r.events, ¬ e.Decides := by
  obtain ⟨es, hes, l, hl, rfl⟩ := h.events
  rw [hpending] at hl
  have hnil : l = [] := by
    cases hl with
    | nil => rfl
    | snoc _ hstep => cases hstep.2.2
  intro e he
  rw [hes, hnil, List.map_nil, List.mem_singleton] at he
  rw [he]
  exact fun hdecides => hdecides.elim nofun nofun

theorem update {u : RequestUpdate} (h : r.Documented) (hevent : u.event.Records r.status u.status)
    (hdecided : u.decidedBy = if u.event.Decides then some u.event.actorId else none)
    (hpending : u.event.Decides → r.status = .PENDING) : (r.update u).Documented := by
  obtain ⟨es, hes, hlead⟩ := h.events
  refine ⟨⟨es ++ [u.event], ?_, hlead.append (.single hevent)⟩, ?_⟩
  · show r.events ++ [u.event] = _
    rw [hes, List.cons_append]
    rfl
  · show (u.decidedBy <|> r.decidedBy)
      = ((r.events ++ [u.event]).find? fun e => e.Decides).map (·.actorId)
    rw [List.find?_append, hdecided, h.decidedBy]
    by_cases hd : u.event.Decides
    · -- a decision is the first one
      have hnone : r.events.find? (fun e => decide e.Decides) = none :=
        List.find?_eq_none.mpr fun e he => by simpa using h.undecided (hpending hd) e he
      rw [hnone, if_pos hd, Option.none_or, List.find?_cons_of_pos (by simpa using hd)]
      rfl
    · rw [if_neg hd, List.find?_cons_of_neg (by simpa using hd), List.find?_nil, Option.or_none]
      rfl

end TimeOffRequest.Documented

/-- Steps keep logs that document their requests. -/
theorem Effect.documented {dir : Directory} {db db' : Db} {op : Op} (h : Effect dir db op db')
    (hdoc : db.Documented) : db'.Documented := by
  intro s hs
  cases h with
  | catalog => exact hdoc s hs
  | submit hrow =>
    rw [Db.afterSubmit_requests] at hs
    rcases Table.mem_insertNew hs with hold | ⟨rfl, -⟩
    · exact hdoc s hold
    · rw [hrow]
      exact .newRequest ..
  | @decide actor id approve note r v hfind hpending =>
    obtain ⟨hr, -⟩ := Table.find?_eq_some.mp hfind
    rw [Db.afterDecide_requests] at hs
    rcases Table.eq_or_mem_of_mem_modify hr hs with rfl | ⟨hold, -⟩
    · -- only a pending request is decided, so it is decided once
      refine (hdoc r hr).update ?_ ?_ fun _ => hpending
      · rw [hpending]
        exact RequestService.decision_records approve actor.id note
      · cases approve <;> rfl
    · exact hdoc s hold
  | @cancel actor id today r hfind hlive =>
    obtain ⟨hr, -⟩ := Table.find?_eq_some.mp hfind
    rw [Db.afterCancel_requests] at hs
    rcases Table.eq_or_mem_of_mem_modify hr hs with rfl | ⟨hold, -⟩
    · exact (hdoc r hr).update (RequestService.cancellation_records hlive actor.id) rfl
        fun hdecides => hdecides.elim nofun nofun
    · exact hdoc s hold
  | runScheduled | onPayrollProcessed =>
    refine hdoc s ?_
    rwa [show (Db.recordRun _ _).requests = _ from Db.postAccruals_requests] at hs
  | rollover =>
    refine hdoc s ?_
    rwa [show (Db.recordRun _ _).requests = _ from Db.closeAccounts_requests ..] at hs

/-- In every state that operations, accepted or rejected, lead to, the log of
each request begins with its submission by `created_by` and leads by moves of
the workflow to its status, and `decided_by` is the actor of its only decision. -/
theorem requests_documented (dir : Directory) (ops : List Op) :
    (ops.foldl (Op.tried dir) .empty).Documented := by
  obtain ⟨l, hl⟩ : Reachable dir (ops.foldl (Op.tried dir) .empty) := reachable_tried ⟨[], .nil⟩
  exact hl.invariant (fun _ h => absurd h List.not_mem_nil)
    fun hdoc hstep => (effect_of_step hstep).documented hdoc

/-! ## The log of a run

What the operations of a run add to the log of one request, as a function of
each operation and the state it met. -/

/-- The event a successful operation leaves with a request. -/
def Op.event (id : Uuid) (db : Db) : Op → Option RequestEvent
  | .submit actor requestId _ _ =>
    if requestId = id then some ⟨none, .PENDING, actor.id, none⟩ else none
  | .decide actor requestId approve note =>
    if requestId = id then
      some ⟨some .PENDING, if approve then .APPROVED else .DENIED, actor.id, note⟩
    else none
  | .cancel actor requestId _ =>
    if requestId = id then
      (db.requests.find? id).map fun r => ⟨some r.status, .CANCELLED, actor.id, none⟩
    else none
  | _ => none

/-- The events of a request that operations tried in turn should leave: one for
each that succeeds. -/
def Op.log (dir : Directory) (id : Uuid) : List Op → Db → List RequestEvent
  | [], _ => []
  | op :: ops, db =>
    match op.run dir db with
    | .ok db' => (op.event id db).toList ++ log dir id ops db'
    | .error _ => log dir id ops db

/-- The events stored for a request. -/
def Db.eventsOf (db : Db) (id : Uuid) : List RequestEvent :=
  ((db.requests.find? id).map (·.events)).getD []

section EventsOf

variable {db db' : Db} {id : Uuid} {row r : TimeOffRequest} {u : RequestUpdate}

/-- Events are stored with their request. -/
theorem eventsOf_congr (h : db'.requests = db.requests) : db'.eventsOf id = db.eventsOf id := by
  unfold Db.eventsOf
  rw [h]

theorem eventsOf_insertNew (hnew : ¬ db.requests.Has row.id)
    (h : db'.requests = db.requests.insertNew row) :
    db'.eventsOf id = db.eventsOf id ++ if row.id = id then row.events else [] := by
  unfold Db.eventsOf
  by_cases hid : row.id = id
  · subst hid
    rw [h, Table.find?_insertNew_self hnew, Table.find?_eq_none.mpr hnew, if_pos rfl]
    rfl
  · rw [h, Table.find?_insertNew_of_ne (Ne.symm hid), if_neg hid, List.append_nil]

theorem eventsOf_modify (hfind : db.requests.find? r.id = some r)
    (h : db'.requests = db.requests.modify r.id (TimeOffRequest.update u) fun _ => rfl) :
    db'.eventsOf id = db.eventsOf id ++ if r.id = id then [u.event] else [] := by
  unfold Db.eventsOf
  by_cases hid : r.id = id
  · subst hid
    have hfind' : db'.requests.find? r.id = some (r.update u) := by
      rw [h]
      exact Table.find?_modify_self hfind
    rw [hfind', hfind, if_pos rfl]
    rfl
  · have hfind' : db'.requests.find? id = db.requests.find? id := by
      rw [h]
      exact Table.find?_modify_of_ne (Ne.symm hid)
    rw [hfind', if_neg hid, List.append_nil]

/-- A step writes the event of its operation, to the request it is about. -/
theorem Effect.eventsOf {dir : Directory} {op : Op} (h : Effect dir db op db') (id : Uuid) :
    db'.eventsOf id = db.eventsOf id ++ (op.event id db).toList := by
  cases h with
  | catalog => exact (List.append_nil _).symm
  | @submit actor requestId reason fields r row hrow hres hnew _ =>
    subst hrow
    refine (eventsOf_insertNew hnew Db.afterSubmit_requests).trans
      (congrArg (db.eventsOf id ++ ·) ?_)
    show (if requestId = id then _ else []) = (Op.event id db (.submit ..)).toList
    simp only [Op.event]
    split <;> rfl
  | @decide actor requestId approve note r v hfind =>
    obtain ⟨-, rfl⟩ := Table.find?_eq_some.mp hfind
    rw [eventsOf_modify hfind Db.afterDecide_requests]
    simp only [Op.event]
    split <;> rfl
  | @cancel actor requestId today r hfind =>
    obtain ⟨-, rfl⟩ := Table.find?_eq_some.mp hfind
    rw [eventsOf_modify hfind Db.afterCancel_requests]
    simp only [Op.event]
    split
    · next hid =>
      subst hid
      rw [hfind]
      rfl
    · rfl
  | runScheduled | onPayrollProcessed =>
    exact (eventsOf_congr Db.postAccruals_requests).trans (List.append_nil _).symm
  | rollover =>
    exact (eventsOf_congr (Db.closeAccounts_requests ..)).trans (List.append_nil _).symm

end EventsOf

/-- Whatever is tried in any state, the log of a request grows by exactly one
event for each operation on it that succeeds, in order, with its actor, its note
and the status it found: none is lost, doubled or made up. -/
theorem events_complete (dir : Directory) (id : Uuid) (ops : List Op) (db : Db) :
    (ops.foldl (Op.tried dir) db).eventsOf id = db.eventsOf id ++ Op.log dir id ops db := by
  induction ops generalizing db with
  | nil => exact (List.append_nil _).symm
  | cons op ops ih =>
    rw [List.foldl_cons, ih]
    cases hrun : op.run dir db with
    | ok db' =>
      simp only [Op.log, Op.tried]
      rw [hrun, (effect_of_step hrun).eventsOf id, List.append_assoc]
    | error e =>
      simp only [Op.log, Op.tried]
      rw [hrun]

end TimeOff
