import TimeOff.Concurrency.Routes

/-!
# Live requests side by side

A submission looks for live requests in the way with a plain read, before it
locks anything, and stores its row later. What others store in between it does
not see: `live_apart_iff` says that this is all that can make two live requests
of an employee overlap. Decisions and cancellations cannot: a decision has
locked the request it finds pending, and a cancellation ends one.

The guard is on commits. When a submission commits, its log has the view it
looked at and the row it stored, so whether the committed database holds
something in the way that was not there to be seen is a question about the log
and the state before the commit (`OverlapsSeen`). `requests_view` computes what
the statements of a log do to the table of requests; from it comes one lemma for
each kind of route (`liveApart_submit`, `liveApart_decide`, `liveApart_cancel`),
and `Trail.guard_iff` makes them one about runs.
-/

namespace TimeOff

open Gregorian

/-- A live request that is in the way of another one. -/
def TimeOffRequest.Blocks (other row : TimeOffRequest) : Prop :=
  other.employeeId = row.employeeId ∧ other.status.LIVE = true ∧
    other.Overlaps row.startDate row.endDate

instance (other row : TimeOffRequest) : Decidable (other.Blocks row) :=
  inferInstanceAs (Decidable (_ ∧ _ ∧ _))

/-- Of any two live requests of an employee, one ends before the other begins. -/
def LiveApart (db : Db) : Prop :=
  ∀ r ∈ db.requests.rows, ∀ s ∈ db.requests.rows, r.id ≠ s.id → r.employeeId = s.employeeId →
    r.status.LIVE = true → s.status.LIVE = true → r.endDate < s.startDate ∨ s.endDate < r.startDate

instance (db : Db) : Decidable (LiveApart db) :=
  inferInstanceAs (Decidable (∀ r ∈ db.requests.rows, ∀ s ∈ db.requests.rows, _ → _ → _ → _ → _))

/-- The row a statement stores. -/
def Stmt.stored? : Stmt → Option TimeOffRequest
  | .insertRequest row => some row
  | _ => none

/-- At the commit of a submission, all that blocks the new request was there to
be seen when the submission looked. -/
def OverlapsSeen (s : TxSession TimeOffRequest) (db : Db) : Prop :=
  s.prog.done = true → ∀ y ∈ s.log, ∀ row ∈ y.1.stored?, ∀ z ∈ s.log,
    z.1 = .select (.overlap row.employeeId row.startDate row.endDate) →
      ∀ other ∈ db.requests.rows, other.Blocks row →
        ∃ seen ∈ z.2.requests.rows, seen.id = other.id ∧ seen.Blocks row

instance (s : TxSession TimeOffRequest) (db : Db) : Decidable (OverlapsSeen s db) :=
  inferInstanceAs (Decidable (_ → ∀ y ∈ s.log, ∀ row ∈ y.1.stored?, ∀ z ∈ s.log, _ → _))

namespace LiveApart

variable {db : Db} {requests : Table Uuid TimeOffRequest TimeOffRequest.id}
  {row : TimeOffRequest} {id : Uuid} {u : RequestUpdate}

/-- Only the table of requests matters. -/
theorem congr {db' : Db} (h : db'.requests = db.requests) : LiveApart db' ↔ LiveApart db := by
  unfold LiveApart
  rw [h]

/-- A new live request keeps live requests apart exactly when nothing blocks it. -/
theorem insertNew_iff {db' : Db} (h : LiveApart db) (hnew : ¬ db.requests.Has row.id)
    (hlive : row.status.LIVE = true) (hdb : db'.requests = db.requests.insertNew row) :
    LiveApart db' ↔ ∀ other ∈ db.requests.rows, ¬ other.Blocks row := by
  unfold LiveApart
  rw [hdb, Table.rows_insertNew hnew]
  constructor
  · rintro hall other hother ⟨hemp, hlive', hover⟩
    have hid : other.id ≠ row.id := fun heq => hnew (heq ▸ Table.has_of_mem hother)
    have hrow : row ∈ db.requests.rows ++ [row] :=
      List.mem_append_right _ (List.mem_singleton.mpr rfl)
    have hends := hall other (List.mem_append_left _ hother) row hrow hid hemp hlive' hlive
    rcases hends with hends | hends
    · exact absurd hover.2 (not_le.mpr hends)
    · exact absurd hover.1 (not_le.mpr hends)
  · intro hfree r hr s hs hid hemp hrlive hslive
    rcases List.mem_append.mp hr with hr' | hr' <;> rcases List.mem_append.mp hs with hs' | hs'
    · exact h r hr' s hs' hid hemp hrlive hslive
    · obtain rfl := List.mem_singleton.mp hs'
      by_contra hnot
      rw [not_or, not_lt, not_lt] at hnot
      exact hfree r hr' ⟨hemp, hrlive, hnot.2, hnot.1⟩
    · obtain rfl := List.mem_singleton.mp hr'
      by_contra hnot
      rw [not_or, not_lt, not_lt] at hnot
      exact hfree s hs' ⟨hemp.symm, hslive, hnot.1, hnot.2⟩
    · rw [List.mem_singleton.mp hr', List.mem_singleton.mp hs'] at hid
      exact absurd rfl hid

/-- Giving a live request another status, or any request a dead one, keeps live
requests apart. -/
theorem modify {db' : Db} (h : LiveApart db)
    (hupdate : u.status.LIVE = true → ∀ r ∈ db.requests.find? id, r.status.LIVE = true)
    (hdb : db'.requests = db.requests.modify id (TimeOffRequest.update u) fun _ => rfl) :
    LiveApart db' := by
  -- every row comes from a row with the same dates that was live if it is
  have hold : ∀ r' ∈ db'.requests.rows, ∃ r ∈ db.requests.rows, r'.id = r.id ∧
      r'.employeeId = r.employeeId ∧ r'.startDate = r.startDate ∧ r'.endDate = r.endDate ∧
      (r'.status.LIVE = true → r.status.LIVE = true) := by
    intro r' hr'
    rw [hdb] at hr'
    obtain ⟨r, hr, rfl⟩ := Table.mem_modify.mp hr'
    refine ⟨r, hr, ?_⟩
    split
    · next hid =>
      refine ⟨rfl, rfl, rfl, rfl, fun hlive => hupdate hlive r ?_⟩
      exact Table.find?_eq_some.mpr ⟨hr, hid⟩
    · exact ⟨rfl, rfl, rfl, rfl, fun hlive => hlive⟩
  intro r' hr' s' hs' hid hemp hrlive hslive
  obtain ⟨r, hr, hrid, hremp, hrstart, hrend, hrlive'⟩ := hold r' hr'
  obtain ⟨s, hs, hsid, hsemp, hsstart, hsend, hslive'⟩ := hold s' hs'
  rw [hrstart, hrend, hsstart, hsend]
  exact h r hr s hs (by rwa [← hrid, ← hsid]) (by rw [← hremp, hemp, hsemp]) (hrlive' hrlive)
    (hslive' hslive)

end LiveApart

/-! ## What a commit does to the requests

A submission adds a row, a decision and a cancellation update one. Only the
first can bring two live requests together, and it does exactly when some
blocker was stored after it looked. -/

theorem Stmt.stored?_of_quiet {st : Stmt} (h : st.writesRequest = false) : st.stored? = none := by
  cases st with
  | insertRequest row => cases h
  | _ => rfl

section commits

variable {dir : Directory} {db : Db} {s : TxSession TimeOffRequest} {a : TimeOffRequest}
  {actor : Employee} {id : Uuid}

/-- What comes before and after a write does not touch the requests. -/
theorem requests_view (db : Db) {pre post : List (Stmt × Db)} {st : Stmt} {w : Db}
    (hlog : s.log = pre ++ (st, w) :: post) (hpre : ∀ y ∈ pre, y.1.writesRequest = false)
    (hpost : ∀ y ∈ post, y.1.writesRequest = false) :
    ∃ d : Db, d.requests = db.requests ∧
      (s.view database db).requests = (database.apply st d).requests := by
  refine ⟨Session.replay database pre db, replay_requests hpre db, ?_⟩
  show (Session.replay database s.log db).requests = _
  rw [hlog]
  unfold Session.replay
  rw [List.foldl_append, List.foldl_cons]
  exact replay_requests hpost _

/-- A transaction that only updates a request stores none, so it has nothing to
see. -/
theorem updated_last (db : Db) {pre : List (Stmt × Db)} {u : RequestUpdate} {w : Db}
    (hlog : s.log = pre ++ [(Stmt.updateRequest id u, w)])
    (hpre : ∀ y ∈ pre, y.1.writesRequest = false) :
    (s.view database db).requests
      = db.requests.modify id (TimeOffRequest.update u) (fun _ => rfl) ∧ OverlapsSeen s db := by
  constructor
  · obtain ⟨d, hrequests, hview⟩ :=
      requests_view db hlog hpre fun y hy => absurd hy List.not_mem_nil
    rw [hview]
    show d.requests.modify id (TimeOffRequest.update u) (fun _ => rfl) = _
    rw [hrequests]
  · intro _ y hy row hrow
    rw [hlog] at hy
    rcases List.mem_append.mp hy with hy | hy
    · rw [Stmt.stored?_of_quiet (hpre y hy)] at hrow
      cases hrow
    · rw [List.mem_singleton.mp hy] at hrow
      cases hrow

/-- A submission keeps live requests apart exactly when it has seen all that
blocks the request it stores. -/
theorem liveApart_submit {reason : String} {fields : RequestFields} (hapart : LiveApart db)
    (hseen : Seen database SameRow LedgerGrows s.log db) (hdone : s.prog.done = true)
    (htraces : ((Route.submit actor id reason fields).program dir).Traces database s.log a) :
    LiveApart (s.view database db) ↔ OverlapsSeen s db := by
  obtain ⟨-, -, hsubmit⟩ := Tx.traces_lift.mp htraces
  obtain ⟨r, pre, w, post, hlog, hrow, hfree, hpre, hpost, v, hv, hblocks⟩ :=
    RequestService.submit_traces hsubmit
  -- the id has been free since the row was stored
  obtain ⟨d, rfl, -, hlock⟩ := hseen pre _ w post hlog
  have hsame : d.requests.find? a.id = db.requests.find? a.id :=
    hlock (.request a.id) (if_neg hfree)
  have hnew : ¬ db.requests.Has a.id := by
    rw [replay_requests hpre, Table.has_iff, hsame] at hfree
    rwa [Table.has_iff]
  have hdb : (s.view database db).requests = db.requests.insertNew a := by
    obtain ⟨d', hrequests, hview⟩ := requests_view db hlog hpre hpost
    rw [hview]
    show d'.requests.insertNew a = _
    rw [hrequests]
  have hlive : a.status.LIVE = true := by
    rw [hrow]
    rfl
  refine (LiveApart.insertNew_iff hapart hnew hlive hdb).trans ?_
  have hmem : (Stmt.insertRequest a, Session.replay database pre d) ∈ s.log := by
    rw [hlog]
    exact List.mem_append_right _ (List.mem_cons_self ..)
  constructor
  · -- the row stored is `a`, and nothing blocks it
    intro h _ y hy row hrow' z hz _ other hother hblock
    have hy' : row = a := by
      rw [hlog] at hy
      rcases List.mem_append.mp hy with hy | hy
      · rw [Stmt.stored?_of_quiet (hpre y hy)] at hrow'
        cases hrow'
      rcases List.mem_cons.mp hy with rfl | hy
      · cases hrow'
        rfl
      · rw [Stmt.stored?_of_quiet (hpost y hy)] at hrow'
        cases hrow'
    exact absurd (hy' ▸ hblock) (h other hother)
  · intro h other hother hblock
    have hv' : (Stmt.select (.overlap a.employeeId a.startDate a.endDate), v) ∈ s.log := by
      rw [hlog, hrow]
      exact List.mem_append_left _ hv
    obtain ⟨seen, hseen', -, hemp, hlive', hover⟩ :=
      h hdone _ hmem a rfl _ hv' rfl other hother hblock
    rw [hrow] at hemp hover
    exact hblocks seen hseen' hemp hlive' hover

/-- A decision keeps them apart: the request is still the pending one that was
locked. -/
theorem liveApart_decide {approve : Bool} {note : Option String} (hapart : LiveApart db)
    (hseen : Seen database SameRow LedgerGrows s.log db)
    (htraces : ((Route.decide actor id approve note).program dir).Traces database s.log a) :
    LiveApart (s.view database db) ∧ OverlapsSeen s db := by
  obtain ⟨-, -, hroute⟩ := Tx.traces_lift.mp htraces
  obtain ⟨log₁, row, log₂, hlog, hfind, hdecide⟩ := Program.traces_bind.mp hroute
  obtain ⟨v₀, rfl, -, -⟩ := Api.findRequest_traces hfind
  obtain ⟨r, v, mid, w, rfl, hr, hpending, hmid⟩ := RequestService.decide_traces hdecide
  obtain ⟨d, hd, -, hlock⟩ := hseen [(Stmt.select (.request id actor.companyId), v₀)] _ v _ hlog
  obtain rfl : v = d := hd
  have hneeds : (Stmt.lockRequest row.id).needs v = some (.request row.id) :=
    if_pos (Table.has_iff.mpr ⟨r, hr⟩)
  have hsame : v.requests.find? row.id = db.requests.find? row.id := hlock _ hneeds
  have hpre : ∀ y ∈ (Stmt.select (.request id actor.companyId), v₀) ::
      (.lockRequest row.id, v) :: mid, y.1.writesRequest = false := by
    intro y hy
    rcases List.mem_cons.mp hy with rfl | hy
    · rfl
    rcases List.mem_cons.mp hy with rfl | hy
    · rfl
    · exact hmid y hy
  obtain ⟨hdb, hquiet⟩ := updated_last db hlog hpre
  refine ⟨hapart.modify (fun _ r' hr' => ?_) hdb, hquiet⟩
  have hr'' : db.requests.find? row.id = some r := hsame.symm.trans hr
  obtain rfl := Option.mem_unique hr' hr''
  rw [hpending]
  rfl

/-- And a cancellation ends one. -/
theorem liveApart_cancel {today : Date} (hapart : LiveApart db)
    (htraces : ((Route.cancel actor id today).program dir).Traces database s.log a) :
    LiveApart (s.view database db) ∧ OverlapsSeen s db := by
  obtain ⟨log₁, row, log₂, hlog, hfind, hroute⟩ := Program.traces_bind.mp htraces
  obtain ⟨v₀, rfl, -, -⟩ := Api.findRequest_traces hfind
  obtain ⟨-, -, hcancel⟩ := Tx.traces_lift.mp hroute
  obtain ⟨pre, w, rfl, hpre⟩ := RequestService.cancel_traces hcancel
  have hquiet : ∀ y ∈ (Stmt.select (.request id actor.companyId), v₀) :: pre,
      y.1.writesRequest = false := by
    intro y hy
    rcases List.mem_cons.mp hy with rfl | hy
    · rfl
    · exact hpre y hy
  obtain ⟨hdb, hseen⟩ := updated_last db hlog hquiet
  refine ⟨hapart.modify (fun hlive => ?_) hdb, hseen⟩
  cases (show false = true from hlive)

end commits

section interleaved

variable {ι : Type} [DecidableEq ι] {dir : Directory} {routes : ι → Route} {d₀ : Db}
  {c c' : TxConfig TimeOffRequest ι} {e : Event ι}

/-- A step keeps live requests apart exactly when it commits no submission that
missed one. -/
theorem liveApart_step
    (htracked : Tracked database SameRow LedgerGrows (fun i => (routes i).program dir) c)
    (hapart : LiveApart c.db)
    (hf : c.fire database (fun i => (routes i).program dir) e = some c') :
    LiveApart c'.db ↔ Meets OverlapsSeen c e := by
  rcases Config.commits_or_keeps hf with ⟨i, s, a, rfl, hs, hprog, rfl⟩ | ⟨hdb, hnotdone⟩
  -- a step that commits nothing meets the guard
  swap
  · rw [hdb]
    refine ⟨fun _ i s hi hs hdone => ?_, fun _ => hapart⟩
    rw [hnotdone i s hi hs] at hdone
    cases hdone
  have htraces : ((routes i).program dir).Traces database s.log a := htracked.traces hs hprog
  have hseen := htracked.seen hs
  have hmeets : Meets OverlapsSeen c (.next i) ↔ OverlapsSeen s c.db := by
    constructor
    · intro h
      exact h i s rfl hs
    · rintro h j t ⟨⟩ ht
      rw [hs] at ht
      cases ht
      exact h
  rw [hmeets]
  have hdone : s.prog.done = true := by
    rw [hprog]
    rfl
  cases hroute : routes i with
  | submit actor id reason fields =>
    rw [hroute] at htraces
    exact liveApart_submit hapart hseen hdone htraces
  | decide actor id approve note =>
    rw [hroute] at htraces
    obtain ⟨hkept, hquiet⟩ := liveApart_decide hapart hseen htraces
    exact iff_of_true hkept hquiet
  | cancel actor id today =>
    rw [hroute] at htraces
    obtain ⟨hkept, hquiet⟩ := liveApart_cancel hapart htraces
    exact iff_of_true hkept hquiet

/-- In an interleaving of request routes, live requests of an employee are apart
in every committed state exactly when every submission has seen all that blocks
the request it stores. -/
theorem live_apart_iff {l : List (TxConfig TimeOffRequest ι × Event ι × TxConfig TimeOffRequest ι)}
    (hd₀ : LiveApart d₀) (h : Interleaved database (fun i => (routes i).program dir) d₀ l c) :
    (∀ y ∈ l, LiveApart y.2.2.db) ↔ ∀ y ∈ l, Meets OverlapsSeen y.1 y.2.1 := by
  refine h.guard_iff (G := fun c => LiveApart c.db)
    (Tracked database SameRow LedgerGrows fun i => (routes i).program dir)
    ⟨tracked_initial d₀, hd₀⟩ ?_ ?_
  · intro t e u ⟨htracked, hapart⟩ hguard hf
    exact ⟨htracked.step sameRow_protects ledger_grows hf,
      (liveApart_step htracked hapart hf).mpr hguard⟩
  · intro t e u ⟨htracked, hapart⟩ hf hapart'
    exact (liveApart_step htracked hapart hf).mp hapart'

end interleaved

/-! ## Two submissions

Nothing is locked when a submission looks for overlaps, so two of them can both
look first. -/

namespace Demo

/-- Ada asks twice for the same day. -/
def sameDay (second : Bool) : Route :=
  .submit admin (if second then otherRequestId else requestId) "Time off"
    { employeeId := "emp_ada", categoryId := categoryId, startDate := ofYmd 2026 3 2
      endDate := ofYmd 2026 3 2 }

end Demo

/-- Two submissions for the same day look for each other before either is
stored. -/
theorem live_not_apart :
    ¬ ∀ (dir : Directory) (routes : Bool → Route) (d₀ : Db)
      (l : List (TxConfig TimeOffRequest Bool × Event Bool × TxConfig TimeOffRequest Bool))
      (c : TxConfig TimeOffRequest Bool), LiveApart d₀ →
        Interleaved database (fun i => (routes i).program dir) d₀ l c → LiveApart c.db := by
  intro hclaim
  have hrun : (Op.runAll Demo.directory
      (Demo.openPolicy { effectiveFrom := ofYmd 2026 1 1, kind := .UNLIMITED } []) .empty).passes
      (fun r => LiveApart r.2 ∧
        (Config.schedule database (fun i => (Demo.sameDay i).program Demo.directory)
          (fun _ _ => True)
          (.start false :: .start true :: (List.replicate 4 (.next false) ++
            List.replicate 4 (.next true) ++ List.replicate 5 (.next false) ++
            List.replicate 3 (.next true)))
          (Config.initial r.2)).any fun c => ¬ LiveApart c.db) = true := by
    decide +kernel
  obtain ⟨⟨l₀, d₀⟩, -, hpass⟩ := Except.ok_of_passes hrun
  obtain ⟨hd₀, hschedule⟩ := of_decide_eq_true hpass
  obtain ⟨c, hc, hnot⟩ := (Option.any_eq_true _ _).mp hschedule
  obtain ⟨l, hl, -⟩ := Config.trail_of_schedule hc
  exact of_decide_eq_true hnot (hclaim _ _ d₀ l c hd₀ hl)

/-- One after the other, the second sees the first and is refused. -/
theorem live_apart_in_turn :
    ∃ (l : List (TxConfig TimeOffRequest Bool × Event Bool × TxConfig TimeOffRequest Bool))
      (d₀ : Db) (c : TxConfig TimeOffRequest Bool),
      Interleaved database (fun i => (Demo.sameDay i).program Demo.directory) d₀ l c ∧
        c.commits = [false] ∧ (∀ y ∈ l, Meets OverlapsSeen y.1 y.2.1) ∧
        ∀ y ∈ l, LiveApart y.2.2.db := by
  have hrun : (Op.runAll Demo.directory
      (Demo.openPolicy { effectiveFrom := ofYmd 2026 1 1, kind := .UNLIMITED } []) .empty).passes
      (fun r => LiveApart r.2 ∧
        (Config.schedule database (fun i => (Demo.sameDay i).program Demo.directory)
          (Meets OverlapsSeen)
          (.start false :: .start true :: (List.replicate 9 (.next false) ++
            List.replicate 5 (.next true)))
          (Config.initial r.2)).any fun c => c.commits = [false]) = true := by
    decide +kernel
  obtain ⟨⟨l₀, d₀⟩, -, hpass⟩ := Except.ok_of_passes hrun
  obtain ⟨hd₀, hschedule⟩ := of_decide_eq_true hpass
  obtain ⟨c, hc, hcommits⟩ := (Option.any_eq_true _ _).mp hschedule
  obtain ⟨l, hl, hseen⟩ := Config.trail_of_schedule hc
  exact ⟨l, d₀, c, hl, of_decide_eq_true hcommits, hseen, (live_apart_iff hd₀ hl).mpr hseen⟩

end TimeOff
