import TimeOff.Accrual.Balances
import TimeOff.Accrual.Postings
import TimeOff.Requests.ByDate

/-!
# Which pending requests can be approved

A request is checked against the floor of the version it froze, once when it is
submitted and again when it is approved. While nothing is posted but what
decisions and cancellations post, only submissions take from what is available
(`available_le_of_step`), and a submission is checked against its own floor
only: under an older version with a higher floor, a pending request loses what
was held for it. **`approvable_iff`** says that this is the one way.

At an approval the request's own minutes are among those held, so it goes
through when what is left besides all holds keeps the frozen floor.
`KeepsFloors` says this of all pending requests of an account at once, and
`approvable_iff_keepsFloors` that it is the same as being approvable. The rest
is a step lemma for each operation: a decision gives back what it takes, a
cancellation only gives, and a submission keeps the floors when what it leaves
is enough for all requests that were pending before (`SparesPending`).
-/

namespace TimeOff

open Gregorian

/-- Submitting, deciding and cancelling. -/
def Op.IsWorkflow : Op → Prop
  | .submit .. | .decide .. | .cancel .. => True
  | _ => False

instance : (op : Op) → Decidable op.IsWorkflow
  | .submit .. | .decide .. | .cancel .. => .isTrue trivial
  | .catalog .. | .runScheduled .. | .onPayrollProcessed .. | .rollover .. => .isFalse not_false

/-- None of them edits a policy. -/
theorem Op.IsWorkflow.not_edits {op : Op} (h : op.IsWorkflow) : ¬ op.Edits := by
  cases op with
  | catalog => exact h.elim
  | _ => exact not_false

/-- Every pending request of the account can be approved, whoever approves it. -/
def Approvable (a : Account) (db : Db) : Prop :=
  ∀ r ∈ db.requests.rows, r.account = a → r.status = .PENDING →
    ∀ actorId note, ∃ x, Tx.run (RequestService.decide r.id true actorId note) db = .ok x

/-- `available` keeps the floor that every pending request of the account froze. -/
def KeepsFloors (a : Account) (db : Db) (available : Int) : Prop :=
  ∀ r ∈ db.requests.rows, r.account = a → r.status = .PENDING →
    ∀ v ∈ db.catalog.version r.policyVersionId, v.floor ≤ available

instance (a : Account) (db : Db) (available : Int) : Decidable (KeepsFloors a db available) :=
  inferInstanceAs (Decidable (∀ r ∈ db.requests.rows, _ → _ →
    ∀ v ∈ db.catalog.version r.policyVersionId, _))

/-- A submission on the account leaves the floors of all pending requests. -/
def Op.SparesPending (dir : Directory) (a : Account) (db : Db) : Op → Prop
  | .submit _ _ _ fields => (Tx.run (RequestService.resolve dir fields) db).Ensures fun x =>
      x.1.account fields.employeeId = a → KeepsFloors a db (db.available a - x.1.totalMinutes)
  | _ => True

instance (dir : Directory) (a : Account) (db : Db) (op : Op) :
    Decidable (op.SparesPending dir a db) := by
  unfold Op.SparesPending
  split <;> infer_instance

/-- All versions of a policy are `ACCRUAL`. -/
def Catalog.AllAccrual (c : Catalog) (policyId : Uuid) : Prop :=
  ∀ v ∈ c.versions.rows, v.policyId = policyId → v.kind = .ACCRUAL

instance (c : Catalog) (policyId : Uuid) : Decidable (c.AllAccrual policyId) :=
  inferInstanceAs (Decidable (∀ v ∈ c.versions.rows, _ → _))

/-! ## One state

The check of an approval, compared with what is available: the balance less all
that is held. -/

theorem TimeOffRequest.WellFormed.accrual {c : Catalog} {r : TimeOffRequest} {v : PolicyVersion}
    (h : r.WellFormed c) (hkinds : c.AllAccrual r.policyId)
    (hv : c.version r.policyVersionId = some v) : v.kind ≠ .UNLIMITED := by
  obtain ⟨w, hw, hpolicy⟩ := h.version
  obtain rfl : w = v := Option.some.inj (hw.symm.trans hv)
  rw [hkinds w (Catalog.version_eq_some.mp hw).1 hpolicy]
  nofun

/-- A pending request can be approved when what is available keeps its floor. -/
theorem approvable_iff_keepsFloors {dir : Directory} {a : Account} {db : Db}
    (h : Reachable dir db) (hkinds : db.catalog.AllAccrual a.policyId) :
    Approvable a db ↔ KeepsFloors a db (db.available a) := by
  have hexact := snapshotsExact_iff.mp h.snapshotsExact a
  obtain ⟨hwf, -, -⟩ := h.datedExact
  constructor
  · rintro happrove r hr rfl hpending v hv
    obtain ⟨⟨row, db'⟩, hrun⟩ := happrove r hr rfl hpending "" none
    obtain ⟨r', v', hfind, -, hv', hfloor, -⟩ := RequestService.decide_cases hrun
    obtain ⟨hr', hid⟩ := Table.find?_eq_some.mp hfind
    obtain rfl := Table.eq_of_key hr' hr hid
    obtain rfl : v' = v := Option.some.inj (hv'.symm.trans hv)
    have hle := hfloor ⟨rfl, (hwf r' hr).accrual hkinds hv⟩
    rwa [hexact.available] at hle
  · rintro hfloors r hr rfl hpending actorId note
    obtain ⟨v, hv, -⟩ := (hwf r hr).version
    refine ⟨_, RequestService.run_decide (Table.find?_eq_some.mpr ⟨hr, rfl⟩) hpending hv ?_⟩
    intro
    rw [hexact.available]
    exact hfloors r hr rfl hpending v hv

/-! ## One step

What is available goes down by submissions only. A submission leaves its own
request approvable, by its check; whether it leaves the others so depends on the
floors of the versions they froze. -/

namespace Db

variable {db : Db} {r row : TimeOffRequest} {a : Account} {v : PolicyVersion} {kind : PolicyKind}
  {u : RequestUpdate} {approve : Bool}

/-- A submission takes what it holds. -/
theorem available_afterSubmit :
    (db.afterSubmit row kind).available a
      = db.available a
        - if kind ≠ .UNLIMITED ∧ row.account = a then row.totalMinutes else 0 := by
  unfold available
  rw [afterSubmit_ledger, hold_afterSubmit]
  omega

/-- A decision takes nothing: a debit releases as much. -/
theorem available_le_afterDecide (hlegs : LegsPosted db) (hwf : RequestsWellFormed db)
    (hr : r ∈ db.requests.rows) (hpending : r.status = .PENDING) :
    db.available a ≤ (db.afterDecide r approve v.kind u).available a := by
  have hpos := (hwf r hr).total_pos
  unfold available
  rw [balance_afterDecide hlegs hwf hr hpending, hold_afterDecide]
  by_cases hc : v.kind ≠ .UNLIMITED ∧ r.account = a
  · rw [if_pos hc]
    split <;> omega
  · rw [if_neg hc, if_neg fun h => hc ⟨h.1.2, h.2⟩]
    omega

/-- Nor does a cancellation. -/
theorem available_le_afterCancel (hlegs : LegsPosted db) (hwf : RequestsWellFormed db)
    (hr : r ∈ db.requests.rows) (hlive : r.status.LIVE = true) :
    db.available a ≤ (db.afterCancel r u).available a := by
  have hpos := (hwf r hr).total_pos
  unfold available
  rw [balance_afterCancel hlegs hwf hr hlive, hold_afterCancel]
  split <;> split <;> omega

end Db

namespace KeepsFloors

variable {a : Account} {db db' : Db} {r row : TimeOffRequest} {available more : Int}
  {u : RequestUpdate}

theorem mono (h : KeepsFloors a db available) (hle : available ≤ more) :
    KeepsFloors a db more :=
  fun r hr ha hpending v hv => (h r hr ha hpending v hv).trans hle

/-- Settling a request only makes fewer of them pending. -/
theorem settle (h : KeepsFloors a db available) (hcatalog : db'.catalog = db.catalog)
    (hrequests : db'.requests = db.requests.modify r.id (TimeOffRequest.update u) fun _ => rfl)
    (hstatus : u.status ≠ .PENDING) : KeepsFloors a db' available := by
  intro r' hr' ha hpending v hv
  rw [hrequests] at hr'
  obtain ⟨s, hs, rfl⟩ := Table.mem_modify.mp hr'
  by_cases hid : s.id = r.id
  · rw [if_pos hid] at hpending
    exact absurd hpending hstatus
  · rw [if_neg hid] at ha hpending hv
    exact h s hs ha hpending v (hcatalog ▸ hv)

/-- A new pending request keeps the floors when it keeps its own and the others'. -/
theorem insert_iff (hcatalog : db'.catalog = db.catalog) (hnew : ¬ db.requests.Has row.id)
    (hrequests : db'.requests = db.requests.insertNew row) (hpending : row.status = .PENDING) :
    KeepsFloors a db' available ↔ KeepsFloors a db available ∧
      (row.account = a → ∀ v ∈ db.catalog.version row.policyVersionId, v.floor ≤ available) := by
  have hrows : db'.requests.rows = db.requests.rows ++ [row] := by
    rw [hrequests, Table.rows_insertNew hnew]
  unfold KeepsFloors
  rw [hrows, hcatalog, List.forall_mem_append, List.forall_mem_singleton]
  exact and_congr_right fun _ => ⟨fun h ha => h ha hpending, fun h ha _ => h ha⟩

end KeepsFloors

/-- What a run of the workflow rests on. -/
structure WorkflowInvariant (dir : Directory) (a : Account) (db : Db) : Prop where
  reachable : Reachable dir db
  accrual : db.catalog.AllAccrual a.policyId

section steps

variable {dir : Directory} {a : Account} {db db' : Db}

/-- Everything a submission is, with what it resolved. -/
theorem submit_of_step {actor : Employee} {id : Uuid} {reason : String} {fields : RequestFields}
    (h : Step dir db (.submit actor id reason fields) db') :
    ∃ r row, Tx.run (RequestService.resolve dir fields) db = .ok (r, db) ∧
      row = RequestService.newRequest id actor.id reason fields r ∧
      RequestService.Resolves dir fields db r ∧ ¬ db.requests.Has row.id ∧
      (r.version.kind ≠ .UNLIMITED →
        r.version.floor ≤ (db.snapshotOf row.account).balanceMinutes
          - (db.snapshotOf row.account).pendingHoldMinutes - row.totalMinutes) ∧
      db' = db.afterSubmit row r.version.kind := by
  obtain ⟨row, hrun⟩ := map_snd_eq_ok h
  obtain ⟨r, db₁, hresolve, hcharge⟩ := Program.exec_bind_ok.mp (Api.submit_cases hrun)
  obtain ⟨hres, rfl⟩ := RequestService.resolve_cases hresolve
  obtain ⟨rfl, hnew, hfloor, rfl⟩ := RequestService.charge_cases hcharge
  exact ⟨r, _, hresolve, rfl, hres, hnew, hfloor, rfl⟩

/-- A submission keeps the floors exactly when it spares the requests that are
pending already. -/
theorem keepsFloors_submit (hinv : WorkflowInvariant dir a db) {actor : Employee} {id : Uuid}
    {reason : String} {fields : RequestFields} (hfloors : KeepsFloors a db (db.available a))
    (h : Step dir db (.submit actor id reason fields) db') :
    KeepsFloors a db' (db'.available a) ↔
      (Op.submit actor id reason fields).SparesPending dir a db := by
  obtain ⟨r, row, hresolve, hrow, hres, hnew, hfloor, rfl⟩ := submit_of_step h
  have hguard : (Op.submit actor id reason fields).SparesPending dir a db ↔
      (row.account = a → KeepsFloors a db (db.available a - row.totalMinutes)) := by
    simp only [Op.SparesPending]
    rw [hresolve, hrow]
    rfl
  rw [hguard, KeepsFloors.insert_iff Db.afterSubmit_catalog hnew Db.afterSubmit_requests
    (by rw [hrow]; rfl), Db.available_afterSubmit]
  by_cases ha : row.account = a
  · -- the version resolved is one of the policy, and the one the request froze
    obtain ⟨hmem, hpolicy, -, -⟩ := Catalog.versionEffectiveOn_spec hres.version
    have hkind : r.version.kind ≠ .UNLIMITED := by
      have hpolicyId : r.assignment.policyId = a.policyId := by
        rw [← ha, hrow]
        rfl
      rw [hinv.accrual r.version hmem (hpolicy.trans hpolicyId)]
      nofun
    have hfrozen : db.catalog.version row.policyVersionId = some r.version := by
      rw [hrow]
      exact Catalog.version_eq_some.mpr ⟨hmem, rfl⟩
    have hown := hfloor hkind
    rw [(snapshotsExact_iff.mp hinv.reachable.snapshotsExact _).available, ha] at hown
    rw [if_pos ⟨hkind, ha⟩]
    refine ⟨fun hboth _ => hboth.1, fun hspares => ⟨hspares ha, fun _ v hv => ?_⟩⟩
    obtain rfl : r.version = v := Option.some.inj (hfrozen.symm.trans hv)
    exact hown
  · rw [if_neg fun hc => ha hc.2, Int.sub_zero]
    exact ⟨fun _ hc => absurd hc ha, fun _ => ⟨hfloors, fun hc => absurd hc ha⟩⟩

/-- Decisions and cancellations keep them. -/
theorem keepsFloors_of_other (hinv : WorkflowInvariant dir a db) {op : Op}
    (hop : op.IsWorkflow) (hsubmit : ∀ actor id reason fields, op ≠ .submit actor id reason fields)
    (hfloors : KeepsFloors a db (db.available a)) (h : Step dir db op db') :
    KeepsFloors a db' (db'.available a) := by
  obtain ⟨hwf, hlegs, -⟩ := hinv.reachable.datedExact
  cases effect_of_step h with
  | submit => exact absurd rfl (hsubmit _ _ _ _)
  | @decide actor id approve note r v hfind hpending hv _ =>
    obtain ⟨hr, rfl⟩ := Table.find?_eq_some.mp hfind
    have hstatus : (RequestService.decision approve actor.id note).status ≠ .PENDING := by
      cases approve <;> nofun
    exact (hfloors.settle Db.afterDecide_catalog Db.afterDecide_requests hstatus).mono
      (Db.available_le_afterDecide hlegs hwf hr hpending)
  | @cancel actor id today r hfind hlive _ =>
    obtain ⟨hr, rfl⟩ := Table.find?_eq_some.mp hfind
    have hstatus : (RequestService.cancellation r.status actor.id).status ≠ .PENDING := nofun
    exact (hfloors.settle Db.afterCancel_catalog Db.afterCancel_requests hstatus).mono
      (Db.available_le_afterCancel hlegs hwf hr hlive)
  | catalog => exact absurd hop not_false
  | runScheduled => exact absurd hop not_false
  | onPayrollProcessed => exact absurd hop not_false
  | rollover => exact absurd hop not_false

end steps

/-- **Held requests stay approvable while submissions spare them**: from a state
where nothing is pending on an account of a policy with balances, every pending
request can be approved throughout a run of submissions, decisions and
cancellations exactly when every submission on the account leaves the floors of
the requests that are pending by then. -/
theorem approvable_iff {dir : Directory} {a : Account} {db₀ db : Db} {l : List (Db × Op × Db)}
    (h₀ : Reachable dir db₀) (hkinds : db₀.catalog.AllAccrual a.policyId)
    (hidle : ∀ r ∈ db₀.requests.rows, r.account = a → r.status ≠ .PENDING)
    (h : Run dir db₀ l db) (hops : ∀ x ∈ l, x.2.1.IsWorkflow) :
    (∀ x ∈ l, Approvable a x.2.2) ↔ ∀ x ∈ l, x.2.1.SparesPending dir a x.1 := by
  have hstart : WorkflowInvariant dir a db₀ := ⟨h₀, hkinds⟩
  have hnone : Approvable a db₀ := fun r hr ha hpending => absurd hpending (hidle r hr ha)
  have hinv {s t : Db} {op : Op} (hs : WorkflowInvariant dir a s) (hop : op.IsWorkflow)
      (hstep : Step dir s op t) : WorkflowInvariant dir a t := by
    refine ⟨hs.reachable.step hstep, ?_⟩
    rw [(effect_of_step hstep).catalog_eq hop.not_edits]
    exact hs.accrual
  have hiff {s : Db} (hs : WorkflowInvariant dir a s) :
      Approvable a s ↔ KeepsFloors a s (s.available a) :=
    approvable_iff_keepsFloors hs.reachable hs.accrual
  refine (h.strengthen (Q := fun _ op _ => op.IsWorkflow) hops).guard_iff
    (WorkflowInvariant dir a) ⟨hstart, hnone⟩ ?_ ?_
  · rintro s op t ⟨hs, happrove⟩ hguard ⟨hstep, hop⟩
    have ht := hinv hs hop hstep
    refine ⟨ht, (hiff ht).mpr ?_⟩
    have hfloors := (hiff hs).mp happrove
    cases op with
    | submit => exact (keepsFloors_submit hs hfloors hstep).mpr hguard
    | _ => exact keepsFloors_of_other hs hop nofun hfloors hstep
  · rintro s op t ⟨hs, happrove⟩ ⟨hstep, hop⟩ hafter
    have hfloors := (hiff hs).mp happrove
    cases op with
    | submit =>
      exact (keepsFloors_submit hs hfloors hstep).mp ((hiff (hinv hs hop hstep)).mp hafter)
    | _ => trivial

namespace Demo

/-- Ada has accrued by `asOf` on a policy that allows a debt from June on. -/
def lenientFromJune (asOf : Date) : List Op :=
  monthlyDay none ++
    [ .runScheduled "cmp_warp_demo" asOf,
      .catalog (.updatePolicy policyId nextVersionId none
        { effectiveFrom := ofYmd 2026 6 1, kind := .ACCRUAL, allowNegative := true
          negativeFloorMinutes := -1000 }
        [{ method := .TIME, amount := 1, unit := .DAY, frequency := some .MONTHLY
           accruesAt := some .START_OF_PERIOD, id := nextRuleId }]) ]

/-- She asks for a day before June, and for a day in June. -/
def beforeAndInJune : List Op :=
  [ dayOff requestId (ofYmd 2026 3 2), dayOff otherRequestId (ofYmd 2026 6 2) ]

/-- The state she asks in, the steps of her requests, and the state after them. -/
def askAround (asOf : Date) : Except Error (Db × List (Db × Op × Db) × Db) := do
  let (_, asked) ← Op.runAll directory (lenientFromJune asOf) .empty
  let (l, db) ← Op.runAll directory beforeAndInJune asked
  return (asked, l, db)

theorem askAround_ok {asOf : Date} {asked db : Db} {l : List (Db × Op × Db)}
    (h : askAround asOf = .ok (asked, l, db)) :
    Reachable directory asked ∧ Run directory asked l db := by
  obtain ⟨⟨l₀, asked₀⟩, hasked, h⟩ := Except.bind_eq_ok.mp h
  obtain ⟨⟨l₁, db₁⟩, hops, h⟩ := Except.bind_eq_ok.mp h
  cases h
  exact ⟨⟨l₀, run_of_runAll hasked⟩, run_of_runAll hops⟩

end Demo

/-- With two days accrued, both requests can be approved at all times. -/
theorem both_approvable :
    ∃ asked l db, Reachable Demo.directory asked ∧ Run Demo.directory asked l db ∧
      l.length = 2 ∧ ∀ x ∈ l, Approvable Demo.account x.2.2 := by
  have hrun : (Demo.askAround (ofYmd 2026 2 28)).passes (fun r =>
      r.1.catalog.AllAccrual Demo.policyId ∧ r.1.requests.rows = [] ∧
        (∀ x ∈ r.2.1, x.2.1.IsWorkflow ∧ x.2.1.SparesPending Demo.directory Demo.account x.1) ∧
        r.2.1.length = 2) = true := by decide +kernel
  obtain ⟨⟨asked, l, db⟩, hr, htest⟩ := Except.ok_of_passes hrun
  obtain ⟨hkinds, hnone, hsteps, hlength⟩ := of_decide_eq_true htest
  obtain ⟨hreach, hl⟩ := Demo.askAround_ok hr
  have hidle : ∀ r ∈ asked.requests.rows, r.account = Demo.account → r.status ≠ .PENDING :=
    fun r hmem => absurd (hnone ▸ hmem) List.not_mem_nil
  exact ⟨asked, l, db, hreach, hl, hlength,
    (approvable_iff hreach hkinds hidle hl fun x hx => (hsteps x hx).1).mpr
      fun x hx => (hsteps x hx).2⟩

/-- With one day accrued, the day in June takes what the day in March holds. -/
theorem held_request_unapprovable :
    ∃ asked l db, Reachable Demo.directory asked ∧ asked.catalog.AllAccrual Demo.policyId ∧
      asked.requests.rows = [] ∧ asked.hold Demo.account = 0 ∧
      Run Demo.directory asked l db ∧ (∀ x ∈ l, x.2.1.IsWorkflow) ∧
      ∃ r ∈ db.requests.rows, r.account = Demo.account ∧ r.status = .PENDING ∧
        Tx.run (RequestService.decide r.id true "adm_lindsey" none) db = .error
          (.request "The balance changed and can no longer cover this request.") := by
  have hrun : (Demo.askAround (ofYmd 2026 1 31)).passes (fun r =>
      r.1.catalog.AllAccrual Demo.policyId ∧ r.1.requests.rows = [] ∧
        r.1.hold Demo.account = 0 ∧ (∀ x ∈ r.2.1, x.2.1.IsWorkflow) ∧
        ∃ request ∈ r.2.2.requests.rows, request.account = Demo.account ∧
          request.status = .PENDING ∧
          (Tx.run (RequestService.decide request.id true "adm_lindsey" none) r.2.2).map Prod.fst
            = .error (.request "The balance changed and can no longer cover this request."))
      = true := by decide +kernel
  obtain ⟨⟨asked, l, db⟩, hr, htest⟩ := Except.ok_of_passes hrun
  obtain ⟨hkinds, hnone, hhold, hops, r, hmem, ha, hpending, herror⟩ := of_decide_eq_true htest
  obtain ⟨hreach, hl⟩ := Demo.askAround_ok hr
  exact ⟨asked, l, db, hreach, hkinds, hnone, hhold, hl, hops, r, hmem, ha, hpending,
    Except.map_eq_error.mp herror⟩

end TimeOff
