import TimeOff.Accrual.Closing
import TimeOff.Accrual.Payroll
import TimeOff.Isolation.Operations

/-!
# Sources identify events

An entry whose source is taken is dropped without a word, so nothing is lost
only if entries of one source are entries of one event. `LedgerEvent` says what
the events are, over identifiers that contain no separator and payroll run ids
that contain anything; `Source` adds the cap loss that may go with one. The
texts determine them (`Source.key_injective`), and they are the texts that the
operations post under (`handed_of_step`).

A source id is taken apart from its end. What stands behind its last separator
(`LedgerEvent.tail`) contains none itself: a date, a key, a year or the name of
a leg. What stands before it (`LedgerEvent.stem`) is determined with it, and is
taken apart again where the event has more parts. For payroll this matters,
since the run id is free text and may contain separators: it comes first and the
parts behind it have a fixed number of separators. A cap loss has `forfeiture`
for its tail, which no event has (`tail_ne_forfeiture`).
-/

namespace TimeOff

open Gregorian AccrualService RequestService

/-- A text without the separator of keys. -/
structure Identifier where
  text : String
  plain : ':' ∉ text.toList
deriving DecidableEq, Repr

/-- Identifiers are their texts. -/
theorem Identifier.text_injective {a b : Identifier} (h : a.text = b.text) : a = b := by
  cases a
  cases b
  cases h
  rfl

/-- A key contains no separator. -/
def Uuid.identifier (id : Uuid) : Identifier := ⟨id.text, id.colon_notMem⟩

/-- The two entries of a closing. -/
inductive ClosingLeg
  | expiration
  | carryover
deriving DecidableEq, Repr

/-- The suffix of a leg. -/
def ClosingLeg.suffix : ClosingLeg → String
  | .expiration => "expiration"
  | .carryover => "carryover"

theorem ClosingLeg.colon_notMem_suffix (leg : ClosingLeg) :
    ':' ∉ leg.suffix.toList ∧ leg.suffix ≠ "forfeiture" := by
  cases leg <;> decide

/-- The two legs are told apart. -/
theorem ClosingLeg.suffix_injective : Function.Injective ClosingLeg.suffix := by
  intro leg leg' h
  cases leg <;> cases leg' <;> revert h <;> decide

/-- What an entry of the ledger is posted for. -/
inductive LedgerEvent
  | scheduled (assignmentId : Identifier) (ruleId : Uuid) (periodStart : Date)
  | payroll (payrollRunId : String) (employeeId : Identifier) (ruleId : Uuid)
  | closing (policyId employeeId : Identifier) (periodEnd : Date) (leg : ClosingLeg)
  | debit (requestId : Identifier) (year : Int)
  | reversal (requestId : Identifier) (year : Int)
deriving DecidableEq, Repr

namespace LedgerEvent

/-- Under which type an event is posted. -/
def sourceType : LedgerEvent → SourceType
  | .scheduled .. => .SCHEDULED_ACCRUAL
  | .payroll .. => .PAYROLL_ACCRUAL
  | .closing .. => .PERIOD_ROLLOVER
  | .debit .. => .REQUEST
  | .reversal .. => .REQUEST_CANCELLATION

/-- What stands before the last separator of the source id. -/
def stem : LedgerEvent → String
  | .scheduled assignmentId ruleId _ => assignmentId.text ++ ":" ++ ruleId.text
  | .payroll payrollRunId employeeId _ => payrollRunId ++ ":" ++ employeeId.text
  | .closing policyId employeeId periodEnd _ =>
    policyId.text ++ ":" ++ employeeId.text ++ ":" ++ isoformat periodEnd
  | .debit requestId _ | .reversal requestId _ => requestId.text

/-- What stands behind it. -/
def tail : LedgerEvent → String
  | .scheduled _ _ periodStart => isoformat periodStart
  | .payroll _ _ ruleId => ruleId.text
  | .closing _ _ _ leg => leg.suffix
  | .debit _ year | .reversal _ year => Text.decimal year

/-- The source id of an event. -/
def sourceId (event : LedgerEvent) : String := event.stem ++ ":" ++ event.tail

variable {e f : LedgerEvent}

/-- The tail is what stands behind the last separator. -/
theorem colon_notMem_tail (event : LedgerEvent) : ':' ∉ event.tail.toList := by
  cases event with
  | scheduled => exact colon_notMem_isoformat _
  | payroll _ _ ruleId => exact ruleId.colon_notMem
  | closing _ _ _ leg => exact leg.colon_notMem_suffix.1
  | debit _ year => exact Text.notMem_decimal (by decide) (by decide) year
  | reversal _ year => exact Text.notMem_decimal (by decide) (by decide) year

/-- No event looks like the loss of another. -/
theorem tail_ne_forfeiture (event : LedgerEvent) : event.tail ≠ "forfeiture" := by
  have hyear : ∀ year, Text.decimal year ≠ "forfeiture" := by
    intro year h
    have hletter := Text.notMem_decimal (c := 'f') (by decide) (by decide) year
    rw [h] at hletter
    exact hletter (by decide)
  cases event with
  | scheduled => exact isoformat_ne_forfeiture _
  | payroll _ _ ruleId => exact ruleId.text_ne_forfeiture
  | closing _ _ _ leg => exact leg.colon_notMem_suffix.2
  | debit _ year => exact hyear year
  | reversal _ year => exact hyear year

/-- Type and id of a source determine the event. -/
theorem eq_of_source (htype : e.sourceType = f.sourceType) (hid : e.sourceId = f.sourceId) :
    e = f := by
  obtain ⟨hstem, htail⟩ := Text.append_sep_inj' (x := ':') e.colon_notMem_tail f.colon_notMem_tail
    hid
  cases e with
  | scheduled assignmentId ruleId periodStart =>
    cases f with
    | scheduled assignmentId' ruleId' periodStart' =>
      obtain ⟨hassignment, hrule⟩ := Text.append_sep_inj (x := ':') assignmentId.plain
        assignmentId'.plain hstem
      rw [Identifier.text_injective hassignment, Uuid.text_injective hrule, isoformat_inj htail]
    | _ => cases htype
  | payroll payrollRunId employeeId ruleId =>
    cases f with
    | payroll payrollRunId' employeeId' ruleId' =>
      -- the run id may contain separators, the employee id behind it none
      obtain ⟨hrun, hemployee⟩ := Text.append_sep_inj' (x := ':') employeeId.plain
        employeeId'.plain hstem
      rw [hrun, Identifier.text_injective hemployee, Uuid.text_injective htail]
    | _ => cases htype
  | closing policyId employeeId periodEnd leg =>
    cases f with
    | closing policyId' employeeId' periodEnd' leg' =>
      obtain ⟨howned, hday⟩ := Text.append_sep_inj' (x := ':') (colon_notMem_isoformat periodEnd)
        (colon_notMem_isoformat periodEnd') hstem
      obtain ⟨hpolicy, hemployee⟩ := Text.append_sep_inj (x := ':') policyId.plain policyId'.plain
        howned
      have hleg : leg = leg' := ClosingLeg.suffix_injective htail
      rw [Identifier.text_injective hpolicy, Identifier.text_injective hemployee,
        isoformat_inj hday, hleg]
    | _ => cases htype
  | debit requestId year =>
    cases f with
    | debit requestId' year' =>
      rw [Identifier.text_injective hstem, Text.decimal_inj htail]
    | _ => cases htype
  | reversal requestId year =>
    cases f with
    | reversal requestId' year' =>
      rw [Identifier.text_injective hstem, Text.decimal_inj htail]
    | _ => cases htype

end LedgerEvent

/-- An event's own entry, or the cap loss that goes with it. -/
inductive Source
  | own (event : LedgerEvent)
  | forfeiture (event : LedgerEvent)
deriving DecidableEq, Repr

/-- The key that an entry is posted under. -/
def Source.key : Source → SourceKey
  | .own event => (event.sourceType, event.sourceId)
  | .forfeiture event => (event.sourceType, event.sourceId ++ ":forfeiture")

/-- So no source id of an event is one of a loss. -/
theorem LedgerEvent.sourceId_ne (event : LedgerEvent) (s : String) :
    event.sourceId ≠ s ++ ":forfeiture" :=
  ne_append_forfeiture event.colon_notMem_tail event.tail_ne_forfeiture

/-- Keys of different events differ, and those of a credit and a loss. -/
theorem Source.key_injective : Function.Injective Source.key := by
  intro s t h
  cases s with
  | own event =>
    cases t with
    | own event' =>
      obtain ⟨htype, hid⟩ := Prod.mk.inj h
      rw [LedgerEvent.eq_of_source htype hid]
    | forfeiture event' => exact absurd (Prod.mk.inj h).2 (event.sourceId_ne _)
  | forfeiture event =>
    cases t with
    | own event' => exact absurd (Prod.mk.inj h).2.symm (event'.sourceId_ne _)
    | forfeiture event' =>
      obtain ⟨htype, hid⟩ := Prod.mk.inj h
      rw [LedgerEvent.eq_of_source htype ((String.append_left_inj _).mp hid)]

/-! ## What operations post

Every entry was handed to `post` with a source of one of the formats. The
formats are told apart by the source type and, within a type, by where the
separators stand. -/

/-- The posting is the credit of an event. -/
inductive Posting.Records : Posting → LedgerEvent → Prop
  | scheduled (s : RuleScope) (period : Period) :
      Records (s.posting period) (.scheduled s.assignment.id.identifier s.rule.id period.start)
  | payroll (companyId payrollRunId : String) (periodEnd : Date) (employeeId : Identifier)
      (minutesWorked : Int) (assignment : PolicyAssignment) (version : PolicyVersion)
      (rule : AccrualRule) (amount : Int) :
      Records (payrollPosting companyId payrollRunId periodEnd employeeId.text minutesWorked
        assignment version rule amount) (.payroll payrollRunId employeeId rule.id)

/-- The entry is handed to `post` for a source: by the accrual jobs, the
rollover, an approval or a cancellation. -/
inductive LedgerEntry.HandedFor : LedgerEntry → Source → Prop
  | credit {p : Posting} {event : LedgerEvent} (h : p.Records event) :
      HandedFor p.credit (.own event)
  | loss {p : Posting} {event : LedgerEvent} (h : p.Records event) (cap forfeited : Int) :
      HandedFor (p.forfeiture cap forfeited) (.forfeiture event)
  | closing {companyId : String} {assignment : PolicyAssignment} {version : PolicyVersion}
      {periodEnd : Date} {entry : RolloverEntry} {employeeId : Identifier} {leg : ClosingLeg}
      (hemployee : assignment.employeeId = employeeId.text)
      (hleg : entry.sourceSuffix = leg.suffix) :
      HandedFor (RolloverService.closingEntry companyId assignment version periodEnd entry)
        (.own (.closing assignment.policyId.identifier employeeId periodEnd leg))
  | debit (request : TimeOffRequest) (leg : Leg) :
      HandedFor (request.debit leg) (.own (.debit request.id.identifier leg.year))
  | reversal (request : TimeOffRequest) (leg : Leg) :
      HandedFor (request.reversal leg) (.own (.reversal request.id.identifier leg.year))

/-- A posting has the keys of its event. -/
theorem Posting.Records.credit_key {p : Posting} {event : LedgerEvent} (h : p.Records event) :
    p.credit.key = (Source.own event).key ∧ p.lossKey = (Source.forfeiture event).key := by
  cases h with
  | scheduled => exact ⟨rfl, rfl⟩
  | payroll => exact ⟨rfl, rfl⟩

/-- Entries are posted under the key of their source. -/
theorem LedgerEntry.HandedFor.key_eq {e : LedgerEntry} {s : Source} (h : e.HandedFor s) :
    e.key = s.key := by
  cases h with
  | credit h => exact h.credit_key.1
  | loss h cap forfeited => exact h.credit_key.2
  | @closing companyId assignment version periodEnd entry employeeId leg hemployee hleg =>
    show (SourceType.PERIOD_ROLLOVER, RolloverService.closingSource assignment.policyId
      assignment.employeeId periodEnd entry.sourceSuffix) = _
    rw [hemployee, hleg]
    rfl
  | debit => rfl
  | reversal => rfl

/-- Entries of one key were handed over for one source. -/
theorem LedgerEntry.HandedFor.source_eq {e f : LedgerEntry} {s t : Source} (he : e.HandedFor s)
    (hf : f.HandedFor t) (h : e.key = f.key) : s = t :=
  Source.key_injective (he.key_eq.symm.trans (h.trans hf.key_eq))

/-- What a posting posts is handed over for its event. -/
theorem Posting.Posts.handed {p : Posting} {event : LedgerEvent} {e : LedgerEntry}
    (h : p.Posts e) (hp : p.Records event) : ∃ s, e.HandedFor s := by
  rcases h with rfl | ⟨cap, -, forfeited, -, rfl⟩
  · exact ⟨_, .credit hp⟩
  · exact ⟨_, .loss hp cap forfeited⟩

/-- The entries of a closing are its legs. -/
theorem suffix_of_plan {balance : Int} {periodEnd : Date} {cap : Option Int} {expires : Bool}
    {entry : RolloverEntry} (h : entry ∈ plan balance periodEnd cap expires) :
    ∃ leg : ClosingLeg, entry.sourceSuffix = leg.suffix := by
  unfold plan at h
  split at h
  · cases h
  split at h
  · cases h
  rcases List.mem_cons.mp h with rfl | h
  · exact ⟨.expiration, rfl⟩
  · split at h
    · rw [List.mem_singleton.mp h]
      exact ⟨.carryover, rfl⟩
    · cases h

/-- The directory's employee ids contain no separator. -/
def Directory.Plain (dir : Directory) : Prop :=
  ∀ employee ∈ dir.employees.rows, ':' ∉ employee.id.toList

/-- An assignment is of an employee of the directory. -/
theorem Db.References.identifier {dir : Directory} {db : Db} (h : db.References dir)
    (hdir : dir.Plain) {a : PolicyAssignment} (ha : a ∈ db.catalog.assignments.rows) :
    ∃ employeeId : Identifier, a.employeeId = employeeId.text := by
  have hknown : dir.employeeCompany a.employeeId = some a.companyId :=
    (h.catalog.assignments a ha).1.2
  obtain ⟨employee, hemployee, -⟩ := Option.map_eq_some_iff.mp hknown
  obtain ⟨hmem, hid⟩ := Table.find?_eq_some.mp hemployee
  exact ⟨⟨a.employeeId, hid ▸ hdir employee hmem⟩, rfl⟩

variable {dir : Directory} {db db' : Db} {op : Op}

/-- Every posting of a job is the credit of an event. -/
theorem records_of_postings (op : Op) {ps : List Posting} {p : Posting} (href : db.References dir)
    (hdir : dir.Plain) (h : op.postings dir db.catalog = .ok ps) (hp : p ∈ ps) :
    ∃ event, p.Records event := by
  cases op with
  | runScheduled companyId asOf =>
    obtain ⟨s, period, hs⟩ := mem_scheduledPlan h hp
    rw [hs.posting_eq]
    exact ⟨_, .scheduled s period⟩
  | onPayrollProcessed companyId payrollRunId periodEnd minutesByEmployee =>
    obtain ⟨entry, -, employee, assignment, version, rule, hpaid⟩ := mem_payrollPlan h hp
    obtain ⟨hassignment, hcovers⟩ := List.mem_filter.mp hpaid.covered
    obtain ⟨-, hemployee, -⟩ := of_decide_eq_true hcovers
    obtain ⟨employeeId, htext⟩ := href.identifier hdir hassignment
    rw [hemployee entry.1 rfl] at htext
    rw [(payrollDecision_eq_some hpaid.decision).2.2.2, htext]
    exact ⟨_, .payroll companyId payrollRunId periodEnd employeeId entry.2 assignment version rule
      p.amount⟩
  | catalog | submit | decide | cancel | rollover =>
    cases h
    cases hp

/-- A step hands its entries to `post`, each for a source. -/
theorem handed_of_step (href : db.References dir) (hdir : dir.Plain) (h : Step dir db op db') :
    ∃ es, db'.ledger = (db.posts es).ledger ∧ ∀ e ∈ es, ∃ s, e.HandedFor s := by
  cases effect_of_step h with
  | catalog => exact ⟨[], rfl, fun e he => absurd he List.not_mem_nil⟩
  | submit =>
    exact ⟨[], Db.afterSubmit_ledger, fun e he => absurd he List.not_mem_nil⟩
  | @decide actor id approve note r v =>
    rw [Db.afterDecide_ledger]
    unfold Db.afterDebits
    split
    · refine ⟨r.debits, rfl, fun e he => ?_⟩
      obtain ⟨leg, -, rfl⟩ := List.mem_map.mp he
      exact ⟨_, .debit r leg⟩
    · exact ⟨[], rfl, fun e he => absurd he List.not_mem_nil⟩
  | @cancel actor id today r =>
    rw [Db.afterCancel_ledger]
    split
    · exact ⟨[], rfl, fun e he => absurd he List.not_mem_nil⟩
    · refine ⟨r.reversals, rfl, fun e he => ?_⟩
      obtain ⟨leg, -, rfl⟩ := List.mem_map.mp he
      exact ⟨_, .reversal r leg⟩
  | @runScheduled companyId asOf ps outcome hplan =>
    obtain ⟨es, heq, hes⟩ := Db.postAccruals_eq_posts ps db
    rw [heq]
    refine ⟨es, rfl, fun e he => ?_⟩
    obtain ⟨p, hp, hposts⟩ := hes e he
    -- what a plan posts records an event of the job
    obtain ⟨event, hrecords⟩ := records_of_postings (.runScheduled companyId asOf) href hdir
      hplan hp
    exact hposts.handed hrecords
  | @onPayrollProcessed companyId payrollRunId periodEnd minutesByEmployee ps outcome hplan =>
    obtain ⟨es, heq, hes⟩ := Db.postAccruals_eq_posts ps db
    rw [heq]
    refine ⟨es, rfl, fun e he => ?_⟩
    obtain ⟨p, hp, hposts⟩ := hes e he
    obtain ⟨event, hrecords⟩ := records_of_postings
      (.onPayrollProcessed companyId payrollRunId periodEnd minutesByEmployee) href hdir hplan hp
    exact hposts.handed hrecords
  | @rollover companyId asOf outcome =>
    obtain ⟨es, heq, hes⟩ := Db.closeAccounts_eq_posts companyId (RolloverService.closingDay asOf)
      (db.catalog.assignmentsCovering companyId none (RolloverService.closingDay asOf)) db
    rw [heq]
    refine ⟨es, rfl, fun e he => ?_⟩
    obtain ⟨assignment, hassignment, version, balance, -, hclosing⟩ := hes e he
    obtain ⟨entry, hentry, rfl⟩ := List.mem_map.mp hclosing
    -- a closing is for an employee of the directory, whose id is plain
    obtain ⟨employeeId, htext⟩ := href.identifier hdir (List.mem_filter.mp hassignment).1
    obtain ⟨leg, hleg⟩ := suffix_of_plan hentry
    exact ⟨_, .closing htext hleg⟩

/-- Every entry of the ledger was handed to `post` for a source. -/
theorem Reachable.handed (h : Reachable dir db) (hdir : dir.Plain) :
    ∀ e ∈ db.ledger.rows, ∃ s, e.HandedFor s := by
  obtain ⟨l, hl⟩ := h
  refine (hl.invariant (I := fun db => db.References dir ∧ ∀ e ∈ db.ledger.rows,
    ∃ s, e.HandedFor s) ⟨.empty, fun e he => absurd he List.not_mem_nil⟩ ?_).2
  intro t op u ⟨href, hrows⟩ hstep
  obtain ⟨_, -, hchange⟩ := change_of_step href hstep
  obtain ⟨es, hledger, hes⟩ := handed_of_step href hdir hstep
  refine ⟨hchange.references, fun e he => ?_⟩
  rw [hledger] at he
  exact (Db.mem_posts he).elim (hrows e) (hes e)

/-- Sources identify events: a key tells the event and whether the entry is its
cap loss. So an entry that is dropped because its key is taken meets an entry of
the same event. -/
theorem sources_identify_events :
    Function.Injective Source.key ∧
    (∀ (e f : LedgerEntry) (s t : Source), e.HandedFor s → f.HandedFor t → e.key = f.key →
      s = t) ∧
    ∀ (dir : Directory) (db db' : Db) (op : Op), dir.Plain → Reachable dir db →
      Step dir db op db' → ∃ es, db'.ledger = (db.posts es).ledger ∧ ∀ e ∈ es, ∃ s, e.HandedFor s ∧
        ∀ r ∈ db'.ledger.rows, r.key = e.key → r.HandedFor s := by
  refine ⟨Source.key_injective, fun e f s t he hf h => he.source_eq hf h, ?_⟩
  intro dir db db' op hdir hreach hstep
  obtain ⟨es, hledger, hes⟩ := handed_of_step hreach.references hdir hstep
  refine ⟨es, hledger, fun e he => ?_⟩
  obtain ⟨s, hs⟩ := hes e he
  refine ⟨s, hs, fun r hr hkey => ?_⟩
  obtain ⟨t, ht⟩ := (hreach.step hstep).handed hdir r hr
  rw [hs.source_eq ht hkey.symm]
  exact ht

/-- Two months of accruals: what the second job posts, and finds posted. -/
theorem sources_identify_events_monthly :
    ∃ db db', db'.ledger.rows.length = 2 ∧
      Step Demo.directory db (.runScheduled "cmp_warp_demo" (ofYmd 2026 2 28)) db' ∧
      ∃ es, db'.ledger = (db.posts es).ledger ∧ ∀ e ∈ es, ∃ s, e.HandedFor s ∧
        ∀ r ∈ db'.ledger.rows, r.key = e.key → r.HandedFor s := by
  have hrun : (do
      let january ← Op.runAll Demo.directory
        (Demo.monthlyDay none ++ [.runScheduled "cmp_warp_demo" (ofYmd 2026 1 31)]) .empty
      let february ← Op.run Demo.directory (.runScheduled "cmp_warp_demo" (ofYmd 2026 2 28))
        january.2
      return (january, february) : Except Error _).passes
        (fun r => r.2.ledger.rows.length = 2) = true := by
    decide +kernel
  obtain ⟨r, hrun, hlength⟩ := Except.ok_of_passes hrun
  obtain ⟨january, hops, hrun⟩ := Except.bind_eq_ok.mp hrun
  obtain ⟨february, hstep, hrun⟩ := Except.bind_eq_ok.mp hrun
  cases hrun
  exact ⟨january.2, february, of_decide_eq_true hlength, hstep,
    sources_identify_events.2.2 Demo.directory january.2 february _
      (by unfold Directory.Plain; decide) ⟨january.1, run_of_runAll hops⟩ hstep⟩

end TimeOff
