import TimeOff.Accrual.JobRuns
import TimeOff.Concurrency.Snapshot
import TimeOff.Lib.Unique

/-!
# The job history side by side

A job counts the entries it was told to be new, while others post and commit. An
entry that was new then is new at the commit (`ledger_keys`), so a transaction
appends to the ledger what it counted (`replay_ledger`), and the reports of the
jobs still add up to the ledger, however jobs and request routes are
interleaved: `job_runs_audited_interleaved`.

The proof has a part about the ledger and a part about programs.

- An insert holds its source under a lock until the end of its transaction, so
  between an insert that was told to be new and the commit nobody else can
  commit that source. This instantiates the library about unique keys.
- The log of a job is `Counted`: the number it carries along is the number of
  entries it has been told to be new. This is proved down the structure of the
  job (`Counts`), for the statement of a posting, for binds and for loops; at
  the end the job records the number (`JobLog`). The log of a request route
  records nothing and creates no entry of a job (`Stmt.ByRoute`).

A commit then adds to the ledger and to the job history what goes together
(`JobRunsAudited.fire`), and everything else leaves both alone.
-/

namespace TimeOff

open Gregorian AccrualService

/-! ## What a log adds

The entries that the inserts of a log have created, as each was told, and the
job runs it has recorded. -/

namespace Stmt

/-- The source of the entry a statement inserts. -/
def source? (st : Stmt) : Option SourceKey := st.inserted?.map LedgerEntry.key

/-- The outcome a statement records. -/
def recorded? : Stmt → Option JobRun
  | .insertJobRun run => some run
  | _ => none

/-- Only an insert into the ledger has a source. -/
theorem source?_eq_some {st : Stmt} {k : SourceKey} :
    st.source? = some k ↔ ∃ e, st = .insertLedgerEntry e ∧ e.key = k := by
  unfold source?
  cases st with
  | insertLedgerEntry e => simp [inserted?]
  | _ => simp [inserted?]

end Stmt

/-- A source that is free is inserted under its lock. -/
theorem ledger_keys :
    KeyLocks database (fun db => Table.Has db.ledger) Stmt.source? Lock.entry where
  has_apply := Stmt.has_ledger_apply.trans (or_congr_right Stmt.source?_eq_some.symm)
  needs {st v r k} _ hins hfree := by
    obtain ⟨e, rfl, rfl⟩ := Stmt.source?_eq_some.mp hins
    exact if_neg hfree

/-- The entry that a logged statement inserted, if it was new. -/
def created? (y : Stmt × Db) : Option LedgerEntry :=
  y.1.inserted?.filter fun e => ¬ Table.Has y.2.ledger e.key

/-- An entry whose source was taken is not created. -/
theorem created?_of_has {e : LedgerEntry} {v : Db} (h : Table.Has v.ledger e.key) :
    created? (.insertLedgerEntry e, v) = none :=
  Option.filter_some_neg (by simpa using h)

/-- One whose source was free is. -/
theorem created?_of_new {e : LedgerEntry} {v : Db} (h : ¬ Table.Has v.ledger e.key) :
    created? (.insertLedgerEntry e, v) = some e :=
  Option.filter_some_pos (by simpa using h)

/-- The entries that a transaction has been told to be new. -/
def createdIn (log : List (Stmt × Db)) : List LedgerEntry := log.filterMap created?

/-- The outcomes it has recorded. -/
def recordedIn (log : List (Stmt × Db)) : List JobRun := log.filterMap fun y => y.1.recorded?

section logs

variable {log log' : List (Stmt × Db)} {db : Db}

theorem createdIn_append : createdIn (log ++ log') = createdIn log ++ createdIn log' :=
  List.filterMap_append

theorem recordedIn_append : recordedIn (log ++ log') = recordedIn log ++ recordedIn log' :=
  List.filterMap_append

/-- What a transaction commits to the ledger is what it was told to be new. -/
theorem replay_ledger
    (h : Decided database (fun db => Table.Has db.ledger) Stmt.source? log db) :
    (Session.replay database log db).ledger.rows = db.ledger.rows ++ createdIn log := by
  induction log using List.reverseRecOn with
  | nil => exact (List.append_nil _).symm
  | append_singleton log y ih =>
    obtain ⟨st, v⟩ := y
    rw [Session.replay_snoc, createdIn_append, ← List.append_assoc, ← ih h.of_append]
    cases st with
    | insertLedgerEntry e =>
      have hdecided := h.last (k := e.key) rfl
      show (Table.insertNew (Session.replay database log db).ledger e).rows = _
      by_cases hhas : Table.Has v.ledger e.key
      · rw [Table.insertNew_of_has (hdecided.mp hhas), createdIn,
          List.filterMap_cons_none (created?_of_has hhas)]
        exact (List.append_nil _).symm
      · rw [Table.rows_insertNew (mt hdecided.mpr hhas), createdIn,
          List.filterMap_cons_some (created?_of_new hhas)]
        rfl
    | _ => exact (List.append_nil _).symm

/-- A commit appends the outcomes that were recorded. -/
theorem replay_jobRuns (log : List (Stmt × Db)) (db : Db) :
    (Session.replay database log db).jobRuns = db.jobRuns ++ recordedIn log := by
  induction log using List.reverseRecOn with
  | nil => exact (List.append_nil _).symm
  | append_singleton log y ih =>
    obtain ⟨st, v⟩ := y
    rw [Session.replay_snoc, recordedIn_append, ← List.append_assoc, ← ih]
    cases st with
    | insertJobRun run => rfl
    | _ => exact (List.append_nil _).symm

end logs

/-! ## Reports and entries

Two sums over tables that only grow. They agree on what two logs have added if
they agree on what each has added. -/

/-- Runs report as many entries as there are, for each company and kind of job. -/
def Agrees (runs : List JobRun) (es : List LedgerEntry) : Prop :=
  ∀ companyId kind,
    ((runs.filter fun run => run.companyId = companyId ∧ run.kind = kind).map
        (·.entriesCreated)).sum
      = (es.map fun e => if e.CreatedBy companyId kind then (1 : Int) else 0).sum

namespace Agrees

variable {runs runs' : List JobRun} {es es' : List LedgerEntry}

/-- Reports and entries add up. -/
theorem append (h : Agrees runs es) (h' : Agrees runs' es') :
    Agrees (runs ++ runs') (es ++ es') := by
  intro companyId kind
  rw [List.filter_append, List.map_append, List.sum_append, List.map_append, List.sum_append,
    h companyId kind, h' companyId kind]

/-- A run that reports the entries it created. -/
theorem single {run : JobRun} (hes : ∀ e ∈ es, e.CreatedBy run.companyId run.kind)
    (hcount : run.entriesCreated = es.length) : Agrees [run] es := by
  intro companyId kind
  by_cases h : run.companyId = companyId ∧ run.kind = kind
  · have hall : es.map (fun e => if e.CreatedBy companyId kind then (1 : Int) else 0)
        = es.map fun _ => 1 := by
      refine List.map_congr_left fun e he => if_pos ?_
      rw [← h.1, ← h.2]
      exact hes e he
    rw [hall]
    simp [h, hcount]
  · have hnone : es.map (fun e => if e.CreatedBy companyId kind then (1 : Int) else 0)
        = es.map fun _ => 0 := by
      refine List.map_congr_left fun e he => if_neg fun hcreated => h ?_
      have hsource := (hes e he).2.symm.trans hcreated.2
      exact ⟨(hes e he).1.symm.trans hcreated.1, JobKind.source_injective hsource⟩
    rw [hnone]
    simp [h]

/-- Entries that no job creates need no report. -/
theorem quiet (hes : ∀ e ∈ es, e.sourceType = .REQUEST ∨ e.sourceType = .REQUEST_CANCELLATION) :
    Agrees [] es := by
  intro companyId kind
  refine (List.sum_eq_zero fun n hn => ?_).symm
  obtain ⟨e, he, rfl⟩ := List.mem_map.mp hn
  refine if_neg fun hcreated => ?_
  have htype := hes e he
  rw [hcreated.2] at htype
  cases kind <;> rcases htype with h | h <;> cases h

end Agrees

/-! ## Loops that count

A program counts if what it returns is the number of entries its log has
created: it adds up along loops, and a post counts one or none. -/

/-- A statement of posting: it reads, inserts an entry or writes a balance. -/
def Stmt.keepsBooks : Stmt → Bool
  | .select _ | .insertLedgerEntry _ | .upsertSnapshot .. => true
  | _ => false

/-- From `n`, the log of a loop that posts entries with `P` has counted up to `m`. -/
structure Counted (P : LedgerEntry → Prop) (n : Int) (log : List (Stmt × Db)) (m : Int) :
    Prop where
  total : m = n + (createdIn log).length
  posted : ∀ e ∈ createdIn log, P e
  books : ∀ y ∈ log, y.1.keepsBooks = true

/-- Every log of the program counts up from `n` to its result. -/
def Counts (P : LedgerEntry → Prop) (n : Int) (p : Tx Int) : Prop :=
  ∀ log m, p.Traces database log m → Counted P n log m

namespace Counts

variable {P : LedgerEntry → Prop} {n : Int} {p : Tx Int}

/-- Counting programs, by the ways they are put together. -/
theorem ret (n : Int) : Counts P n (.ret n) := by
  intro log m h
  obtain ⟨rfl, rfl⟩ := Program.traces_ret.mp h
  exact ⟨(Int.add_zero _).symm, fun _ h => absurd h List.not_mem_nil,
    fun _ h => absurd h List.not_mem_nil⟩

theorem raise (e : Error) : Counts P n (.raise e) :=
  fun _ _ h => absurd h Program.not_traces_raise

theorem bind {f : Int → Tx Int} (hp : Counts P n p) (hf : ∀ a, Counts P a (f a)) :
    Counts P n (p >>= f) := by
  intro log m h
  obtain ⟨log₁, a, log₂, rfl, h₁, h₂⟩ := Program.traces_bind.mp h
  obtain ⟨htotal₁, hposted₁, hbooks₁⟩ := hp log₁ a h₁
  obtain ⟨htotal₂, hposted₂, hbooks₂⟩ := hf a log₂ m h₂
  refine ⟨?_, ?_, List.forall_mem_append.mpr ⟨hbooks₁, hbooks₂⟩⟩
  · rw [createdIn_append, List.length_append]
    omega
  · rw [createdIn_append]
    exact List.forall_mem_append.mpr ⟨hposted₁, hposted₂⟩

theorem query {q : Query} {f : q.Answer → Tx Int} (hf : ∀ r, Counts P n (f r)) :
    Counts P n (Tx.query q >>= f) := by
  intro log m h
  obtain ⟨v, r, rest, rfl, -, hrest⟩ := Tx.traces_query.mp h
  obtain ⟨htotal, hposted, hbooks⟩ := hf r rest m hrest
  exact ⟨htotal, hposted, List.forall_mem_cons.mpr ⟨rfl, hbooks⟩⟩

theorem lift {α : Type} {r : Except Error α} {f : α → Tx Int} (hf : ∀ a, Counts P n (f a)) :
    Counts P n (Tx.lift r >>= f) := by
  intro log m h
  obtain ⟨a, -, h⟩ := Tx.traces_lift.mp h
  exact hf a log m h

theorem foldlM {γ : Type} {f : Int → γ → Tx Int} {ys : List γ}
    (hf : ∀ a, ∀ y ∈ ys, Counts P a (f a y)) : Counts P n (ys.foldlM f n) := by
  induction ys generalizing n with
  | nil => exact ret n
  | cons y ys ih =>
    rw [List.foldlM_cons]
    exact (hf n y (List.mem_cons_self ..)).bind fun a =>
      ih fun b z hz => hf b z (List.mem_cons_of_mem _ hz)

/-- Counting something else on top. -/
theorem add (hp : Counts P 0 p) (n : Int) : Counts P n (p >>= fun more => .ret (n + more)) := by
  intro log m h
  obtain ⟨log₁, a, log₂, rfl, h₁, h₂⟩ := Program.traces_bind.mp h
  obtain ⟨rfl, rfl⟩ := Program.traces_ret.mp h₂
  obtain ⟨htotal, hposted, hbooks⟩ := hp log₁ a h₁
  rw [List.append_nil]
  refine ⟨?_, hposted, hbooks⟩
  rw [htotal, Int.zero_add]

/-- Posting counts the entry when it was told to be new. -/
theorem post {e : LedgerEntry} (he : P e) : Counts P 0 (LedgerService.post e) := by
  intro log m h
  unfold LedgerService.post at h
  obtain ⟨u, entryId, rest, rfl, hr, h⟩ := Tx.traces_perform.mp h
  have hanswer : (!decide (Table.Has u.ledger e.key)) = entryId := Except.ok.inj hr
  cases entryId with
  | false =>
    obtain ⟨rfl, rfl⟩ := Program.traces_ret.mp h
    -- taken: nothing is created, and the post answers zero
    have hcreated : createdIn [(Stmt.insertLedgerEntry e, u)] = [] :=
      List.filterMap_cons_none (created?_of_has (by simpa using hanswer))
    refine ⟨?_, ?_, fun y hy => ?_⟩
    · rw [hcreated]
      rfl
    · rw [hcreated]
      exact fun _ h => absurd h List.not_mem_nil
    · rw [List.mem_singleton.mp hy]
      rfl
  | true =>
    obtain ⟨log₁, total, log₂, rfl, h₁, h₂⟩ := Program.traces_bind.mp h
    obtain ⟨rfl, rfl⟩ := Program.traces_ret.mp h₂
    obtain ⟨v, sum, rest, rfl, -, h₁⟩ := Tx.traces_query.mp h₁
    obtain ⟨w, done, rest, rfl, -, h₁⟩ := Tx.traces_perform.mp h₁
    obtain ⟨rfl, -⟩ := Program.traces_ret.mp h₁
    -- free: the entry is the one created
    have hcreated : createdIn ((Stmt.insertLedgerEntry e, u) ::
        ([(.select (.balance e.account none), v), (.upsertSnapshot e.account sum, w)] ++ []))
          = [e] :=
      List.filterMap_cons_some (created?_of_new (by simpa using hanswer))
    refine ⟨?_, ?_, fun y hy => ?_⟩
    · rw [hcreated]
      rfl
    · rw [hcreated]
      exact fun f hf => List.mem_singleton.mp hf ▸ he
    · simp only [List.append_nil, List.mem_cons, List.not_mem_nil, or_false] at hy
      rcases hy with rfl | rfl | rfl <;> rfl

/-- `_post_accrual` counts its credit and its loss. -/
theorem postAccrual {p : Posting} (hp : ∀ e, p.Posts e → P e) :
    Counts P 0 (AccrualService.postAccrual p) := by
  refine query fun before => (post (hp _ (Or.inl rfl))).bind fun created => ?_
  split
  · exact ret created
  · next cap hcap =>
    dsimp only
    split
    · next hne =>
      refine (post (hp _ (Or.inr ⟨cap, hcap, _, ?_, rfl⟩))).add created
      omega
    · exact ret created

theorem postDecision {d : Except Error (Option Posting)}
    (hd : ∀ p, d = .ok (some p) → ∀ e, p.Posts e → P e) :
    Counts P n (AccrualService.postDecision n d) := by
  rcases d with e | _ | p
  · exact raise e
  · exact ret n
  · exact (postAccrual (hd p rfl)).add n

/-! ### The loops of the jobs -/

/-- Each loop of the jobs counts the entries that it creates. -/
theorem accrueRule {company : Company} {scope : Option RuleScope} {companyId : String}
    (hscope : ∀ s ∈ scope, s.companyId = companyId) :
    Counts (LedgerEntry.CreatedBy companyId .SCHEDULED) n
      (AccrualService.accrueRule company scope n) := by
  cases scope with
  | none => exact ret n
  | some s =>
    refine lift fun periods => foldlM fun created period _ => ?_
    unfold AccrualService.accruePeriod
    split
    · exact ret created
    · refine query fun active => postDecision fun p hp e hposts => ?_
      obtain ⟨rfl, -⟩ := RuleScope.decision_eq_some hp
      refine ⟨?_, hposts.sourceType⟩
      rcases hposts with rfl | ⟨_, _, _, _, rfl⟩ <;> exact hscope s rfl

theorem accrueAssignments (dir : Directory) (companyId : String) (company : Company) (asOf : Date)
    (assignments : List PolicyAssignment) :
    Counts (LedgerEntry.CreatedBy companyId .SCHEDULED) 0
      (assignments.foldlM (accrueAssignment dir companyId company asOf) 0) := by
  refine foldlM fun created assignment _ => lift fun employee => query fun versions => ?_
  refine foldlM fun created version _ => foldlM fun created rule _ => accrueRule fun s hs => ?_
  obtain ⟨-, -, hscope⟩ := ruleScope_eq_some hs
  exact congrArg RuleScope.companyId hscope

theorem creditEmployees (dir : Directory) (companyId payrollRunId : String) (periodEnd : Date)
    (minutesByEmployee : MinutesByEmployee) :
    Counts (LedgerEntry.CreatedBy companyId .PAYROLL) 0
      (minutesByEmployee.rows.foldlM (creditEmployee dir companyId payrollRunId periodEnd) 0) := by
  refine foldlM fun created entry _ => query fun assignments => ?_
  refine foldlM fun created assignment _ => lift fun employee => query fun version => ?_
  split
  · exact ret created
  · refine foldlM fun created rule _ => postDecision fun p hp e hposts => ?_
    rw [(payrollDecision_eq_some hp).2.2.2] at hposts
    refine ⟨?_, hposts.sourceType⟩
    rcases hposts with rfl | ⟨_, _, _, _, rfl⟩ <;> rfl

theorem closeAssignments (companyId : String) (periodEnd : Date)
    (assignments : List PolicyAssignment) :
    Counts (LedgerEntry.CreatedBy companyId .ROLLOVER) 0
      (assignments.foldlM (RolloverService.closeAssignment companyId periodEnd) 0) := by
  refine foldlM fun created assignment _ => query fun version => ?_
  split
  · exact ret created
  split
  · exact ret created
  · refine query fun balance => foldlM fun created entry hentry => ?_
    exact (post (createdBy_closing hentry)).add created

end Counts

/-! ## Logs of jobs

A job is a loop that counts what it posts, and then a report of the count; a
request route posts only under source types that no job has. -/

/-- The log of a job: it reports what it created, and leaves the requests alone. -/
structure JobLog (log : List (Stmt × Db)) : Prop where
  agrees : Agrees (recordedIn log) (createdIn log)
  quiet : ∀ y ∈ log, y.1.writesRequest = false

namespace JobLog

variable {log : List (Stmt × Db)}

theorem select (h : JobLog log) (q : Query) (v : Db) : JobLog ((.select q, v) :: log) :=
  ⟨h.agrees, List.forall_mem_cons.mpr ⟨rfl, h.quiet⟩⟩

/-- A loop that counts what it posts, and the report of the count. -/
theorem of_counts {companyId sourceId : String} {kind : JobKind} {p : Tx Int} {run : JobRun}
    (hp : Counts (LedgerEntry.CreatedBy companyId kind) 0 p)
    (h : (p >>= fun created => recordRun ⟨companyId, kind, sourceId, "SUCCESS", created⟩).Traces
      database log run) : JobLog log := by
  obtain ⟨log₁, created, log₂, rfl, h₁, h₂⟩ := Program.traces_bind.mp h
  obtain ⟨v, u, rest, rfl, -, h₂⟩ := Tx.traces_perform.mp h₂
  obtain ⟨rfl, rfl⟩ := Program.traces_ret.mp h₂
  obtain ⟨htotal, hposted, hbooks⟩ := hp log₁ created h₁
  -- posting records no outcome and writes no request
  have hrecorded : recordedIn log₁ = [] := by
    refine List.filterMap_eq_nil_iff.mpr fun y hy => ?_
    have hy := hbooks y hy
    cases hst : y.1 with
    | insertJobRun run =>
      rw [hst] at hy
      cases hy
    | _ => rfl
  constructor
  · rw [recordedIn_append, createdIn_append, hrecorded]
    show Agrees [_] (createdIn log₁ ++ [])
    rw [List.append_nil]
    refine Agrees.single hposted ?_
    rw [htotal, Int.zero_add]
  · refine List.forall_mem_append.mpr ⟨fun y hy => ?_, fun y hy => ?_⟩
    · have hy := hbooks y hy
      cases hst : y.1 with
      | insertRequest row =>
        rw [hst] at hy
        cases hy
      | updateRequest id u =>
        rw [hst] at hy
        cases hy
      | _ => rfl
    · rw [List.mem_singleton.mp hy]
      rfl

end JobLog

/-- A request route posts for its request, and is no job. -/
def Stmt.ByRoute : Stmt → Prop
  | .insertLedgerEntry e => e.sourceType = .REQUEST ∨ e.sourceType = .REQUEST_CANCELLATION
  | .insertJobRun _ => False
  | _ => True

/-- The legs of a request are posted for it. -/
theorem byRoute_postEach {es : List LedgerEntry} (hes : ∀ e ∈ es,
    e.sourceType = .REQUEST ∨ e.sourceType = .REQUEST_CANCELLATION) :
    (LedgerService.postEach es).Within Stmt.ByRoute := by
  induction es with
  | nil => trivial
  | cons e es ih =>
    have hpost : (LedgerService.post e).Within Stmt.ByRoute := by
      refine (Tx.within_perform (hes e (List.mem_cons_self ..))).bind fun entryId => ?_
      cases entryId with
      | false => trivial
      | true =>
        refine Program.Within.bind ?_ fun _ => trivial
        exact (Tx.within_query trivial).bind fun _ =>
          (Tx.within_perform trivial).bind fun _ => trivial
    exact hpost.bind fun _ => ih fun f hf => hes f (List.mem_cons_of_mem _ hf)

theorem byRoute_snapshot (a : Account) (loaded : Option BalanceSnapshot) :
    (RequestService.snapshot a true loaded).Within Stmt.ByRoute :=
  RequestService.within_snapshot (fun _ => trivial) (fun _ => trivial) (fun _ => trivial) a true
    loaded

theorem byRoute_findRequest (id : Uuid) (companyId : String) :
    (Api.findRequest id companyId).Within Stmt.ByRoute := by
  refine (Tx.within_query trivial).bind fun found => ?_
  cases found <;> trivial

/-- No request route does the work of a job. -/
theorem Route.byRoute (dir : Directory) (r : Route) : (r.program dir).Within Stmt.ByRoute := by
  cases r with
  | submit actor id reason fields =>
    refine Tx.within_lift.bind fun _ => Program.Within.bind ?_ fun resolved =>
      Program.Within.bind ?_ fun result => ?_
    · exact RequestService.within_resolve (fun _ => trivial) dir fields
    · refine (byRoute_snapshot _ _).bind fun row => ?_
      dsimp only
      split <;> trivial
    · unfold RequestService.store
      split
      · refine (byRoute_snapshot _ _).bind fun held => (Tx.within_perform trivial).bind fun _ => ?_
        exact (Tx.within_perform trivial).bind fun _ => trivial
      · exact (Tx.within_perform trivial).bind fun _ => trivial
  | decide actor requestId approve note =>
    refine Tx.within_lift.bind fun _ => (byRoute_findRequest _ _).bind fun row =>
      (Tx.within_perform trivial).bind fun found => ?_
    cases found with
    | none => trivial
    | some request =>
    dsimp only
    split
    · trivial
    refine (RequestService.within_frozenVersion (fun _ _ => trivial) (fun _ => trivial) _).bind
      fun found => (byRoute_snapshot _ _).bind fun row => ?_
    cases found with
    | none => trivial
    | some version =>
    refine Program.Within.bind ?_ fun _ => Program.Within.bind ?_ fun _ =>
      (Tx.within_perform trivial).bind fun _ => trivial
    · unfold RequestService.debitRequest
      split
      · split
        · trivial
        · -- debits and reversals are of requests, not of jobs
          refine byRoute_postEach fun e he => ?_
          obtain ⟨leg, -, rfl⟩ := List.mem_map.mp he
          exact Or.inl rfl
      · trivial
    · unfold RequestService.releaseHold
      split
      · exact Tx.within_perform trivial
      · trivial
  | cancel actor requestId today =>
    refine (byRoute_findRequest _ _).bind fun row => Tx.within_lift.bind fun _ => ?_
    unfold RequestService.cancel
    split
    · trivial
    split
    · trivial
    refine (byRoute_snapshot _ _).bind fun snapshot => Program.Within.bind ?_ fun _ =>
      (Tx.within_perform trivial).bind fun _ => trivial
    unfold RequestService.giveBack
    split
    · exact Tx.within_perform trivial
    · refine byRoute_postEach fun e he => ?_
      obtain ⟨leg, -, rfl⟩ := List.mem_map.mp he
      exact Or.inr rfl

/-- So it has nothing to report. -/
theorem agrees_of_byRoute {log : List (Stmt × Db)} (h : ∀ y ∈ log, y.1.ByRoute) :
    Agrees (recordedIn log) (createdIn log) := by
  have hrecorded : recordedIn log = [] := by
    refine List.filterMap_eq_nil_iff.mpr fun y hy => ?_
    have hy := h y hy
    cases hst : y.1 with
    | insertJobRun run =>
      rw [hst] at hy
      exact absurd hy id
    | _ => rfl
  rw [hrecorded]
  refine Agrees.quiet fun e he => ?_
  obtain ⟨y, hy, hcreated⟩ := List.mem_filterMap.mp he
  have hy := h y hy
  obtain ⟨hinserted, -⟩ := Option.filter_eq_some_iff.mp hcreated
  cases hst : y.1 with
  | insertLedgerEntry f =>
    rw [hst] at hinserted hy
    cases hinserted
    exact hy
  | _ =>
    rw [hst] at hinserted
    cases hinserted

namespace Job

variable {dir : Directory} {log : List (Stmt × Db)}

/-- Routes aside, jobs are jobs. -/
theorem jobLog (j : Job) (hj : ∀ r, j ≠ .route r) (h : (j.program dir).Traces database log ()) :
    JobLog log := by
  cases j with
  | route r => exact absurd rfl (hj r)
  | runScheduled companyId asOf =>
    obtain ⟨log₁, run, log₂, rfl, h₁, h₂⟩ := Program.traces_bind.mp h
    obtain ⟨rfl, -⟩ := Program.traces_ret.mp h₂
    rw [List.append_nil]
    obtain ⟨company, -, h₁⟩ := Tx.traces_lift.mp h₁
    obtain ⟨v, assignments, rest, rfl, -, h₁⟩ := Tx.traces_query.mp h₁
    exact (JobLog.of_counts (Counts.accrueAssignments dir companyId company asOf assignments)
      h₁).select _ v
  | onPayrollProcessed companyId payrollRunId periodEnd minutesByEmployee =>
    obtain ⟨log₁, run, log₂, rfl, h₁, h₂⟩ := Program.traces_bind.mp h
    obtain ⟨rfl, -⟩ := Program.traces_ret.mp h₂
    rw [List.append_nil]
    exact JobLog.of_counts (Counts.creditEmployees dir companyId payrollRunId periodEnd
      minutesByEmployee) h₁
  | rollover companyId asOf =>
    obtain ⟨log₁, run, log₂, rfl, h₁, h₂⟩ := Program.traces_bind.mp h
    obtain ⟨rfl, -⟩ := Program.traces_ret.mp h₂
    rw [List.append_nil]
    obtain ⟨v, assignments, rest, rfl, -, h₁⟩ := Tx.traces_query.mp h₁
    exact (JobLog.of_counts (Counts.closeAssignments companyId _ assignments) h₁).select _ v

/-- What a job reports is what it created. -/
theorem agrees (j : Job) (h : (j.program dir).Traces database log ()) :
    Agrees (recordedIn log) (createdIn log) := by
  by_cases hj : ∃ r, j = .route r
  · obtain ⟨r, rfl⟩ := hj
    obtain ⟨log₁, row, log₂, rfl, h₁, h₂⟩ := Program.traces_bind.mp h
    obtain ⟨rfl, -⟩ := Program.traces_ret.mp h₂
    rw [List.append_nil]
    exact agrees_of_byRoute ((r.byRoute dir).of_traces h₁)
  · exact (j.jobLog (fun r hr => hj ⟨r, hr⟩) h).agrees

end Job

/-! ## Every interleaving

A commit applies the log of one transaction. What was new to the log when it ran
is new at the commit, by the locks on keys, so the count that the log reports is
the number of entries that the commit adds. -/

section interleaved

variable {ι : Type} [DecidableEq ι] {dir : Directory} {jobs : ι → Job} {d₀ : Db}
  {c c' : TxConfig Unit ι} {e : Event ι}

/-- What a commit adds to the ledger and to the job history goes together. -/
theorem JobRunsAudited.fire
    (hkeys : KeysFree database (fun db => Table.Has db.ledger) Stmt.source?
      (fun i => (jobs i).program dir) c)
    (haudited : JobRunsAudited c.db)
    (hf : c.fire database (fun i => (jobs i).program dir) e = some c') : JobRunsAudited c'.db := by
  rcases Config.commits_or_keeps hf with ⟨i, s, a, rfl, hs, hprog, rfl⟩ | ⟨hdb, -⟩
  · have hagrees := (jobs i).agrees (hkeys.tracked.traces hs hprog)
    have hdecided := ledger_keys.decided (hkeys.tracked.seen hs) (hkeys.free hs)
    have hall : Agrees (c.db.jobRuns ++ recordedIn s.log) (c.db.ledger.rows ++ createdIn s.log) :=
      Agrees.append haudited hagrees
    rw [← replay_jobRuns, ← replay_ledger hdecided] at hall
    exact hall
  · rw [hdb]
    exact haudited

/-- **The job history adds up in every interleaving**: whatever jobs and request
routes run side by side, in every committed state the runs report as many
entries as the ledger has. -/
theorem job_runs_audited_interleaved {l : List (TxConfig Unit ι × Event ι × TxConfig Unit ι)}
    (hd₀ : JobRunsAudited d₀)
    (h : Interleaved database (fun i => (jobs i).program dir) d₀ l c) : JobRunsAudited c.db := by
  refine (h.invariant (I := fun c => KeysFree database (fun db => Table.Has db.ledger) Stmt.source?
    (fun i => (jobs i).program dir) c ∧ JobRunsAudited c.db) ?_ ?_).2
  · exact ⟨⟨tracked_initial d₀, nofun⟩, hd₀⟩
  · intro t e u ⟨hkeys, haudited⟩ hf
    exact ⟨hkeys.step ledger_keys hf, haudited.fire hkeys hf⟩

end interleaved

/-- The same payroll run twice, side by side: the second waits for the first one's
entry, finds its source taken and reports that it created none. -/
theorem payroll_audited_twice :
    ∃ (l : List (TxConfig Unit Bool × Event Bool × TxConfig Unit Bool)) (d₀ : Db)
      (c : TxConfig Unit Bool),
      Interleaved database (fun _ => (Demo.payroll false).program Demo.directory) d₀ l c ∧
        c.commits = [false, true] ∧ c.db.jobRuns.map (·.entriesCreated) = [1, 0] ∧
        JobRunsAudited c.db := by
  have hrun : (Op.runAll Demo.directory Demo.hourly .empty).passes (fun r =>
      (Config.schedule database (fun _ => (Demo.payroll false).program Demo.directory)
        (fun _ _ => True)
        (.start false :: .start true :: (List.replicate 4 (.next false) ++
          List.replicate 3 (.next true) ++ List.replicate 4 (.next false) ++
          List.replicate 3 (.next true)))
        (Config.initial r.2)).any fun c =>
          c.commits = [false, true] ∧ c.db.jobRuns.map (·.entriesCreated) = [1, 0]) = true := by
    decide +kernel
  obtain ⟨⟨l₀, d₀⟩, hd₀, hpass⟩ := Except.ok_of_passes hrun
  obtain ⟨c, hc, hend⟩ := (Option.any_eq_true _ _).mp hpass
  obtain ⟨hcommits, hreports⟩ := of_decide_eq_true hend
  obtain ⟨l, hl, -⟩ := Config.trail_of_schedule hc
  have hreach : Reachable Demo.directory d₀ := ⟨l₀, run_of_runAll hd₀⟩
  exact ⟨l, d₀, c, hl, hcommits, hreports, job_runs_audited_interleaved hreach.jobRunsAudited hl⟩

end TimeOff
