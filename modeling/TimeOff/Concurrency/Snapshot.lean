import TimeOff.Concurrency.Routes

/-!
# Concurrent postings and the snapshot

A transaction that posts to an account inserts its entry, sums the entries it
can see, and writes the sum as the balance of the account's snapshot. The sum is
read before the snapshot is locked, so that what others commit in between is in
the ledger and not in the snapshot. `snapshot_exact_iff` says that nothing else
goes wrong:

- `Settled` is what the log of any job or request route looks like: a balance is
  only written right after the sum it is, and whoever inserts an entry of the
  account also writes its balance;
- `SumsCurrent` compares what a transaction summed last with what it would see
  at its commit.

That logs are settled is a property of programs (`Settles`), proved down their
structure: it holds of a statement that spares the account, is closed under
binds and loops, and holds of the three statements of a posting taken together.
That a settled log commits what it summed last, or nothing of the account
(`Settled.commit`), is an induction on the log. Replayed on the database that is
committed by then, the log enters what the transaction inserted and leaves the
balance it wrote; so the snapshot is exact after the commit if and only if the
sum is still right. Steps that commit nothing change nothing that is committed,
and the equivalence carries over to interleavings of any number of jobs and
routes.
-/

namespace TimeOff

open Gregorian

/-- The transactions that post to the ledger, and those that hold or decide
requests. -/
inductive Job
  | runScheduled (companyId : String) (asOf : Date)
  | onPayrollProcessed (companyId payrollRunId : String) (periodEnd : Date)
      (minutesByEmployee : AccrualService.MinutesByEmployee)
  | rollover (companyId : String) (asOf : Date)
  | route (r : Route)

/-- The transaction of a job; its outcome is of no interest here. -/
def Job.program (dir : Directory) : Job → Tx Unit
  | .runScheduled companyId asOf => do
    let _ ← AccrualService.runScheduled dir companyId asOf
  | .onPayrollProcessed companyId payrollRunId periodEnd minutesByEmployee => do
    let _ ← AccrualService.onPayrollProcessed dir companyId payrollRunId periodEnd
      minutesByEmployee
  | .rollover companyId asOf => do
    let _ ← RolloverService.run companyId asOf
  | .route r => do
    let _ ← r.program dir

/-! ## Writing a balance

A post writes the sum it has just read. The last such sum in the log of a
transaction is what its snapshot has in the end (`lastSum?`), and it is current
if the ledger has the same sum at the commit (`SumsCurrent`). -/

/-- The statement writes the balance of the account's snapshot. -/
def Stmt.writesBalance (x : Account) : Stmt → Bool
  | .upsertSnapshot account _ => account = x
  | .insertSnapshot row => row.account = x
  | _ => false

/-- The entry a statement inserts. -/
def Stmt.inserted? : Stmt → Option LedgerEntry
  | .insertLedgerEntry e => some e
  | _ => none

/-- What the transaction saw when it last summed the account for its snapshot:
the view of the statement right before the last write of the balance. -/
def lastSum? (x : Account) (log : List (Stmt × Db)) : Option Db :=
  (log.foldl (fun (seen : Option Db × Option Db) y =>
    (some y.2, if y.1.writesBalance x then seen.1 else seen.2)) (none, none)).2

/-- At the commit of a transaction, the entries of the account that it can see
add up to what those it last summed did. -/
def SumsCurrent (x : Account) (s : TxSession Unit) (db : Db) : Prop :=
  s.prog.done = true → ∀ v ∈ lastSum? x s.log,
    v.ledger.balance x none = (s.view database db).ledger.balance x none

instance (x : Account) (s : TxSession Unit) (db : Db) : Decidable (SumsCurrent x s db) :=
  inferInstanceAs (Decidable (_ → ∀ v ∈ lastSum? x s.log, _))

variable {x : Account} {log : List (Stmt × Db)} {st : Stmt} {v w : Db}

/-- What was summed last is found behind statements that write no balance. -/
theorem lastSum?_snoc (h : st.writesBalance x = false) :
    lastSum? x (log ++ [(st, v)]) = lastSum? x log := by
  unfold lastSum?
  rw [List.foldl_append]
  simp [h]

/-- A balance that was just written is the sum before it. -/
theorem lastSum?_written {sum : Stmt} (hsum : sum.writesBalance x = false)
    (h : st.writesBalance x = true) :
    lastSum? x (log ++ [(sum, v), (st, w)]) = some v := by
  unfold lastSum?
  rw [List.foldl_append]
  simp [hsum, h]

/-- Writing balances is what creates snapshots. -/
theorem Stmt.has_snapshots_apply {db : Db} :
    (st.apply db).snapshots.Has x ↔ db.snapshots.Has x ∨ st.writesBalance x = true := by
  cases st with
  | upsertSnapshot account n =>
    refine Db.has_upsertBalance.trans (or_congr_right ?_)
    exact ⟨fun h => decide_eq_true h.symm, fun h => (of_decide_eq_true h).symm⟩
  | insertSnapshot row =>
    refine Table.has_insertNew.trans (or_congr_right ?_)
    exact ⟨fun h => decide_eq_true h.symm, fun h => (of_decide_eq_true h).symm⟩
  | updateSnapshotHold account n =>
    show (Stmt.setHold db account n).snapshots.Has x ↔ _
    unfold Stmt.setHold
    rw [Table.has_modify]
    simp [writesBalance]
  | _ => simp [Stmt.apply, writesBalance, Stmt.setRequest]

/-- Replayed on another database, a log creates the same snapshots. -/
theorem has_snapshots_replay {d e : Db} (h : d.snapshots.Has x ↔ e.snapshots.Has x) :
    (Session.replay database log d).snapshots.Has x ↔
      (Session.replay database log e).snapshots.Has x := by
  induction log generalizing d e with
  | nil => exact h
  | cons y rest ih =>
    exact ih (Stmt.has_snapshots_apply.trans ((or_congr_left h).trans
      Stmt.has_snapshots_apply.symm))

/-! ## Logs of jobs

A log is settled for an account if it leaves both the balance and the ledger of
the account alone, or ends there with a sum that it has written. This is put
together along a program. -/

/-- A statement that neither posts to the account nor writes its balance. -/
def Stmt.Spares (x : Account) (st : Stmt) (v : Db) : Prop :=
  st.writesBalance x = false ∧
    ∀ e, st = .insertLedgerEntry e → e.account = x → Table.Has v.ledger e.key

/-- A statement that inserts nothing and writes no balance spares every account. -/
theorem Stmt.Spares.of_not_inserted (hwrites : st.writesBalance x = false)
    (hinsert : st.inserted? = none) : st.Spares x v := by
  refine ⟨hwrites, ?_⟩
  rintro e rfl
  cases hinsert

/-- What the logs of jobs and routes are made of. -/
inductive Settled (x : Account) : List (Stmt × Db) → Prop
  | nil : Settled x []
  | other {log : List (Stmt × Db)} {st : Stmt} {v : Db} (h : Settled x log)
      (hst : st.Spares x v) : Settled x (log ++ [(st, v)])
  | posted {log : List (Stmt × Db)} {e : LedgerEntry} {u v w : Db} (h : Settled x log)
      (he : e.account = x) :
      Settled x (log ++ [(.insertLedgerEntry e, u), (.select (.balance x none), v),
        (.upsertSnapshot x (v.ledger.balance x none), w)])
  | created {log : List (Stmt × Db)} {v w : Db} (h : Settled x log)
      (hnew : ¬ w.snapshots.Has x) :
      Settled x (log ++ [(.select (.balance x none), v),
        (.insertSnapshot ⟨x, v.ledger.balance x none, 0⟩, w)])

/-- Sparing an account leaves its balance and its snapshot's alone. -/
theorem Stmt.Spares.apply {db : Db} (h : st.Spares x v) (hle : LedgerGrows v db) :
    (st.apply db).ledger.balance x none = db.ledger.balance x none ∧
      (st.apply db).cached x = db.cached x := by
  obtain ⟨hwrites, hinsert⟩ := h
  cases st with
  | insertLedgerEntry e =>
    refine ⟨?_, rfl⟩
    show Ledger.balance (Table.insertNew db.ledger e) x none = _
    by_cases hhas : Table.Has db.ledger e.key
    · rw [Ledger.balance_insertNew_of_has hhas]
    · have hother : e.account ≠ x := fun he => hhas (hle _ (hinsert e rfl he))
      rw [Ledger.balance_insertNew hhas, Ledger.part_of_ne hother, Int.add_zero]
  | upsertSnapshot account n =>
    refine ⟨rfl, ?_⟩
    have hne : x ≠ account := fun h => of_decide_eq_false hwrites h.symm
    exact Db.cached_upsertBalance_of_ne n hne
  | insertSnapshot row =>
    refine ⟨rfl, ?_⟩
    have hne : x ≠ row.account := fun h => of_decide_eq_false hwrites h.symm
    unfold Db.cached
    show ((db.snapshots.insertNew row).find? x).map _ = _
    rw [Table.find?_insertNew_of_ne hne]
  | updateSnapshotHold account n => exact ⟨rfl, Db.cached_setHold n⟩
  | _ => exact ⟨rfl, rfl⟩

namespace Settled

/-- What a settled transaction commits: the sum it took last, or nothing of the
account. -/
theorem commit (h : Settled x log) {db : Db} (hseen : Seen database SameRow LedgerGrows log db) :
    (lastSum? x log = none →
      (Session.replay database log db).ledger.balance x none = db.ledger.balance x none ∧
        (Session.replay database log db).cached x = db.cached x) ∧
      ∀ v, lastSum? x log = some v →
        (Session.replay database log db).cached x = some (v.ledger.balance x none) := by
  induction h with
  | nil => exact ⟨fun _ => ⟨rfl, rfl⟩, nofun⟩
  | @other log st v _ hst ih =>
    obtain ⟨hnone, hsome⟩ := ih hseen.of_append
    have hle : LedgerGrows v (Session.replay database log db) := hseen.le ledger_grows rfl
    obtain ⟨hbalance, hcached⟩ := hst.apply hle
    rw [lastSum?_snoc hst.1, Session.replay_snoc]
    refine ⟨fun hlast => ?_, fun w hlast => ?_⟩
    · exact ⟨hbalance.trans (hnone hlast).1, hcached.trans (hnone hlast).2⟩
    · exact hcached.trans (hsome w hlast)
  | @posted log e u v w _ he _ =>
    have hsplit : ∀ a b c : Stmt × Db, log ++ [a, b, c] = (log ++ [a]) ++ [b, c] := by simp
    have hlast : lastSum? x (log ++ [(.insertLedgerEntry e, u), (.select (.balance x none), v),
        (.upsertSnapshot x (v.ledger.balance x none), w)]) = some v := by
      rw [hsplit]
      exact lastSum?_written rfl (decide_eq_true rfl)
    rw [hlast]
    refine ⟨nofun, ?_⟩
    rintro _ ⟨⟩
    rw [hsplit, show ∀ b c : Stmt × Db, (log ++ [(Stmt.insertLedgerEntry e, u)]) ++ [b, c]
      = ((log ++ [(Stmt.insertLedgerEntry e, u)]) ++ [b]) ++ [c] by simp, Session.replay_snoc]
    exact Db.cached_upsertBalance_self _
  | @created log v w _ hnew _ =>
    have hlast : lastSum? x (log ++ [(.select (.balance x none), v),
        (.insertSnapshot ⟨x, v.ledger.balance x none, 0⟩, w)]) = some v :=
      lastSum?_written rfl (decide_eq_true rfl)
    rw [hlast]
    refine ⟨nofun, ?_⟩
    rintro _ ⟨⟩
    have hsplit : ∀ a b : Stmt × Db, log ++ [a, b] = (log ++ [a]) ++ [b] := by simp
    rw [hsplit] at hseen ⊢
    -- the row was not there and its lock has been held since
    obtain ⟨d, rfl, -, hlock⟩ := hseen _ _ _ [] rfl
    have hsame : d.snapshots.find? x = db.snapshots.find? x := hlock (.snapshot x) (if_neg hnew)
    have hhas : d.snapshots.Has x ↔ db.snapshots.Has x := by
      rw [Table.has_iff, Table.has_iff, hsame]
    have hfree := (has_snapshots_replay hhas).not.mp hnew
    rw [Session.replay_snoc]
    unfold Db.cached
    show ((Table.insertNew _ (⟨x, v.ledger.balance x none, 0⟩ : BalanceSnapshot)).find? x).map _ = _
    rw [Table.find?_insertNew_self hfree]
    rfl

/-- Settled logs in a row are settled. -/
theorem append (h : Settled x log) {log' : List (Stmt × Db)} (h' : Settled x log') :
    Settled x (log ++ log') := by
  induction h' with
  | nil =>
    rw [List.append_nil]
    exact h
  | other _ hst ih =>
    rw [← List.append_assoc]
    exact ih.other hst
  | posted _ he ih =>
    rw [← List.append_assoc]
    exact ih.posted he
  | created _ hnew ih =>
    rw [← List.append_assoc]
    exact ih.created hnew

/-- A log that spares the account has nothing to settle. -/
theorem of_spares (h : ∀ y ∈ log, y.1.Spares x y.2) : Settled x log := by
  induction log using List.reverseRecOn with
  | nil => exact .nil
  | append_singleton log y ih =>
    exact (ih fun z hz => h z (List.mem_append_left _ hz)).other
      (h y (List.mem_append_right _ (List.mem_singleton.mpr rfl)))

end Settled

/-- Every log of the program to its end is settled. -/
def Settles (x : Account) {α : Type} (p : Tx α) : Prop :=
  ∀ log a, p.Traces database log a → Settled x log

namespace Settles

variable {α β γ : Type} {p : Tx α}

/-- Programs whose logs are settled, by the ways they are put together. -/
theorem ret (a : α) : Settles x (.ret a : Tx α) := by
  intro log b h
  obtain ⟨rfl, -⟩ := Program.traces_ret.mp h
  exact .nil

theorem raise (e : Error) : Settles x (.raise e : Tx α) :=
  fun _ _ h => absurd h Program.not_traces_raise

theorem bind {f : α → Tx β} (hp : Settles x p) (hf : ∀ a, Settles x (f a)) :
    Settles x (p >>= f) := by
  intro log b h
  obtain ⟨log₁, a, log₂, rfl, h₁, h₂⟩ := Program.traces_bind.mp h
  exact (hp log₁ a h₁).append (hf a log₂ b h₂)

theorem perform (h : ∀ v r, st.answer v = .ok r → st.Spares x v) :
    Settles x (Program.perform st : Tx st.Answer) := by
  intro log a ht
  obtain ⟨v, r, rest, rfl, hr, hrest⟩ := Program.traces_call.mp ht
  obtain ⟨rfl, -⟩ := Program.traces_ret.mp hrest
  refine Settled.of_spares fun y hy => ?_
  rw [List.mem_singleton.mp hy]
  exact h v r hr

/-- Reads, locks and most writes have nothing to do with balances. -/
theorem neutral (st : Stmt) (hwrites : ∀ x, st.writesBalance x = false)
    (hinsert : st.inserted? = none) : Settles x (Program.perform st : Tx st.Answer) :=
  perform fun _ _ _ => .of_not_inserted (hwrites x) hinsert

theorem query (q : Query) : Settles x (Tx.query q) := neutral _ (fun _ => rfl) rfl

theorem lift (r : Except Error α) : Settles x (Tx.lift r) := by
  cases r with
  | ok a => exact ret a
  | error e => exact raise e

theorem foldlM {f : α → γ → Tx α} (hf : ∀ a y, Settles x (f a y)) (ys : List γ) (a : α) :
    Settles x (ys.foldlM f a) := by
  induction ys generalizing a with
  | nil => exact ret a
  | cons y ys ih =>
    rw [List.foldlM_cons]
    exact (hf a y).bind fun b => ih b

/-- Posting inserts, sums and writes the sum, or finds the source taken. -/
theorem post (e : LedgerEntry) : Settles x (LedgerService.post e) := by
  intro log a h
  unfold LedgerService.post at h
  obtain ⟨u, entryId, rest, rfl, hr, h⟩ := Tx.traces_perform.mp h
  cases entryId with
  | false =>
    obtain ⟨rfl, -⟩ := Program.traces_ret.mp h
    refine Settled.of_spares fun y hy => ?_
    rw [List.mem_singleton.mp hy]
    refine ⟨rfl, ?_⟩
    rintro f ⟨⟩ -
    have hanswer : (!decide (Table.Has u.ledger e.key)) = false := Except.ok.inj hr
    simpa using hanswer
  | true =>
    obtain ⟨log₁, total, log₂, rfl, h₁, h₂⟩ := Program.traces_bind.mp h
    obtain ⟨rfl, -⟩ := Program.traces_ret.mp h₂
    obtain ⟨v, sum, rest, rfl, hsum, h₁⟩ := Tx.traces_query.mp h₁
    obtain ⟨w, done, rest, rfl, -, h₁⟩ := Tx.traces_perform.mp h₁
    obtain ⟨rfl, -⟩ := Program.traces_ret.mp h₁
    cases hsum
    rw [List.append_nil]
    by_cases he : e.account = x
    · subst he
      exact Settled.nil.posted rfl
    · refine Settled.of_spares fun y hy => ?_
      simp only [List.mem_cons, List.not_mem_nil, or_false] at hy
      rcases hy with rfl | rfl | rfl
      · refine ⟨rfl, ?_⟩
        rintro f ⟨⟩ hf
        exact absurd hf he
      · exact .of_not_inserted rfl rfl
      · exact .of_not_inserted (decide_eq_false he) rfl

/-- A request route reads a snapshot or creates it with the sum. -/
theorem snapshot (a : Account) (loaded : Option BalanceSnapshot) :
    Settles x (RequestService.snapshot a true loaded) := by
  refine (neutral (.lockSnapshot a) (fun _ => rfl) rfl).bind fun row => ?_
  cases row with
  | some row => exact ret _
  | none =>
    intro log b h
    obtain ⟨v, balance, rest, rfl, hbalance, h⟩ := Tx.traces_query.mp h
    obtain ⟨w, done, rest, rfl, hnew, h⟩ := Tx.traces_perform.mp h
    obtain ⟨rfl, -⟩ := Program.traces_ret.mp h
    cases hbalance
    by_cases ha : a = x
    · subst ha
      refine Settled.nil.created fun hhas => ?_
      cases (if_pos hhas).symm.trans hnew
    · refine Settled.of_spares fun y hy => ?_
      simp only [List.mem_cons, List.not_mem_nil, or_false] at hy
      rcases hy with rfl | rfl
      · exact .of_not_inserted rfl rfl
      · exact .of_not_inserted (decide_eq_false ha) rfl

/-- Entries posted in turn are settled one by one. -/
theorem postEach (es : List LedgerEntry) : Settles x (LedgerService.postEach es) := by
  induction es with
  | nil => exact ret ()
  | cons e es ih => exact (post e).bind fun _ => ih

/-! ### The jobs -/

/-- The jobs are loops of postings. -/
theorem postDecision (created : Int) (d : Except Error (Option Posting)) :
    Settles x (AccrualService.postDecision created d) := by
  rcases d with e | _ | p
  · exact raise e
  · exact ret created
  · refine Settles.bind ?_ fun more => ret _
    refine (query _).bind fun before => (post _).bind fun created => ?_
    split
    · exact ret _
    · dsimp only
      split
      · exact (post _).bind fun _ => ret _
      · exact ret _

theorem recordRun (run : JobRun) : Settles x (recordRun run) :=
  (neutral (.insertJobRun run) (fun _ => rfl) rfl).bind fun _ => ret _

theorem runScheduled (dir : Directory) (companyId : String) (asOf : Date) :
    Settles x (AccrualService.runScheduled dir companyId asOf) := by
  refine (lift _).bind fun company => (query _).bind fun assignments =>
    Settles.bind ?_ fun created => recordRun _
  refine foldlM (fun created assignment => ?_) _ _
  refine (lift _).bind fun employee => (query _).bind fun versions => ?_
  refine foldlM (fun created version => foldlM (fun created rule => ?_) _ _) _ _
  unfold AccrualService.accrueRule
  split
  · exact ret _
  · refine (lift _).bind fun periods => foldlM (fun created period => ?_) _ _
    unfold AccrualService.accruePeriod
    split
    · exact ret _
    · exact (query _).bind fun active => postDecision _ _

theorem onPayrollProcessed (dir : Directory) (companyId payrollRunId : String) (periodEnd : Date)
    (minutesByEmployee : AccrualService.MinutesByEmployee) :
    Settles x (AccrualService.onPayrollProcessed dir companyId payrollRunId periodEnd
      minutesByEmployee) := by
  refine Settles.bind ?_ fun created => recordRun _
  refine foldlM (fun created entry => (query _).bind fun assignments => ?_) _ _
  refine foldlM (fun created assignment => ?_) _ _
  refine (lift _).bind fun employee => (query _).bind fun version => ?_
  split
  · exact ret _
  · exact foldlM (fun created rule => postDecision _ _) _ _

theorem rollover (companyId : String) (asOf : Date) :
    Settles x (RolloverService.run companyId asOf) := by
  refine (query _).bind fun assignments => Settles.bind ?_ fun created => recordRun _
  refine foldlM (fun created assignment => (query _).bind fun version => ?_) _ _
  split
  · exact ret _
  · split
    · exact ret _
    · exact (query _).bind fun balance =>
        foldlM (fun created entry => (post _).bind fun more => ret _) _ _

/-- A program that spares the account whatever it sees. -/
theorem of_within {α : Type} {p : Tx α} (h : p.Within fun st => ∀ v, st.Spares x v) :
    Settles x p :=
  fun _ _ ht => Settled.of_spares fun y hy => h.of_traces ht y hy y.2

/-- Every request route is settled. -/
theorem route (dir : Directory) (r : Route) : Settles x (r.program dir) := by
  cases r with
  | submit actor id reason fields =>
    refine (lift _).bind fun _ => Settles.bind ?_ fun r => Settles.bind ?_ fun result => ?_
    · exact of_within
        (RequestService.within_resolve (fun q v => .of_not_inserted rfl rfl) dir fields)
    · refine (snapshot _ _).bind fun row => ?_
      dsimp only
      split
      · exact raise _
      · exact ret _
    · -- the row and the hold are written, the balance is not
      unfold RequestService.store
      split
      · refine (snapshot _ _).bind fun held => ?_
        refine (neutral (.insertRequest _) (fun _ => rfl) rfl).bind fun _ => ?_
        exact (neutral (.updateSnapshotHold _ _) (fun _ => rfl) rfl).bind fun _ => ret _
      · exact (neutral (.insertRequest _) (fun _ => rfl) rfl).bind fun _ => ret _
  | decide actor requestId approve note =>
    refine (lift _).bind fun _ => Settles.bind ?_ fun row => ?_
    · refine (query _).bind fun found => ?_
      cases found with
      | none => exact raise _
      | some row => exact ret _
    refine (neutral (.lockRequest _) (fun _ => rfl) rfl).bind fun found => ?_
    cases found with
    | none => exact raise _
    | some request =>
    dsimp only
    split
    · exact raise _
    refine Settles.bind ?_ fun found => (snapshot _ _).bind fun row => ?_
    · refine (query _).bind fun effective => ?_
      split
      · exact ret _
      · exact query _
    cases found with
    | none => exact raise _
    | some version =>
    refine Settles.bind ?_ fun _ => Settles.bind ?_ fun _ =>
      (neutral (.updateRequest _ _) (fun _ => rfl) rfl).bind fun _ => ret _
    · unfold RequestService.debitRequest
      -- only an approval posts, and each post ends with the sum it writes
      split
      · split
        · exact raise _
        · exact postEach _
      · exact ret ()
    · unfold RequestService.releaseHold
      split
      · exact neutral _ (fun _ => rfl) rfl
      · exact ret ()
  | cancel actor requestId today =>
    refine Settles.bind ?_ fun row => (lift _).bind fun _ => ?_
    · refine (query _).bind fun found => ?_
      cases found with
      | none => exact raise _
      | some row => exact ret _
    unfold RequestService.cancel
    split
    · exact raise _
    split
    · exact raise _
    refine (snapshot _ _).bind fun snapshot => Settles.bind ?_ fun _ =>
      (neutral (.updateRequest _ _) (fun _ => rfl) rfl).bind fun _ => ret _
    unfold RequestService.giveBack
    split
    · exact neutral _ (fun _ => rfl) rfl
    · exact postEach _

/-- And so is every job. -/
theorem job (dir : Directory) (j : Job) : Settles x (j.program dir) := by
  cases j with
  | runScheduled companyId asOf => exact (runScheduled dir companyId asOf).bind fun _ => ret ()
  | onPayrollProcessed companyId payrollRunId periodEnd minutesByEmployee =>
    exact (onPayrollProcessed dir companyId payrollRunId periodEnd minutesByEmployee).bind
      fun _ => ret ()
  | rollover companyId asOf => exact (rollover companyId asOf).bind fun _ => ret ()
  | route r => exact (route dir r).bind fun _ => ret ()

end Settles

/-! ## Two payroll runs -/

namespace Demo

/-- Two payroll runs of January. -/
def payroll (second : Bool) : Job :=
  .onPayrollProcessed "cmp_warp_demo" (if second then "run-2" else "run-1") (ofYmd 2026 1 31)
    (.singleton ("emp_ada", 480))

end Demo

/-! ## Every interleaving

Whether the snapshot is exact after a commit is a question about the last sum in
its log: what was committed to the ledger of the account since the sum was
taken. -/

section interleaved

variable {ι : Type} [DecidableEq ι] {dir : Directory} {jobs : ι → Job} {d₀ : Db}
  {c c' : TxConfig Unit ι} {e : Event ι}

/-- A step keeps the snapshot exact exactly when the sum it commits is current. -/
theorem snapshotExact_step
    (htracked : Tracked database SameRow LedgerGrows (fun i => (jobs i).program dir) c)
    (hexact : SnapshotExact x c.db)
    (hf : c.fire database (fun i => (jobs i).program dir) e = some c') :
    SnapshotExact x c'.db ↔ Meets (SumsCurrent x) c e := by
  rcases Config.commits_or_keeps hf with ⟨i, s, a, rfl, hs, hprog, rfl⟩ | ⟨hdb, hnotdone⟩
  · -- the log ends with the sum it has written, or has left the account alone
    have hsettled : Settled x s.log := Settles.job dir (jobs i) s.log a (htracked.traces hs hprog)
    obtain ⟨hnone, hsome⟩ := hsettled.commit (htracked.seen hs)
    have hmeets : Meets (SumsCurrent x) c (.next i) ↔ ∀ v ∈ lastSum? x s.log,
        v.ledger.balance x none = (s.view database c.db).ledger.balance x none := by
      constructor
      · intro h
        exact h i s rfl hs (by rw [hprog]; rfl)
      · rintro h j t ⟨⟩ ht -
        rw [hs] at ht
        cases ht
        exact h
    rw [hmeets]
    show (∀ n ∈ (s.view database c.db).cached x,
      n = (s.view database c.db).ledger.balance x none) ↔ _
    cases hlast : lastSum? x s.log with
    | none =>
      obtain ⟨hbalance, hcached⟩ := hnone hlast
      refine ⟨fun _ => nofun, fun _ n hn => ?_⟩
      exact (hexact n (hcached ▸ hn)).trans hbalance.symm
    | some v =>
      have hcached := hsome v hlast
      -- the snapshot holds the last sum, exact if the sum still is
      constructor
      · rintro h _ ⟨⟩
        exact h _ hcached
      · intro h n hn
        have hn' := Option.mem_unique hn hcached
        rw [hn']
        exact h v rfl
  · rw [hdb]
    refine ⟨fun _ i s hi hs hdone => ?_, fun _ => hexact⟩
    rw [hnotdone i s hi hs] at hdone
    cases hdone

/-- In an interleaving of jobs and request routes, the snapshot of an account is
exact in every committed state exactly when every transaction commits sums that
are current. -/
theorem snapshot_exact_iff {l : List (TxConfig Unit ι × Event ι × TxConfig Unit ι)}
    (hd₀ : SnapshotExact x d₀)
    (h : Interleaved database (fun i => (jobs i).program dir) d₀ l c) :
    (∀ y ∈ l, SnapshotExact x y.2.2.db) ↔ ∀ y ∈ l, Meets (SumsCurrent x) y.1 y.2.1 := by
  refine h.guard_iff (G := fun c => SnapshotExact x c.db)
    (Tracked database SameRow LedgerGrows fun i => (jobs i).program dir)
    ⟨tracked_initial d₀, hd₀⟩ ?_ ?_
  · intro t e u ⟨htracked, hexact⟩ hguard hf
    exact ⟨htracked.step sameRow_protects ledger_grows hf,
      (snapshotExact_step htracked hexact hf).mpr hguard⟩
  · intro t e u ⟨htracked, hexact⟩ hf hexact'
    exact (snapshotExact_step htracked hexact hf).mp hexact'

end interleaved

/-- Two payroll runs insert and sum before either of them writes the snapshot:
the one that writes last has not seen the other's minutes. -/
theorem snapshot_not_exact :
    ¬ ∀ (dir : Directory) (jobs : Bool → Job) (x : Account) (d₀ : Db)
      (l : List (TxConfig Unit Bool × Event Bool × TxConfig Unit Bool)) (c : TxConfig Unit Bool),
      SnapshotExact x d₀ → Interleaved database (fun i => (jobs i).program dir) d₀ l c →
        (∀ i, i ∈ c.commits) → SnapshotExact x c.db := by
  intro hclaim
  have hrun : (Op.runAll Demo.directory Demo.hourly .empty).passes (fun r =>
      SnapshotExact Demo.account r.2 ∧
      (Config.schedule database (fun i => (Demo.payroll i).program Demo.directory)
        (fun _ _ => True)
        (.start false :: .start true :: (List.replicate 5 (.next false) ++
          List.replicate 5 (.next true) ++ List.replicate 3 (.next false) ++
          List.replicate 3 (.next true)))
        (Config.initial r.2)).any fun c =>
          c.commits = [false, true] ∧ ¬ SnapshotExact Demo.account c.db) = true := by
    decide +kernel
  obtain ⟨⟨l₀, d₀⟩, -, hpass⟩ := Except.ok_of_passes hrun
  obtain ⟨hd₀, hschedule⟩ := of_decide_eq_true hpass
  obtain ⟨c, hc, hend⟩ := (Option.any_eq_true _ _).mp hschedule
  obtain ⟨hcommits, hnot⟩ := of_decide_eq_true hend
  obtain ⟨l, hl, -⟩ := Config.trail_of_schedule hc
  refine hnot (hclaim _ _ _ d₀ l c hd₀ hl fun i => ?_)
  rw [hcommits]
  cases i <;> decide

/-- One after the other they lose nothing: each sums up a ledger that is still
the committed one when it commits. -/
theorem snapshot_exact_in_turn :
    ∃ (l : List (TxConfig Unit Bool × Event Bool × TxConfig Unit Bool)) (d₀ : Db)
      (c : TxConfig Unit Bool),
      Interleaved database (fun i => (Demo.payroll i).program Demo.directory) d₀ l c ∧
        c.commits = [false, true] ∧
        (∀ y ∈ l, Meets (SumsCurrent Demo.account) y.1 y.2.1) ∧
        ∀ y ∈ l, SnapshotExact Demo.account y.2.2.db := by
  have hrun : (Op.runAll Demo.directory Demo.hourly .empty).passes (fun r =>
      SnapshotExact Demo.account r.2 ∧
      (Config.schedule database (fun i => (Demo.payroll i).program Demo.directory)
        (Meets (SumsCurrent Demo.account))
        (.start false :: .start true :: (List.replicate 8 (.next false) ++
          List.replicate 8 (.next true)))
        (Config.initial r.2)).any fun c => c.commits = [false, true]) = true := by
    decide +kernel
  obtain ⟨⟨l₀, d₀⟩, -, hpass⟩ := Except.ok_of_passes hrun
  obtain ⟨hd₀, hschedule⟩ := of_decide_eq_true hpass
  obtain ⟨c, hc, hcommits⟩ := (Option.any_eq_true _ _).mp hschedule
  obtain ⟨l, hl, hcurrent⟩ := Config.trail_of_schedule hc
  exact ⟨l, d₀, c, hl, of_decide_eq_true hcommits, hcurrent,
    (snapshot_exact_iff hd₀ hl).mpr hcurrent⟩

end TimeOff
