import TimeOff.Database

/-!
# Ledger service

Append-only ledger writes and rebuildable balance snapshots. `post` inserts an
entry unless its source is already in the ledger, and then recomputes the
snapshot of the account. Run alone it is the function `Db.post` (`run_post`),
which is all the jobs and requests need to know about it.

`post` inserts with `ON CONFLICT DO NOTHING`, and only a new entry refreshes the
snapshot; so posting is a function of the set of sources, and posting what is
there already is the identity (`post_of_has`, `posts_of_has`). Three kinds of
lemmas follow:

- the frame: no other table changes (`post_catalog`, `post_requests`,
  `post_jobRuns`);
- the ledger afterwards: its rows (`posts_rows`, `mem_posts`), its sources
  (`has_ledger_posts`) and any weighted sum over it (`sum_post`,
  `sum_posts_of_fresh`), of which a balance is one;
- the count that jobs report: the number of rows added (`entriesAdded_post`),
  which composes along a run.
-/

namespace TimeOff

open Gregorian

namespace LedgerService

/-- `refresh_snapshot` -/
def refreshSnapshot (account : Account) : Tx Int := do
  let total ← Tx.query (.balance account none)
  Program.perform (Stmt.upsertSnapshot account total)
  return total

/-- `post`: 1 when the entry is new, 0 when its source is taken. -/
def post (e : LedgerEntry) : Tx Int := do
  let entryId : Bool ← Program.perform (Stmt.insertLedgerEntry e)
  if entryId then
    let _ ← refreshSnapshot e.account
    return 1
  else return 0

/-- Post several entries in turn. -/
def postEach : List LedgerEntry → Tx Unit
  | [] => return ()
  | e :: es => do
    let _ ← post e
    postEach es

end LedgerService

/-! ## Balances

A balance is a sum over the ledger, so inserting an entry adds its part or
nothing. -/

namespace Ledger

variable {ledger : Ledger} {e : LedgerEntry} {a : Account} {asOf : Option Date}

/-- An entry's part of a balance. -/
def part (a : Account) (asOf : Option Date) (e : LedgerEntry) : Int :=
  if e.account = a ∧ ∀ day ∈ asOf, e.effectiveDate ≤ day then e.amountMinutes else 0

/-- A new entry adds its part to the balances. -/
theorem balance_insertNew (h : ¬ Table.Has ledger e.key) :
    Ledger.balance (Table.insertNew ledger e) a asOf = ledger.balance a asOf + part a asOf e :=
  Table.sum_insertNew h _

/-- An entry whose source is taken adds nothing. -/
theorem balance_insertNew_of_has (h : Table.Has ledger e.key) :
    Ledger.balance (Table.insertNew ledger e) a asOf = ledger.balance a asOf := by
  rw [Table.insertNew_of_has h]

/-- An entry is part of no other account. -/
theorem part_of_ne (h : e.account ≠ a) : part a asOf e = 0 := if_neg fun ⟨h', _⟩ => h h'

/-- And of its own account's total in full. -/
theorem part_self (h : e.account = a) : part a none e = e.amountMinutes :=
  if_pos ⟨h, fun _ hd => absurd hd (Option.not_mem_none _)⟩

/-- Up to a day, the entries dated by then count. -/
theorem part_some (h : e.account = a) (day : Date) :
    part a (some day) e = if e.effectiveDate ≤ day then e.amountMinutes else 0 := by
  unfold part
  simp [h]

end Ledger

/-! ## Posting

`post` on databases: insert, and bring the snapshot up to date if the entry was
new. Everything later is about lists of posts: what they leave in the ledger, in
sums and in the other tables. -/

namespace Db

/-- The database after `post`. -/
def post (e : LedgerEntry) (db : Db) : Db :=
  if Table.Has db.ledger e.key then db
  else
    Stmt.upsertBalance { db with ledger := db.ledger.insertNew e } e.account
      (Ledger.balance (db.ledger.insertNew e) e.account none)

/-- The number of ledger entries `db'` has more than `db`. -/
def entriesAdded (db db' : Db) : Int := db'.ledger.rows.length - db.ledger.rows.length

/-- Counts add up along a run. -/
theorem entriesAdded_trans (db₁ db₂ db₃ : Db) :
    db₁.entriesAdded db₂ + db₂.entriesAdded db₃ = db₁.entriesAdded db₃ := by
  unfold entriesAdded
  omega

theorem entriesAdded_self (db : Db) : db.entriesAdded db = 0 := Int.sub_self _

/-- The database after several entries are posted in turn. -/
def posts (es : List LedgerEntry) (db : Db) : Db := es.foldl (fun db e => db.post e) db

variable {e : LedgerEntry} {db : Db}

@[simp] theorem posts_nil : db.posts [] = db := rfl

@[simp] theorem posts_cons (es : List LedgerEntry) :
    db.posts (e :: es) = (db.post e).posts es := rfl

/-- Posting two lists is posting one after the other. -/
theorem posts_append (es fs : List LedgerEntry) :
    db.posts (es ++ fs) = (db.posts es).posts fs := List.foldl_append

/-- An entry whose source is taken changes nothing. -/
theorem post_of_has (h : Table.Has db.ledger e.key) : db.post e = db := if_pos h

/-- Posting inserts into the ledger. -/
@[simp] theorem post_ledger : (db.post e).ledger = db.ledger.insertNew e := by
  unfold post
  split
  · next h => exact (Table.insertNew_of_has h).symm
  · rfl

/-- `post` reports the number of entries it adds. -/
theorem entriesAdded_post :
    db.entriesAdded (db.post e) = if Table.Has db.ledger e.key then 0 else 1 := by
  unfold entriesAdded
  rw [post_ledger]
  split
  · next h =>
    rw [Table.insertNew_of_has h]
    omega
  · next h =>
    rw [Table.rows_insertNew h, List.length_append, List.length_singleton]
    omega

/-- And touches the snapshots, but no other table. -/
@[simp] theorem post_catalog : (db.post e).catalog = db.catalog := by
  unfold post
  split <;> rfl

@[simp] theorem post_requests : (db.post e).requests = db.requests := by
  unfold post
  split <;> rfl

@[simp] theorem post_jobRuns : (db.post e).jobRuns = db.jobRuns := by
  unfold post
  split <;> rfl

@[simp] theorem posts_catalog (es : List LedgerEntry) : (db.posts es).catalog = db.catalog := by
  induction es generalizing db with
  | nil => rfl
  | cons e es ih => rw [posts_cons, ih, post_catalog]

@[simp] theorem posts_jobRuns (es : List LedgerEntry) : (db.posts es).jobRuns = db.jobRuns := by
  induction es generalizing db with
  | nil => rfl
  | cons e es ih => rw [posts_cons, ih, post_jobRuns]

@[simp] theorem posts_requests (es : List LedgerEntry) : (db.posts es).requests = db.requests := by
  induction es generalizing db with
  | nil => rfl
  | cons e es ih => rw [posts_cons, ih, post_requests]

/-- The entries after posting are those before and those posted. -/
theorem mem_posts {es : List LedgerEntry} {f : LedgerEntry}
    (h : f ∈ (db.posts es).ledger.rows) : f ∈ db.ledger.rows ∨ f ∈ es := by
  induction es generalizing db with
  | nil => exact Or.inl h
  | cons e es ih =>
    rcases ih h with h | h
    · rw [post_ledger] at h
      exact (Table.mem_insertNew h).imp_right fun ⟨hf, _⟩ => hf ▸ List.mem_cons_self ..
    · exact Or.inr (List.mem_cons_of_mem _ h)

/-- The sources taken after posting. -/
theorem has_ledger_posts {es : List LedgerEntry} {k : SourceKey} :
    Table.Has (db.posts es).ledger k ↔ Table.Has db.ledger k ∨ ∃ e ∈ es, e.key = k := by
  induction es generalizing db with
  | nil => simp
  | cons e es ih =>
    rw [posts_cons, ih, post_ledger, Table.has_insertNew, List.exists_mem_cons_iff, or_assoc,
      eq_comm (a := k)]

/-- Entries whose sources are taken change nothing. -/
theorem posts_of_has {es : List LedgerEntry} (h : ∀ e ∈ es, Table.Has db.ledger e.key) :
    db.posts es = db := by
  induction es with
  | nil => rfl
  | cons e es ih =>
    rw [posts_cons, post_of_has (h e (List.mem_cons_self ..))]
    exact ih fun f hf => h f (List.mem_cons_of_mem _ hf)

@[simp] theorem post_recordRun {run : JobRun} :
    (db.recordRun run).post e = (db.post e).recordRun run := by
  by_cases h : Table.Has db.ledger e.key
  · have h' : Table.Has (db.recordRun run).ledger e.key := h
    rw [post_of_has h, post_of_has h']
  · have h' : ¬ Table.Has (db.recordRun run).ledger e.key := h
    simp only [post]
    rw [if_neg h, if_neg h']
    rfl

@[simp] theorem posts_recordRun {es : List LedgerEntry} {run : JobRun} :
    (db.recordRun run).posts es = (db.posts es).recordRun run := by
  induction es generalizing db with
  | nil => rfl
  | cons e es ih => rw [posts_cons, post_recordRun, ih, posts_cons]

/-- Posting appends to the ledger. -/
theorem posts_rows (es : List LedgerEntry) (db : Db) :
    ∃ new, (db.posts es).ledger.rows = db.ledger.rows ++ new := by
  induction es generalizing db with
  | nil => exact ⟨[], (List.append_nil _).symm⟩
  | cons e es ih =>
    obtain ⟨new, hnew⟩ := ih (db.post e)
    rw [posts_cons, hnew, post_ledger]
    by_cases h : Table.Has db.ledger e.key
    · exact ⟨new, by rw [Table.insertNew_of_has h]⟩
    · exact ⟨e :: new, by rw [Table.rows_insertNew h, List.append_assoc]; rfl⟩

/-- Entries with sources of their own, none of them taken, are all appended. -/
theorem posts_rows_of_fresh {es : List LedgerEntry}
    (hfresh : ∀ e ∈ es, ¬ Table.Has db.ledger e.key) (hnodup : (es.map LedgerEntry.key).Nodup) :
    (db.posts es).ledger.rows = db.ledger.rows ++ es := by
  induction es generalizing db with
  | nil => exact (List.append_nil _).symm
  | cons e es ih =>
    obtain ⟨hnotin, hnodup⟩ := List.nodup_cons.mp hnodup
    have he := hfresh e (List.mem_cons_self ..)
    have hrest : ∀ f ∈ es, ¬ Table.Has (db.post e).ledger f.key := by
      intro f hf hhas
      rw [post_ledger] at hhas
      rcases Table.has_insertNew.mp hhas with h | h
      · exact hfresh f (List.mem_cons_of_mem _ hf) h
      · exact hnotin (h ▸ List.mem_map_of_mem hf)
    rw [posts_cons, ih hrest hnodup, post_ledger, Table.rows_insertNew he, List.append_assoc]
    rfl

/-- And all of them count in every sum. -/
theorem sum_posts_of_fresh {es : List LedgerEntry} {w : LedgerEntry → Int}
    (hfresh : ∀ e ∈ es, ¬ Table.Has db.ledger e.key) (hnodup : (es.map LedgerEntry.key).Nodup) :
    Table.sum (db.posts es).ledger w = Table.sum db.ledger w + (es.map w).sum := by
  simp only [Table.sum]
  rw [posts_rows_of_fresh hfresh hnodup, List.map_append, List.sum_append]

/-- An entry counts in a sum unless its source is taken. -/
theorem sum_post {w : LedgerEntry → Int} :
    Table.sum (db.post e).ledger w
      = Table.sum db.ledger w + if Table.Has db.ledger e.key then 0 else w e := by
  rw [post_ledger]
  by_cases h : Table.Has db.ledger e.key
  · rw [if_pos h, Int.add_zero, Table.insertNew_of_has h]
  · rw [if_neg h, Table.sum_insertNew h]

/-- Entries that weigh nothing leave a weighted sum of the ledger alone. -/
theorem sum_posts_eq {es : List LedgerEntry} {w : LedgerEntry → Int} (hw : ∀ e ∈ es, w e = 0) :
    Table.sum (db.posts es).ledger w = Table.sum db.ledger w := by
  induction es generalizing db with
  | nil => rfl
  | cons e es ih =>
    rw [posts_cons, ih fun f hf => hw f (List.mem_cons_of_mem _ hf), sum_post,
      hw e (List.mem_cons_self ..), ite_self, Int.add_zero]

/-- The snapshot of the account after an entry is in: its hold is kept, its
balance is the ledger's. -/
theorem find?_upsertBalance_self (db : Db) (a : Account) (n : Int) :
    (Stmt.upsertBalance db a n).snapshots.find? a
      = some ⟨a, n, ((db.snapshots.find? a).map (·.pendingHoldMinutes)).getD 0⟩ := by
  unfold Stmt.upsertBalance
  dsimp only
  cases h : db.snapshots.find? a with
  | none =>
    have hnew := Table.find?_insertNew_self (r := (⟨a, n, 0⟩ : BalanceSnapshot))
      (Table.find?_eq_none.mp h)
    exact Table.find?_modify_self hnew
  | some row =>
    obtain ⟨hmem, hkey⟩ := Table.find?_eq_some.mp h
    have hhas : db.snapshots.Has (⟨a, n, 0⟩ : BalanceSnapshot).account :=
      Table.has_iff.mpr ⟨row, h⟩
    rw [Table.insertNew_of_has hhas, Table.find?_modify_self h, ← hkey]
    rfl

/-- Other accounts keep their snapshots. -/
theorem find?_upsertBalance_of_ne (db : Db) {a b : Account} (n : Int) (h : b ≠ a) :
    (Stmt.upsertBalance db a n).snapshots.find? b = db.snapshots.find? b := by
  unfold Stmt.upsertBalance
  dsimp only
  rw [Table.find?_modify_of_ne h,
    Table.find?_insertNew_of_ne (r := (⟨a, n, 0⟩ : BalanceSnapshot)) h]

theorem find?_setHold_of_ne (db : Db) {a b : Account} (n : Int) (h : b ≠ a) :
    (Stmt.setHold db a n).snapshots.find? b = db.snapshots.find? b := by
  unfold Stmt.setHold
  dsimp only
  rw [Table.find?_modify_of_ne h]

end Db

/-- Run alone, `post` is `Db.post`. -/
theorem run_post (e : LedgerEntry) (db : Db) :
    Tx.run (LedgerService.post e) db = .ok (db.entriesAdded (db.post e), db.post e) := by
  rw [Db.entriesAdded_post]
  unfold Db.post
  by_cases h : Table.Has db.ledger e.key
  · have hans : Stmt.answer db (.insertLedgerEntry e) = .ok false := by
      simp only [Stmt.answer, h, decide_true, Bool.not_true]
    rw [if_pos h, if_pos h]
    refine (Tx.run_perform (s := .insertLedgerEntry e) hans).trans ?_
    simp only [Stmt.apply, Table.insertNew_of_has h]
    rfl
  · have hans : Stmt.answer db (.insertLedgerEntry e) = .ok true := by
      simp only [Stmt.answer, h, decide_false, Bool.not_false]
    rw [if_neg h, if_neg h]
    exact Tx.run_perform (s := .insertLedgerEntry e) hans

/-- So is a loop of them. -/
theorem run_postEach (es : List LedgerEntry) (db : Db) :
    Tx.run (LedgerService.postEach es) db = .ok ((), db.posts es) := by
  induction es generalizing db with
  | nil => rfl
  | cons e es ih => exact (Program.exec_bind_of_ok (run_post e db)).trans (ih _)

/-- A loop of `post`s that counts. -/
theorem run_posts (es : List LedgerEntry) (created : Int) (db : Db) :
    Tx.run (es.foldlM (fun created e => do
        let more ← LedgerService.post e
        return created + more) created) db
      = .ok (created + db.entriesAdded (db.posts es), db.posts es) := by
  induction es generalizing created db with
  | nil =>
    show Except.ok (created, db) = Except.ok (created + db.entriesAdded db, db)
    rw [Db.entriesAdded_self, Int.add_zero]
  | cons e es ih =>
    rw [List.foldlM_cons]
    have hbody : Tx.run (do
        let more ← LedgerService.post e
        return created + more) db = .ok (created + db.entriesAdded (db.post e), db.post e) :=
      Program.exec_bind_of_ok (run_post e db)
    refine (Program.exec_bind_of_ok hbody).trans ((ih _ _).trans ?_)
    rw [Int.add_assoc, Db.entriesAdded_trans]
    rfl

end TimeOff
