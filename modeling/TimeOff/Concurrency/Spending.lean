import TimeOff.Concurrency.Decisions
import TimeOff.Requests.NetEffect

/-!
# Spending one balance side by side

Submissions and decisions on one account under a version with a floor. All of
them end up with the lock of the account's snapshot, and from that lock on they
read again what they rely on: so they are serializable by it (`serializable`),
and what is left is what they do one after another (`sound_submit`,
`sound_decide`).

`Sound` holds of the committed database at any time. It has that the snapshot is
exact and holds the pending requests, that what is left is at least the floor
(`WithinFloor`), that approved requests are debited once (`DebitedOnce`), that
the request of each decision is one of the account, and what these rest on: the
policies stay as they are and all requests are well-formed.

A submission takes from what is left what it checked to be there. A decision
releases what the request held, and an approval debits as much or less: entries
that are posted can only be skipped, so a debit never takes more than the
request costs (`balance_posts_debits_ge`). Since the serial order is that of the
commits, the invariant of the serial runs is one of the committed states.

A snapshot that is missing is created by whoever first inserts it, and its key
is locked by the insert; the account may therefore start without one.
-/

namespace TimeOff

open Gregorian

/-- The minutes of an account's pending requests. -/
def Db.pendingTotal (db : Db) (x : Account) : Int :=
  db.requests.sum fun r => if r.account = x ∧ r.status = .PENDING then r.totalMinutes else 0

/-- The snapshot of the account has the balance of the ledger and holds its
pending requests, and what is left of the balance is not below the floor. An
account without a snapshot has no pending request. -/
structure WithinFloor (x : Account) (floor : Int) (db : Db) : Prop where
  kept : ∀ row ∈ db.snapshots.find? x, row.balanceMinutes = db.ledger.balance x none ∧
    row.pendingHoldMinutes = db.pendingTotal x ∧
    floor ≤ row.balanceMinutes - row.pendingHoldMinutes
  fresh : db.snapshots.find? x = none →
    (∀ r ∈ db.requests.rows, r.account = x → r.status ≠ .PENDING) ∧
      floor ≤ db.ledger.balance x none

instance (x : Account) (floor : Int) (db : Db) : Decidable (WithinFloor x floor db) :=
  decidable_of_iff
    ((∀ row ∈ db.snapshots.find? x, row.balanceMinutes = db.ledger.balance x none ∧
        row.pendingHoldMinutes = db.pendingTotal x ∧
        floor ≤ row.balanceMinutes - row.pendingHoldMinutes) ∧
      (db.snapshots.find? x = none →
        (∀ r ∈ db.requests.rows, r.account = x → r.status ≠ .PENDING) ∧
          floor ≤ db.ledger.balance x none))
    ⟨fun ⟨h₁, h₂⟩ => ⟨h₁, h₂⟩, fun ⟨h₁, h₂⟩ => ⟨h₁, h₂⟩⟩

/-- Every approved request of the account has exactly one debit for each
calendar year it has days in. -/
def DebitedOnce (x : Account) (db : Db) : Prop :=
  ∀ r ∈ db.requests.rows, r.account = x → r.status = .APPROVED → ∀ day ∈ r.days,
    ∃! e, e ∈ db.ledger.rows ∧ e.key = (.REQUEST, legSource r.id day.date.year)

namespace WithinFloor

variable {x : Account} {floor : Int} {db : Db}

/-- The snapshot caches the balance of the ledger. -/
theorem exact (h : WithinFloor x floor db) : SnapshotExact x db := by
  intro n hn
  obtain ⟨row, hrow, rfl⟩ := Option.map_eq_some_iff.mp hn
  exact (h.kept row hrow).1

/-- With a snapshot or without, the hold is what is pending. -/
theorem hold_eq (h : WithinFloor x floor db) : db.hold x = db.pendingTotal x := by
  unfold Db.hold
  cases hrow : db.snapshots.find? x with
  | some row => exact (h.kept row hrow).2.1
  | none =>
    symm
    refine Table.sum_eq_zero fun r hr => if_neg fun ⟨hx, hpending⟩ => ?_
    exact (h.fresh hrow).1 r hr hx hpending

/-- What is left, by the ledger. -/
theorem floor_le (h : WithinFloor x floor db) : floor ≤ db.ledger.balance x none - db.hold x := by
  unfold Db.hold
  cases hrow : db.snapshots.find? x with
  | some row =>
    obtain ⟨hbalance, -, hfloor⟩ := h.kept row hrow
    rw [hbalance] at hfloor
    exact hfloor
  | none =>
    rw [Option.map_none, Option.getD_none, Int.sub_zero]
    exact (h.fresh hrow).2

/-- What is to be shown of an account with a snapshot. -/
theorem of_has (hhas : db.snapshots.Has x) (hexact : SnapshotExact x db)
    (hhold : db.hold x = db.pendingTotal x)
    (hfloor : floor ≤ db.ledger.balance x none - db.hold x) : WithinFloor x floor db := by
  obtain ⟨row, hrow⟩ := Table.has_iff.mp hhas
  have hholdrow : db.hold x = row.pendingHoldMinutes := by
    unfold Db.hold
    rw [hrow]
    rfl
  have hcached : db.cached x = some row.balanceMinutes := by
    unfold Db.cached
    rw [hrow]
    rfl
  constructor
  · intro row' hrow'
    obtain rfl := Option.mem_unique hrow' hrow
    have hbalance := hexact _ hcached
    exact ⟨hbalance, hholdrow ▸ hhold, by rw [hbalance, ← hholdrow]; exact hfloor⟩
  · intro hnone
    rw [hrow] at hnone
    cases hnone

end WithinFloor

/-- A source is taken by exactly one entry, or by none. -/
theorem existsUnique_entry_iff {db : Db} {k : SourceKey} :
    (∃! e, e ∈ db.ledger.rows ∧ e.key = k) ↔ Table.Has db.ledger k := by
  constructor
  · rintro ⟨e, ⟨he, rfl⟩, -⟩
    exact Table.has_of_mem he
  · intro h
    obtain ⟨e, he⟩ := Table.has_iff.mp h
    obtain ⟨hmem, hkey⟩ := Table.find?_eq_some.mp he
    exact ⟨e, ⟨hmem, hkey⟩, fun f hf => Table.eq_of_key hf.1 hmem (hf.2.trans hkey.symm)⟩

/-! ## What debits take

Debits that are posted already are skipped, and a leg is never negative: posting
the debits of a request takes at most what it costs, whatever of them is in the
ledger. -/

section legs

variable {days : List RequestDay}

/-- The legs of days with minutes have minutes. -/
theorem legs_nonneg (h : ∀ day ∈ days, 0 < day.minutes) : ∀ leg ∈ legs days, 0 ≤ leg.minutes := by
  have hfold : ∀ (days : List RequestDay) (totals : MinutesByYear),
      (∀ day ∈ days, 0 < day.minutes) → (∀ entry ∈ totals.rows, 0 ≤ entry.2) →
        ∀ entry ∈ (days.foldl MinutesByYear.addDay totals).rows, 0 ≤ entry.2 := by
    intro days
    induction days with
    | nil => exact fun totals _ htotals => htotals
    | cons day days ih =>
      intro totals hdays htotals
      refine ih _ (fun d hd => hdays d (List.mem_cons_of_mem _ hd)) fun entry hentry => ?_
      have hday := hdays day (List.mem_cons_self ..)
      obtain ⟨old, hold, rfl⟩ := Table.mem_modify.mp hentry
      have hnonneg : 0 ≤ old.2 := by
        rcases Table.mem_insertNew hold with hold | ⟨rfl, -⟩
        · exact htotals old hold
        · exact le_refl _
      split
      · show 0 ≤ old.2 + day.minutes
        omega
      · exact hnonneg
  intro leg hleg
  have hmem : (leg.year, leg.minutes) ∈ (minutesByYear days).rows := by
    rw [← legs_eq]
    exact List.mem_map_of_mem hleg
  exact hfold days .empty h nofun _ hmem

end legs

/-- Entries that only take minutes take no more than their sum, whichever of them
are new. -/
theorem balance_posts_ge {x : Account} {es : List LedgerEntry} (db : Db)
    (h : ∀ e ∈ es, e.amountMinutes ≤ 0) :
    db.ledger.balance x none + (es.map (·.amountMinutes)).sum
      ≤ (db.posts es).ledger.balance x none := by
  induction es generalizing db with
  | nil => exact le_of_eq (Int.add_zero _)
  | cons e es ih =>
    have he := h e (List.mem_cons_self ..)
    have hrest := ih (db.post e) fun f hf => h f (List.mem_cons_of_mem _ hf)
    rw [Db.posts_cons, List.map_cons, List.sum_cons]
    have hpost :
        db.ledger.balance x none + e.amountMinutes ≤ (db.post e).ledger.balance x none := by
      rw [Db.post_ledger]
      by_cases hhas : Table.Has db.ledger e.key
      · rw [Ledger.balance_insertNew_of_has hhas]
        omega
      · rw [Ledger.balance_insertNew hhas]
        by_cases hx : e.account = x
        · rw [Ledger.part_self hx]
        · rw [Ledger.part_of_ne hx]
          omega
    omega

/-- The debits of a request take no more than its total. -/
theorem balance_posts_debits_ge (x : Account) {r : TimeOffRequest} {cat : Catalog} (db : Db)
    (h : r.WellFormed cat) :
    db.ledger.balance x none - r.totalMinutes ≤ (db.posts r.debits).ledger.balance x none := by
  have hsum : (r.debits.map (·.amountMinutes)).sum = -r.totalMinutes := by
    unfold TimeOffRequest.debits
    rw [List.map_map, h.total_eq, ← sum_legs, List.sum_neg, List.map_map]
    rfl
  have hle := balance_posts_ge (x := x) db fun e (he : e ∈ r.debits) => by
    obtain ⟨leg, hleg, rfl⟩ := List.mem_map.mp he
    have := legs_nonneg h.positive leg hleg
    show -leg.minutes ≤ 0
    omega
  rw [hsum] at hle
  omega

/-! ## One after another

The serial programs keep the invariant. A submission adds a pending request and
holds its minutes; a decision releases the hold and may debit as much. -/

namespace Spending

variable {dir : Directory} {x : Account} {v : PolicyVersion} {cat : Catalog} {db : Db}

/-- The only version of the account's policy, and it keeps balances. -/
structure OnlyVersion (cat : Catalog) (x : Account) (v : PolicyVersion) : Prop where
  mem : v ∈ cat.versions.rows
  policy : v.policyId = x.policyId
  only : ∀ w ∈ cat.versions.rows, w.policyId = x.policyId → w = v
  accrual : v.kind = .ACCRUAL

/-- The version is not `UNLIMITED`. -/
theorem OnlyVersion.keeps (h : OnlyVersion cat x v) : v.kind ≠ .UNLIMITED := by
  rw [h.accrual]
  nofun

/-- A request of the account froze that version. -/
theorem OnlyVersion.frozen (h : OnlyVersion cat x v) {r : TimeOffRequest} (hwf : r.WellFormed cat)
    (hr : r.account = x) : cat.version r.policyVersionId = some v := by
  obtain ⟨w, hw, hpolicy⟩ := hwf.version
  rw [hw, h.only w (Catalog.version_eq_some.mp hw).1 (hpolicy.trans (congrArg Account.policyId hr))]

/-- What holds of the committed database at any time. -/
structure Sound (cat : Catalog) (x : Account) (v : PolicyVersion) (decided : Uuid → Prop)
    (db : Db) : Prop where
  catalog : db.catalog = cat
  wellFormed : RequestsWellFormed db
  within : WithinFloor x v.floor db
  debited : DebitedOnce x db
  mine : ∀ id, decided id → ∀ r ∈ db.requests.find? id, r.account = x

variable {decided : Uuid → Prop}

/-- What commits of others leave behind: a snapshot of the account, and every
request in its company. -/
def Rely (x : Account) (d d' : Db) : Prop :=
  (d = d' ∨ d'.snapshots.Has x) ∧ ∀ id, ∀ r ∈ d.requests.find? id,
    ∃ r' ∈ d'.requests.find? id, r'.companyId = r.companyId

theorem Rely.refl (d : Db) : Rely x d d := ⟨Or.inl rfl, fun _ r hr => ⟨r, hr, rfl⟩⟩

theorem Rely.trans {d e f : Db} (h : Rely x d e) (h' : Rely x e f) : Rely x d f := by
  constructor
  · rcases h'.1 with rfl | hf
    · exact h.1
    · exact Or.inr hf
  · intro id r hr
    obtain ⟨r₁, hr₁, hcompany₁⟩ := h.2 id r hr
    obtain ⟨r₂, hr₂, hcompany₂⟩ := h'.2 id r₁ hr₁
    exact ⟨r₂, hr₂, hcompany₂.trans hcompany₁⟩

/-- A submission that passed the check keeps the account sound. -/
theorem sound_submit (hv : OnlyVersion cat x v) (hsound : Sound cat x v decided db)
    {row : TimeOffRequest} (hrow : row.account = x) (hwf : row.WellFormed cat)
    (hpending : row.status = .PENDING) (hnew : ¬ db.requests.Has row.id)
    (hfloor : v.floor ≤ (db.snapshotOf x).balanceMinutes - (db.snapshotOf x).pendingHoldMinutes
      - row.totalMinutes) :
    Sound cat x v decided (db.afterSubmit row v.kind) ∧
      Rely x db (db.afterSubmit row v.kind) := by
  have hhas : (db.afterSubmit row v.kind).snapshots.Has x := hrow ▸ Db.has_afterSubmit
  have hexact := hsound.within.exact
  have hpend :
      (db.afterSubmit row v.kind).pendingTotal x = db.pendingTotal x + row.totalMinutes := by
    unfold Db.pendingTotal
    rw [Db.afterSubmit_requests, Table.sum_insertNew hnew, if_pos ⟨hrow, hpending⟩]
  have hhold : (db.afterSubmit row v.kind).hold x = db.hold x + row.totalMinutes := by
    rw [Db.hold_afterSubmit, if_pos ⟨hv.keeps, hrow⟩]
  refine ⟨⟨?_, ?_, ?_, ?_, ?_⟩, Or.inr hhas, fun id r hr => ⟨r, ?_, rfl⟩⟩
  · rw [Db.afterSubmit_catalog]
    exact hsound.catalog
  · intro r hr
    rw [Db.afterSubmit_requests] at hr
    rw [Db.afterSubmit_catalog]
    rcases Table.mem_insertNew hr with hold | ⟨rfl, -⟩
    · exact hsound.wellFormed r hold
    · rw [hsound.catalog]
      exact hwf
  · refine .of_has hhas hexact.afterSubmit ?_ ?_
    · rw [hhold, hpend, hsound.within.hold_eq]
    · -- what was checked is what is left
      rw [hexact.snapshotOf, Db.snapshotOf_hold] at hfloor
      rw [hhold, Db.afterSubmit_ledger]
      omega
  · intro r hr hrx happroved day hday
    rw [Db.afterSubmit_requests] at hr
    rw [Db.afterSubmit_ledger]
    rcases Table.mem_insertNew hr with hold | ⟨rfl, -⟩
    · exact hsound.debited r hold hrx happroved day hday
    · rw [hpending] at happroved
      cases happroved
  · intro id hid r hr
    rw [Db.afterSubmit_requests] at hr
    obtain ⟨hmem, rfl⟩ := Table.find?_eq_some.mp hr
    rcases Table.mem_insertNew hmem with hold | ⟨rfl, -⟩
    · exact hsound.mine r.id hid r (Table.find?_eq_some.mpr ⟨hold, rfl⟩)
    · exact hrow
  · rw [Db.afterSubmit_requests]
    obtain ⟨hmem, hid⟩ := Table.find?_eq_some.mp hr
    exact Table.find?_eq_some.mpr ⟨Table.subset_insertNew _ _ hmem, hid⟩

/-- A decision takes the request from what is pending. -/
theorem pendingTotal_afterDecide {r : TimeOffRequest} {approve : Bool} {kind : PolicyKind}
    {u : RequestUpdate} (hr : r ∈ db.requests.rows) (hrx : r.account = x)
    (hpending : r.status = .PENDING) (hu : u.status ≠ .PENDING) :
    (db.afterDecide r approve kind u).pendingTotal x = db.pendingTotal x - r.totalMinutes := by
  have hfind : db.requests.find? r.id = some r := Table.find?_eq_some.mpr ⟨hr, rfl⟩
  have hbefore : (if r.account = x ∧ r.status = .PENDING then r.totalMinutes else 0)
      = r.totalMinutes := if_pos ⟨hrx, hpending⟩
  have hafter : (if (r.update u).account = x ∧ (r.update u).status = .PENDING
      then (r.update u).totalMinutes else 0) = 0 := if_neg fun h => hu h.2
  unfold Db.pendingTotal
  rw [Db.afterDecide_requests]
  refine (Table.sum_modify hfind _).trans ?_
  rw [hbefore, hafter, Int.add_zero]

/-- An approval posts the debits, a denial nothing. -/
theorem ledger_afterDecide {r : TimeOffRequest} {approve : Bool} {kind : PolicyKind}
    {u : RequestUpdate} (hkind : kind ≠ .UNLIMITED) :
    (db.afterDecide r approve kind u).ledger
      = if approve then (db.posts r.debits).ledger else db.ledger := by
  rw [Db.afterDecide_ledger]
  unfold Db.afterDebits
  cases approve with
  | true => simp [hkind]
  | false => simp

/-- An approval posts the debits of its request, and no decision removes any. -/
theorem debitedOnce_afterDecide {r : TimeOffRequest} {approve : Bool} {kind : PolicyKind}
    {u : RequestUpdate} (h : DebitedOnce x db) (hr : r ∈ db.requests.rows)
    (hkind : kind ≠ .UNLIMITED) (hu : u.status = .APPROVED → approve = true) :
    DebitedOnce x (db.afterDecide r approve kind u) := by
  have hkeys : ∀ k, Table.Has db.ledger k →
      Table.Has (db.afterDecide r approve kind u).ledger k := by
    intro k hk
    rw [ledger_afterDecide hkind]
    split
    · exact Db.has_ledger_posts.mpr (Or.inl hk)
    · exact hk
  intro r' hr' hrx' happroved day hday
  rw [Db.afterDecide_requests] at hr'
  rw [existsUnique_entry_iff]
  rcases Table.eq_or_mem_of_mem_modify hr hr' with rfl | ⟨hs, -⟩
  · -- the request just approved: each of its debits is in the ledger
    obtain ⟨leg, hleg, hyear⟩ := exists_leg hday
    rw [ledger_afterDecide hkind, if_pos (hu happroved), Db.has_ledger_posts]
    exact Or.inr ⟨r.debit leg, List.mem_map_of_mem hleg, by rw [← hyear]; rfl⟩
  · refine hkeys _ (existsUnique_entry_iff.mp ?_)
    exact h r' hs hrx' happroved day hday

/-- A decision on a pending request keeps the account sound. -/
theorem sound_decide (hv : OnlyVersion cat x v) (hsound : Sound cat x v decided db)
    {r : TimeOffRequest} {approve : Bool} {u : RequestUpdate} (hr : r ∈ db.requests.rows)
    (hrx : r.account = x) (hpending : r.status = .PENDING)
    (hu : u.status = if approve then .APPROVED else .DENIED) :
    Sound cat x v decided (db.afterDecide r approve v.kind u) ∧
      Rely x db (db.afterDecide r approve v.kind u) := by
  have hhas : (db.afterDecide r approve v.kind u).snapshots.Has x := hrx ▸ Db.has_afterDecide
  have hexact := hsound.within.exact
  have hwf := hsound.wellFormed r hr
  have hupdated : u.status ≠ .PENDING := by
    rw [hu]
    cases approve <;> decide
  have happrove : u.status = .APPROVED → approve = true := by
    rw [hu]
    cases approve <;> decide
  have hpend : (db.afterDecide r approve v.kind u).pendingTotal x
      = db.pendingTotal x - r.totalMinutes := pendingTotal_afterDecide hr hrx hpending hupdated
  have hhold : (db.afterDecide r approve v.kind u).hold x = db.hold x - r.totalMinutes := by
    rw [Db.hold_afterDecide, if_pos ⟨hv.keeps, hrx⟩]
  refine ⟨⟨?_, ?_, ?_, debitedOnce_afterDecide hsound.debited hr hv.keeps happrove, ?_⟩,
    Or.inr hhas, fun id r' hr' => ?_⟩
  · rw [Db.afterDecide_catalog]
    exact hsound.catalog
  · intro r' hr'
    rw [Db.afterDecide_requests] at hr'
    rw [Db.afterDecide_catalog]
    rcases Table.eq_or_mem_of_mem_modify hr hr' with rfl | ⟨hs, -⟩
    · exact (hsound.wellFormed r hr).update u
    · exact hsound.wellFormed r' hs
  · refine .of_has hhas hexact.afterDecide ?_ ?_
    · rw [hhold, hpend, hsound.within.hold_eq]
    · -- what was available stays so: the hold goes, and a debit is no larger
      have hfloor := hsound.within.floor_le
      have htotal := hwf.total_pos
      rw [hhold, ledger_afterDecide hv.keeps]
      split
      · have hdebits := balance_posts_debits_ge x db hwf
        omega
      · omega
  · intro id hid r' hr'
    rw [Db.afterDecide_requests] at hr'
    obtain ⟨hmem, rfl⟩ := Table.find?_eq_some.mp hr'
    rcases Table.eq_or_mem_of_mem_modify hr hmem with rfl | ⟨hs, -⟩
    · exact hsound.mine r.id hid r (Table.find?_eq_some.mpr ⟨hr, rfl⟩)
    · exact hsound.mine r'.id hid r' (Table.find?_eq_some.mpr ⟨hs, rfl⟩)
  · rw [Db.afterDecide_requests]
    by_cases hid : id = r.id
    · subst hid
      exact ⟨r'.update u, Table.find?_modify_self hr', rfl⟩
    · exact ⟨r', (Table.find?_modify_of_ne hid).trans hr', rfl⟩

/-! ## Side by side

A submission has resolved its request before it locks the snapshot, but all it
has read there are the catalog, which nobody writes, and rows that make no
difference to the balance. So from the lock on it does what a serial program
does. -/

/-- The serial programs of a route: a decision is run from its start, a
submission from where it has resolved what to charge. -/
def Serves (dir : Directory) (cat : Catalog) (x : Account) (v : PolicyVersion) :
    Route → Tx TimeOffRequest → Prop
  | .submit actor id reason fields, q => ∃ r : RequestService.Resolved,
    q = RequestService.charge id actor.id reason fields r ∧ r.version = v ∧
      (RequestService.newRequest id actor.id reason fields r).account = x ∧
      (RequestService.newRequest id actor.id reason fields r).WellFormed cat
  | route, q => q = route.program dir

/-- So do the routes, run one after another. -/
theorem sound_serves (hv : OnlyVersion cat x v) {route : Route} {q : Tx TimeOffRequest}
    {a : TimeOffRequest} {db' : Db}
    (hdecides : ∀ actor id approve note, route = .decide actor id approve note → decided id)
    (hcancel : ∀ actor id today, route ≠ .cancel actor id today)
    (hsound : Sound cat x v decided db) (hq : Serves dir cat x v route q)
    (h : q.exec database db = .ok (a, db')) :
    Sound cat x v decided db' ∧ Rely x db db' := by
  cases route with
  | submit actor id reason fields =>
    obtain ⟨r, rfl, rfl, hx, hwf⟩ := hq
    obtain ⟨rfl, hnew, hfloor, rfl⟩ := RequestService.charge_cases h
    have hfloor' := hfloor hv.keeps
    rw [hx] at hfloor'
    exact sound_submit hv hsound hx hwf rfl hnew hfloor'
  | decide actor id approve note =>
    obtain rfl := hq
    obtain ⟨r, w, hfind, hpending, hw, -, rfl⟩ := RequestService.decide_cases (Api.decide_cases h)
    have hx := hsound.mine id (hdecides actor id approve note rfl) r hfind
    obtain ⟨hr, -⟩ := Table.find?_eq_some.mp hfind
    have hfrozen := hv.frozen (hsound.catalog ▸ hsound.wellFormed r hr) hx
    rw [hsound.catalog, hfrozen] at hw
    cases hw
    exact sound_decide hv hsound hr hx hpending rfl
  | cancel actor id today => exact absurd rfl (hcancel actor id today)

/-- The condition under which a decision is right about its request: it has seen
what is committed. -/
abbrev Sees (s : TxSession TimeOffRequest) (db : Db) : Prop :=
  Seen database SameRow LedgerGrows s.log db

/-- A submission relies on nothing but the locked snapshot once it has resolved
the request. -/
theorem optimistic_submit (hv : OnlyVersion cat x v) {actor : Employee} {id : Uuid}
    {reason : String} {fields : RequestFields} (hemployee : fields.employeeId = x.employeeId)
    (hpolicy : ∀ employee a, dir.employee fields.employeeId = .ok employee →
      cat.assignmentForCategory employee.companyId fields.employeeId fields.categoryId
        fields.startDate = .ok (some a) → a.policyId = x.policyId) :
    Optimistic database [.snapshot x] Sees (Sound cat x v decided) (Rely x)
      (Serves dir cat x v (.submit actor id reason fields)) (fun _ => True) []
      (Api.submit dir actor id reason fields) := by
  unfold Api.submit
  cases Api.requireSelfOrAdmin dir fields.employeeId actor with
  | error e => trivial
  | ok u =>
  show Optimistic _ _ _ _ _ _ _ _ (RequestService.submit dir id actor.id reason fields)
  refine Optimistic.bind_reads (RequestService.within_resolve reads_select dir fields)
    fun log r hlog hseen => ?_
  obtain ⟨w, hw, -, hres⟩ := RequestService.resolve_traces hlog
  -- the catalog stays, so what was resolved is right on any later state
  have hcat : w.catalog = cat := (hseen _ hw).catalog
  have hresolves := hres fun y hy => (hseen y hy).catalog.trans hcat.symm
  obtain ⟨employee, hemp, hassign, -⟩ := hresolves.employee
  have hx : r.account fields.employeeId = x := by
    unfold RequestService.Resolved.account
    rw [hpolicy employee r.assignment hemp (hcat ▸ hassign), hemployee]
  have hversion : r.version = v := by
    obtain ⟨hmem, hpol, -, -⟩ := Catalog.versionEffectiveOn_spec hresolves.version
    exact hv.only _ (hcat ▸ hmem) (hpol.trans (congrArg Account.policyId hx))
  have hwf := hresolves.wellFormed id actor.id reason
  rw [hcat] at hwf
  have hserves : Serves dir cat x v (.submit actor id reason fields)
      (RequestService.charge id actor.id reason fields r) := ⟨r, rfl, hversion, hx, hwf⟩
  revert hserves
  unfold RequestService.charge RequestService.checkBalance
  rw [hx, Program.bind_bind]
  intro hserves
  -- what follows begins with the lock of the snapshot, and is the serial program itself
  refine optimistic_snapshot (List.mem_singleton.mpr rfl) (fun d d' h => h.1)
    (fun d _ _ _ => ⟨_, hserves, rfl⟩) fun row d held hheld => ?_
  exact Covers.of_all fun l hl => List.mem_singleton.mp hl ▸ hheld

/-- The version frozen with a request depends on the catalog only. -/
theorem exec_frozenVersion {r : TimeOffRequest} {version : Option PolicyVersion}
    {log : List (Stmt × Db)} {d : Db}
    (hlog : (RequestService.frozenVersion r).Traces database log version)
    (hcat : ∀ y ∈ log, y.2.catalog = d.catalog) :
    (RequestService.frozenVersion r).exec database d = .ok (version, d) := by
  refine hlog.exec (RequestService.within_frozenVersion (fun _ _ => reads_select _)
    (fun _ => reads_select _) r) fun y hy => ?_
  refine (RequestService.within_frozenVersion (P := fun st => ∀ d d' : Db,
    d.catalog = d'.catalog → st.answer d = st.answer d') ?_ ?_ r).of_traces hlog y hy _ _
      (hcat y hy)
  · intro policyId day d d' h
    show Except.ok _ = Except.ok _
    rw [h]
  · intro versionId d d' h
    show Except.ok _ = Except.ok _
    rw [h]

/-- A decision relies on its request and the locked snapshot. -/
theorem optimistic_decide {actor : Employee} {id : Uuid} {approve : Bool} {note : Option String}
    (hdecided : decided id) :
    Optimistic database [.snapshot x] Sees (Sound cat x v decided) (Rely x)
      (Serves dir cat x v (.decide actor id approve note)) (fun _ => True) []
      (Api.decide actor id approve note) := by
  show Optimistic _ _ _ _ _ (fun q => q = Api.decide actor id approve note) _ _ _
  cases hadmin : Api.requireAdmin actor with
  | error e =>
    rw [Api.decide_of_error hadmin]
    trivial
  | ok u =>
  have hprogram : Api.decide actor id approve note = _ := Api.decide_of_ok hadmin
  generalize hq : Api.decide actor id approve note = q at hprogram
  rw [hprogram]
  refine optimistic_findRequest fun v₀ row _ hv₀ hcompany => ?_
  rw [(Table.find?_eq_some.mp hv₀).2]
  -- the lock on the request is not the critical one
  intro d found hd hH _ hfound
  have hfound' : d.requests.find? id = found := Except.ok.inj hfound
  have hother : ∀ l, database.needs (.lockRequest id) d = some l → l ∉ [Lock.snapshot x] := by
    intro l hl hmem
    rw [List.mem_singleton.mp hmem] at hl
    have hl : (if d.requests.Has id then some (Lock.request id) else none)
      = some (Lock.snapshot x) := hl
    split at hl <;> cases hl
  refine ⟨fun l hl hmem => absurd hmem (hother l hl), fun _ => ⟨fun _ => rfl, ?_⟩⟩
  cases found with
  | none => trivial
  | some r =>
  show Optimistic _ _ _ _ _ _ _ _ (if _ then _ else _)
  split
  · trivial
  next hpending =>
  obtain ⟨-, hrid⟩ := Table.find?_eq_some.mp hfound'
  have hrx : r.account = x := hd.mine id hdecided r hfound'
  have hcompany' : r.companyId = actor.companyId := by
    have hrely : Rely x v₀ d := hH.2 _ (List.mem_singleton.mpr rfl)
    obtain ⟨r', hr', hsame⟩ := hrely.2 id _ hv₀
    obtain rfl := Option.mem_unique hr' hfound'
    exact hsame.trans hcompany
  refine Optimistic.bind_reads (RequestService.within_frozenVersion (fun _ _ => reads_select _)
    (fun _ => reads_select _) r) fun log₁ version hlog₁ hseen₁ => ?_
  rw [hrx]
  refine optimistic_snapshot (List.mem_singleton.mpr rfl) (fun d d' h => h.1)
    (fun d₁ hd₁ _ hsees => ⟨_, rfl, ?_⟩) fun row d held hheld => ?_
  · -- the request it has locked is the committed one
    have hsame : d₁.requests.find? id = some r := by
      obtain ⟨d', hd', -, hlock⟩ := hsees [(.select (.request id actor.companyId), v₀)]
        (.lockRequest id) d log₁ rfl
      obtain rfl : d = d' := hd'
      have hneeds : (Stmt.lockRequest id).needs d = some (.request id) :=
        if_pos (Table.has_iff.mpr ⟨r, hfound'⟩)
      exact (hlock _ hneeds).symm.trans hfound'
    have hlocked : (Stmt.lockRequest id).answer d₁ = .ok (some r) := congrArg Except.ok hsame
    -- and so is the version it has frozen
    have hversion : (RequestService.frozenVersion r).exec database d₁ = .ok (version, d₁) :=
      exec_frozenVersion hlog₁ fun y hy => (hseen₁ y hy).catalog.trans hd₁.catalog.symm
    rw [← hprogram, ← hq]
    refine (Decisions.run_decide hadmin hsame hcompany').trans ?_
    refine (Tx.run_perform (s := .lockRequest id) hlocked).trans ?_
    show Program.exec database (if _ then _ else _) d₁ = _
    rw [if_neg hpending]
    refine (Program.exec_bind_of_ok hversion).trans ?_
    rw [hrx]
  · exact Covers.of_all fun l hl => List.mem_singleton.mp hl ▸ hheld

end Spending

/-- A submission that is charged to the account, or a decision of a request of
the account. -/
def Route.OnAccount (dir : Directory) (x : Account) (d₀ : Db) : Route → Prop
  | .submit _ _ _ fields => fields.employeeId = x.employeeId ∧
    ∀ employee a, dir.employee fields.employeeId = .ok employee →
      d₀.catalog.assignmentForCategory employee.companyId fields.employeeId fields.categoryId
        fields.startDate = .ok (some a) → a.policyId = x.policyId
  | .decide _ id _ _ => ∀ r ∈ d₀.requests.find? id, r.account = x
  | .cancel .. => False

/-- Submissions and decisions on an account under one accruing version, side by
side: in every committed state the snapshot is exact, holds what is pending and
stays above the floor, and every approved request is debited once a year. -/
theorem spending_safe {ι : Type} [DecidableEq ι] {dir : Directory} {routes : ι → Route}
    {x : Account} {v : PolicyVersion} {d₀ : Db} {c : TxConfig TimeOffRequest ι}
    {l : List (TxConfig TimeOffRequest ι × Event ι × TxConfig TimeOffRequest ι)}
    (hv : Spending.OnlyVersion d₀.catalog x v) (hwf : RequestsWellFormed d₀)
    (hwithin : WithinFloor x v.floor d₀) (hdebited : DebitedOnce x d₀)
    (hroutes : ∀ i, (routes i).OnAccount dir x d₀)
    (h : Interleaved database (fun i => (routes i).program dir) d₀ l c) :
    WithinFloor x v.floor c.db ∧ DebitedOnce x c.db := by
  let decided : Uuid → Prop := fun id => ∃ i actor approve note,
    routes i = .decide actor id approve note
  have hcancel : ∀ i actor id today, routes i ≠ .cancel actor id today := by
    intro i actor id today heq
    have hi := hroutes i
    rw [heq] at hi
    exact hi
  -- each route reads what it relies on again behind the lock of the snapshot
  have hP : ∀ i, Optimistic database [.snapshot x] Spending.Sees
      (Spending.Sound d₀.catalog x v decided) (Spending.Rely x)
      (Spending.Serves dir d₀.catalog x v (routes i)) (fun _ => True) []
      ((routes i).program dir) := by
    intro i
    have hi := hroutes i
    cases hroute : routes i with
    | submit actor id reason fields =>
      rw [hroute] at hi
      exact Spending.optimistic_submit hv hi.1 hi.2
    | decide actor id approve note =>
      exact Spending.optimistic_decide ⟨i, actor, approve, note, hroute⟩
    | cancel actor id today => exact absurd hroute (hcancel i actor id today)
  have hd₀ : Spending.Sound d₀.catalog x v decided d₀ := by
    refine ⟨rfl, hwf, hwithin, hdebited, ?_⟩
    rintro id ⟨i, actor, approve, note, hroute⟩
    have hi := hroutes i
    rw [hroute] at hi
    exact hi
  -- the request that a decision has locked stays as it found it
  have hsees : ∀ y ∈ l, Meets Spending.Sees y.1 y.2.1 := fun y hy i s _ hs =>
    (tracked_before sameRow_protects ledger_grows h y hy).seen hs
  have hsound := (serializable Spending.Rely.refl Spending.Rely.trans
    (fun {i q a d d'} hd hq hexec => Spending.sound_serves hv
      (fun actor id approve note hroute => ⟨i, actor, approve, note, hroute⟩) (hcancel i) hd hq
      hexec) hP hd₀ h hsees).1
  exact ⟨hsound.within, hsound.debited⟩

/-! ## Two submissions and an approval

Two submissions that both fit the balance, where only one of them does after the
other. -/

namespace Demo

/-- Two days off, and the approval of the first. -/
def spending : Nat → Route
  | 0 => .submit admin requestId "Time off"
    { employeeId := "emp_ada", categoryId := categoryId, startDate := ofYmd 2026 4 1
      endDate := ofYmd 2026 4 1 }
  | 1 => .submit admin otherRequestId "Time off"
    { employeeId := "emp_ada", categoryId := categoryId, startDate := ofYmd 2026 4 2
      endDate := ofYmd 2026 4 2 }
  | _ => .decide admin requestId true none

end Demo

/-- Both submissions look before either is stored; the second one waits for the
snapshot. -/
theorem spending_safe_demo :
    ∃ (v : PolicyVersion) (c : TxConfig TimeOffRequest Nat), c.commits = [0, 1, 2] ∧
      WithinFloor Demo.account v.floor c.db ∧ DebitedOnce Demo.account c.db := by
  have hrun : (Op.runAll Demo.directory
      (Demo.monthlyDay none ++ [.runScheduled "cmp_warp_demo" (ofYmd 2026 3 31)])
      .empty).passes (fun r =>
        r.2.requests.rows = [] ∧ r.2.catalog.versions.rows.length = 1 ∧
        (∀ v ∈ r.2.catalog.versions.rows, v.policyId = Demo.policyId ∧ v.kind = .ACCRUAL ∧
          WithinFloor Demo.account v.floor r.2) ∧
        (∀ a ∈ r.2.catalog.assignments.rows, a.policyId = Demo.policyId) ∧
        (Config.schedule database (fun i => (Demo.spending i).program Demo.directory)
          (fun _ _ => True)
          ([.start 0, .start 1] ++ List.replicate 4 (.next 0) ++ List.replicate 4 (.next 1) ++
            List.replicate 5 (.next 0) ++ List.replicate 5 (.next 1) ++ [.start 2] ++
            List.replicate 10 (.next 2))
          (Config.initial r.2)).any fun c => c.commits = [0, 1, 2]) = true := by
    decide +kernel
  obtain ⟨⟨l₀, d₀⟩, -, hpass⟩ := Except.ok_of_passes hrun
  obtain ⟨hrequests, hlength, hversions, hassignments, hschedule⟩ := of_decide_eq_true hpass
  obtain ⟨v, hone⟩ := List.length_eq_one_iff.mp hlength
  have hmem : v ∈ d₀.catalog.versions.rows := by
    rw [hone]
    exact List.mem_singleton.mpr rfl
  obtain ⟨hpolicy, hkind, hwithin⟩ := hversions v hmem
  have hv : Spending.OnlyVersion d₀.catalog Demo.account v :=
    ⟨hmem, hpolicy, fun w hw _ => by rw [hone] at hw; exact List.mem_singleton.mp hw, hkind⟩
  have hnone : ∀ r, r ∉ d₀.requests.rows := by
    intro r hr
    rw [hrequests] at hr
    cases hr
  have hcharged : ∀ companyId day a, d₀.catalog.assignmentForCategory companyId "emp_ada"
      Demo.categoryId day = .ok (some a) → a.policyId = Demo.policyId :=
    fun companyId day a ha => hassignments a (Catalog.mem_of_assignmentForCategory ha)
  obtain ⟨c, hc, hcommits⟩ := (Option.any_eq_true _ _).mp hschedule
  obtain ⟨l, hl, -⟩ := Config.trail_of_schedule hc
  refine ⟨v, c, of_decide_eq_true hcommits, spending_safe hv (fun r hr => absurd hr (hnone r))
    hwithin (fun r hr => absurd hr (hnone r)) (fun i => ?_) hl⟩
  rcases i with - | - | i
  · exact ⟨rfl, fun employee a _ ha => hcharged _ _ a ha⟩
  · exact ⟨rfl, fun employee a _ ha => hcharged _ _ a ha⟩
  · intro r hr
    exact absurd (Table.find?_eq_some.mp hr).1 (hnone r)

end TimeOff
