import TimeOff.Requests.NetEffect

/-!
# What a request does to balances, date by date

An approval dates each of its debits on the first charged day of a year, a
cancellation dates its reversals the same way from the same frozen days. So a
request that was approved with balances and cancelled weighs nothing on any date
(`approval_undone`), whatever happened in between: the entries of a request are
its own (`DatedExact`).

`DatedExact` is the invariant of `Requests.NetEffect` with a date: by every day,
the entries of an approved request are its debits by that day, and those of a
cancelled one cancel each other. Other requests, the jobs and edits post under
other sources, so a step only has to be looked at where it decides or cancels
the request itself (`netEffectBy_afterDecide`, `netEffectBy_afterCancel`).
-/

namespace TimeOff

open Gregorian

/-- What a request costs up to a day. -/
def TimeOffRequest.costBy (r : TimeOffRequest) (day : Date) : Int :=
  ((legs r.days).map fun leg => if leg.date ≤ day then leg.minutes else 0).sum

/-- What the entries of a request add up to on a day. -/
def Db.netEffectBy (db : Db) (id : Uuid) (day : Date) : Int :=
  Table.sum db.ledger fun e =>
    if e.OfRequest id ∧ e.effectiveDate ≤ day then e.amountMinutes else 0

/-- One debit per calendar year with a charged day, dated on the first of them, and
all debits together the cost of the request. -/
structure TimeOffRequest.DebitedBy (r : TimeOffRequest) (es : List LedgerEntry) : Prop where
  once : ∀ year, (es.countP fun e => e.effectiveDate.year = year)
    = if ∃ day ∈ r.days, day.date.year = year then 1 else 0
  source : ∀ e ∈ es, e.account = r.account ∧ e.entryType = .REQUEST_DEBIT ∧
    e.key = (.REQUEST, legSource r.id e.effectiveDate.year)
  dated : ∀ e ∈ es, ∃ day ∈ r.days, day.date = e.effectiveDate
  first : ∀ e ∈ es, ∀ day ∈ r.days, day.date.year = e.effectiveDate.year →
    e.effectiveDate ≤ day.date
  total : (es.map (·.amountMinutes)).sum = -r.totalMinutes

/-- The entries of requests whose version keeps balances, on every day. -/
def DatedExact (db : Db) : Prop :=
  ∀ r ∈ db.requests.rows, db.catalog.Keeps r → ∀ day,
    db.netEffectBy r.id day = if r.status = .APPROVED then -r.costBy day else 0

/-! ## The debits of an approval

An approval posts one debit for each year, dated on the first day charged in it.
-/

namespace TimeOffRequest

variable {r : TimeOffRequest}

/-- What an approval posts debits the request. -/
theorem debitedBy_debits {c : Catalog} (hwf : r.WellFormed c) : r.DebitedBy r.debits where
  once year := by
    have hyear : ∀ leg ∈ legs r.days,
        decide ((r.debit leg).effectiveDate.year = year) = true ↔ (leg.year == year) = true := by
      intro leg hleg
      rw [decide_eq_true_eq, beq_iff_eq, ← (mem_legs hleg).2.1]
      rfl
    -- a debit of the year is a leg of the year, and the legs have different years
    have hcount : (r.debits.countP fun e => e.effectiveDate.year = year)
        = ((legs r.days).map (·.year)).count year := by
      simp only [debits]
      rw [List.countP_map, List.count, List.countP_map]
      exact List.countP_congr hyear
    rw [hcount]
    split
    · next h =>
      obtain ⟨day, hday, rfl⟩ := h
      obtain ⟨leg, hleg, hyear⟩ := exists_leg hday
      rw [← hyear]
      exact List.count_eq_one_of_mem nodup_legs (List.mem_map_of_mem hleg)
    · next h =>
      refine List.count_eq_zero.mpr fun hmem => h ?_
      obtain ⟨leg, hleg, rfl⟩ := List.mem_map.mp hmem
      obtain ⟨⟨day, hday, hdated⟩, hyear, -⟩ := mem_legs hleg
      exact ⟨day, hday, by rw [hdated, hyear]⟩
  source e he := by
    obtain ⟨leg, hleg, rfl⟩ := List.mem_map.mp he
    refine ⟨rfl, rfl, ?_⟩
    show (SourceType.REQUEST, legSource r.id leg.year) = _
    rw [← (mem_legs hleg).2.1]
    rfl
  dated e he := by
    obtain ⟨leg, hleg, rfl⟩ := List.mem_map.mp he
    exact (mem_legs hleg).1
  first e he day hday hyear := by
    obtain ⟨leg, hleg, rfl⟩ := List.mem_map.mp he
    obtain ⟨-, hlegyear, hfirst⟩ := mem_legs hleg
    exact hfirst day hday (hyear.trans hlegyear)
  total := r.sum_debits (fun _ => rfl) hwf.total_eq

/-- What the debits of a request weigh on a day. -/
theorem sum_debits_by (day : Date) :
    (r.debits.map fun e =>
      if e.OfRequest r.id ∧ e.effectiveDate ≤ day then e.amountMinutes else 0).sum
        = -r.costBy day := by
  simp only [debits, costBy]
  rw [List.sum_neg, List.map_map, List.map_map]
  refine congrArg List.sum (List.map_congr_left fun leg _ => ?_)
  simp only [Function.comp_apply, LedgerEntry.ofRequest_debit, true_and]
  show (if leg.date ≤ day then -leg.minutes else 0) = -if leg.date ≤ day then leg.minutes else 0
  split <;> omega

/-- The reversals weigh the opposite. -/
theorem sum_reversals_by (day : Date) :
    (r.reversals.map fun e =>
      if e.OfRequest r.id ∧ e.effectiveDate ≤ day then e.amountMinutes else 0).sum
        = r.costBy day := by
  simp only [reversals, costBy]
  rw [List.map_map]
  refine congrArg List.sum (List.map_congr_left fun leg _ => ?_)
  simp only [Function.comp_apply, LedgerEntry.ofRequest_reversal, true_and]
  rfl

end TimeOffRequest

/-! ## Along a run

The entries of a request by a day are those its status says, dated as its days
are: an invariant of every step, with cancellations posting the same dates as
approvals. -/

section steps

variable {dir : Directory} {db db' : Db} {op : Op} {r s : TimeOffRequest} {kind : PolicyKind}
  {approve : Bool} {u : RequestUpdate}

/-- A decision posts the debits of its own request only. -/
theorem netEffectBy_afterDecide (hlegs : LegsPosted db) (hr : r ∈ db.requests.rows)
    (hpending : r.status = .PENDING) (day : Date) :
    (db.afterDecide r approve kind u).netEffectBy s.id day
      = db.netEffectBy s.id day
        - if s.id = r.id ∧ approve = true ∧ kind ≠ .UNLIMITED then r.costBy day else 0 := by
  refine (Db.sum_afterDecide hlegs hr hpending).trans ?_
  by_cases hid : s.id = r.id
  · rw [hid, TimeOffRequest.sum_debits_by]
    by_cases hc : approve = true ∧ kind ≠ .UNLIMITED
    · rw [if_pos hc, if_pos ⟨rfl, hc⟩]
      exact (Int.sub_eq_add_neg).symm
    · rw [if_neg hc, if_neg fun h => hc h.2, Int.add_zero, Int.sub_zero]
      rfl
  · have hsum : (r.debits.map fun e =>
        if e.OfRequest s.id ∧ e.effectiveDate ≤ day then e.amountMinutes else 0).sum = 0 := by
      refine List.sum_eq_zero fun x hx => ?_
      obtain ⟨e, he, rfl⟩ := List.mem_map.mp hx
      obtain ⟨leg, -, rfl⟩ := List.mem_map.mp he
      exact if_neg fun h => hid (LedgerEntry.ofRequest_debit.mp h.1)
    rw [hsum, ite_self, Int.add_zero, if_neg fun h => hid h.1, Int.sub_zero]
    rfl

/-- A cancellation posts the reversals of its own. -/
theorem netEffectBy_afterCancel (hlegs : LegsPosted db) (hr : r ∈ db.requests.rows)
    (hlive : r.status.LIVE = true) (day : Date) :
    (db.afterCancel r u).netEffectBy s.id day
      = db.netEffectBy s.id day
        + if s.id = r.id ∧ r.status = .APPROVED then r.costBy day else 0 := by
  refine (Db.sum_afterCancel hlegs hr hlive).trans ?_
  by_cases hid : s.id = r.id
  · rw [hid, TimeOffRequest.sum_reversals_by]
    simp only [true_and]
    rfl
  · have hsum : (r.reversals.map fun e =>
        if e.OfRequest s.id ∧ e.effectiveDate ≤ day then e.amountMinutes else 0).sum = 0 := by
      refine List.sum_eq_zero fun x hx => ?_
      obtain ⟨e, he, rfl⟩ := List.mem_map.mp hx
      obtain ⟨leg, -, rfl⟩ := List.mem_map.mp he
      exact if_neg fun h => hid (LedgerEntry.ofRequest_reversal.mp h.1)
    rw [hsum, ite_self, Int.add_zero, if_neg fun h => hid h.1, Int.add_zero]
    rfl

/-- Steps that post nothing leave all this alone. -/
theorem netEffectBy_congr (h : db'.ledger = db.ledger) {id : Uuid} (day : Date) :
    db'.netEffectBy id day = db.netEffectBy id day := by
  simp only [Db.netEffectBy]
  rw [h]

/-- Every step keeps the entries of requests exact on every day. -/
theorem DatedExact.step (h : DatedExact db) (hwf : RequestsWellFormed db) (hlegs : LegsPosted db)
    (heffect : Effect dir db op db') : DatedExact db' := by
  have hgrows := heffect.grows
  have hold : ∀ s ∈ db.requests.rows, db'.catalog.Keeps s → ∀ day,
      db.netEffectBy s.id day = if s.status = .APPROVED then -s.costBy day else 0 :=
    fun s hs hkeeps => h s hs (((hwf s hs).keeps_iff hgrows).mp hkeeps)
  intro s hs hkeeps day
  -- only steps on the request itself post entries of it
  cases heffect.onRequests with
  | other hrequests hledger _ hes _ =>
    rw [hrequests] at hs
    rw [netEffectBy_congr hledger, ← hold s hs hkeeps day]
    exact Db.sum_posts_eq fun e he => if_neg fun hof => hof.1.1.elim (hes e he).1 (hes e he).2
  | submit hrow hpending hnew _ =>
    rw [netEffectBy_congr Db.afterSubmit_ledger]
    rw [Db.afterSubmit_requests] at hs
    rcases Table.mem_insertNew hs with hmem | ⟨rfl, -⟩
    · exact hold s hmem hkeeps day
    · rw [hpending, if_neg (by decide)]
      exact Table.sum_eq_zero fun e he => if_neg fun hof => hlegs.not_ofRequest hnew e he hof.1
  | @decide actor approve note r v hr hpending hv =>
    rw [Db.afterDecide_requests] at hs
    rcases Table.eq_or_mem_of_mem_modify hr hs with rfl | ⟨hmem, hid⟩
    · show (db.afterDecide r approve v.kind _).netEffectBy r.id day = _
      rw [netEffectBy_afterDecide hlegs hr hpending, hold r hr hkeeps day, hpending,
        if_neg (by decide)]
      rw [Db.afterDecide_catalog] at hkeeps
      have hkind : v.kind ≠ .UNLIMITED := (Catalog.keeps_iff hv).mp hkeeps
      have hdecided : (r.update (RequestService.decision approve actor.id note)).status
          = .APPROVED ↔ approve = true := RequestService.decision_status approve actor.id note
      by_cases happrove : approve = true
      · rw [if_pos ⟨rfl, happrove, hkind⟩, if_pos (hdecided.mpr happrove)]
        exact Int.zero_sub _
      · rw [if_neg fun hc => happrove hc.2.1, if_neg fun hc => happrove (hdecided.mp hc)]
        rfl
    · rw [netEffectBy_afterDecide hlegs hr hpending, if_neg fun hc => hid hc.1, Int.sub_zero]
      exact hold s hmem hkeeps day
  | @cancel actor today r hr hlive =>
    rw [Db.afterCancel_requests] at hs
    rcases Table.eq_or_mem_of_mem_modify hr hs with rfl | ⟨hmem, hid⟩
    · show (db.afterCancel r _).netEffectBy r.id day = 0
      rw [netEffectBy_afterCancel hlegs hr hlive, hold r hr hkeeps day]
      -- the reversals have the dates of the debits, whatever has happened since
      by_cases happroved : r.status = .APPROVED
      · rw [if_pos happroved, if_pos ⟨rfl, happroved⟩]
        omega
      · rw [if_neg happroved, if_neg fun hc => happroved hc.2]
        rfl
    · rw [netEffectBy_afterCancel hlegs hr hlive, if_neg fun hc => hid hc.1, Int.add_zero]
      exact hold s hmem hkeeps day

/-- Requests stay, and with them the versions they froze. -/
theorem RequestEffect.kept (h : RequestEffect db op db') (hr : r ∈ db.requests.rows) :
    ∃ r' ∈ db'.requests.rows, r'.id = r.id ∧ r'.policyVersionId = r.policyVersionId := by
  cases h with
  | other hrequests _ _ _ _ => exact ⟨r, hrequests ▸ hr, rfl, rfl⟩
  | submit _ _ _ _ =>
    refine ⟨r, ?_, rfl, rfl⟩
    rw [Db.afterSubmit_requests]
    exact Table.subset_insertNew _ _ hr
  | decide _ _ _ =>
    rw [Db.afterDecide_requests]
    refine ⟨_, Table.mem_modify.mpr ⟨r, hr, rfl⟩, ?_⟩
    split <;> exact ⟨rfl, rfl⟩
  | cancel _ _ =>
    rw [Db.afterCancel_requests]
    refine ⟨_, Table.mem_modify.mpr ⟨r, hr, rfl⟩, ?_⟩
    split <;> exact ⟨rfl, rfl⟩

end steps

/-- In every reachable state, the entries of requests are exact on every day. -/
theorem Reachable.datedExact {dir : Directory} {db : Db} (h : Reachable dir db) :
    RequestsWellFormed db ∧ LegsPosted db ∧ DatedExact db := by
  obtain ⟨l, hl⟩ := h
  refine hl.invariant (I := fun db => RequestsWellFormed db ∧ LegsPosted db ∧ DatedExact db)
    ⟨requestsWellFormed_empty, legsPosted_empty, fun _ hr => absurd hr List.not_mem_nil⟩ ?_
  rintro db op db' ⟨hwf, hlegs, hdated⟩ hstep
  have heffect := effect_of_step hstep
  exact ⟨heffect.requestsWellFormed hwf, hlegs.step heffect.onRequests,
    hdated.step hwf hlegs heffect⟩

/-- An approval under a version with balances posts a debit for every year of the
request, and a cancellation some time later leaves nothing of them on any
day. -/
theorem approval_undone {dir : Directory} {db db₁ : Db} {actor : Employee} {id : Uuid}
    {note : Option String} {r : TimeOffRequest} {v : PolicyVersion} (hreach : Reachable dir db)
    (hr : db.requests.find? id = some r) (hv : db.catalog.version r.policyVersionId = some v)
    (hkind : v.kind = .ACCRUAL) (happrove : Step dir db (.decide actor id true note) db₁) :
    (∃ es, db₁.ledger.rows = db.ledger.rows ++ es ∧ r.DebitedBy es) ∧
      ∀ l db₂ canceller today db₃, Run dir db₁ l db₂ →
        Step dir db₂ (.cancel canceller id today) db₃ → ∀ day, db₃.netEffectBy id day = 0 := by
  obtain ⟨hmem, rfl⟩ := Table.find?_eq_some.mp hr
  obtain ⟨hwf, hlegs, -⟩ := hreach.datedExact
  have heffect := effect_of_step happrove
  have hkeeps : v.kind ≠ .UNLIMITED := by
    rw [hkind]
    decide
  constructor
  · cases heffect with
    | @decide actor id approve note s w hfind hpending hw hfloor =>
    obtain rfl : r = s := Option.some.inj (hr.symm.trans hfind)
    obtain rfl : v = w := Option.some.inj (hv.symm.trans hw)
    refine ⟨r.debits, ?_, r.debitedBy_debits (hwf r hmem)⟩
    rw [Db.afterDecide_ledger]
    simp only [Db.afterDebits]
    rw [if_pos ⟨trivial, hkeeps⟩]
    exact Db.posts_rows_of_fresh (hlegs.debits_fresh hmem hpending) r.nodup_debits
  · intro l db₂ canceller today db₃ hl hcancel day
    have hl := (Trail.nil.snoc happrove).append hl
    have hreach₂ := hreach.run hl
    -- the request is still there, with the version it froze
    obtain ⟨r', hr', hid, hfrozen⟩ := hl.invariant
      (I := fun db => ∃ r' ∈ db.requests.rows, r'.id = r.id ∧
        r'.policyVersionId = r.policyVersionId) ⟨r, hmem, rfl, rfl⟩ (by
        rintro db op db' ⟨r', hr', hid, hfrozen⟩ hstep
        obtain ⟨r'', hr'', hid', hfrozen'⟩ := (effect_of_step hstep).onRequests.kept hr'
        exact ⟨r'', hr'', hid'.trans hid, hfrozen'.trans hfrozen⟩)
    have hgrows : db.catalog.Grows db₂.catalog := hl.invariant
      (I := fun db' => db.catalog.Grows db'.catalog) (.refl _)
      fun h hstep => h.trans (effect_of_step hstep).grows
    have hv' : db₂.catalog.version r'.policyVersionId = some v := hfrozen ▸ hgrows.version hv
    obtain ⟨-, -, hdated⟩ := (hreach₂.step hcancel).datedExact
    cases effect_of_step hcancel with
    | @cancel actor id today s hfind hlive hstart =>
    obtain ⟨hs, hsid⟩ := Table.find?_eq_some.mp hfind
    obtain rfl := Table.eq_of_key hs hr' (hsid.trans hid.symm)
    have hcancelled := hdated (s.update (RequestService.cancellation s.status canceller.id)) (by
      rw [Db.afterCancel_requests]
      exact Table.mem_modify.mpr ⟨s, hs, (if_pos rfl).symm⟩) (by
      rw [Db.afterCancel_catalog]
      exact ⟨v, hv', hkeeps⟩) day
    rw [← hid]
    exact hcancelled.trans (if_neg fun hc => RequestStatus.noConfusion hc)

namespace Demo

/-- Ada earns a day a month, and asks for the days around New Year. -/
def aroundNewYear : List Op :=
  monthlyDay none ++
    [ .runScheduled "cmp_warp_demo" (ofYmd 2026 12 31),
      request requestId (ofYmd 2026 12 29) (ofYmd 2027 1 5) ]

/-- The request, its approval, and its cancellation after a scheduled run. -/
structure Undone where
  asked : Db
  approved : Db
  jobs : List (Db × Op × Db)
  later : Db
  cancelled : Db

def askThenUndo : Except Error Undone := do
  let (_, asked) ← Op.runAll directory aroundNewYear .empty
  let approved ← (Op.decide admin requestId true none).run directory asked
  let (jobs, later) ← Op.runAll directory [.runScheduled "cmp_warp_demo" (ofYmd 2027 1 31)] approved
  let cancelled ← (Op.cancel admin requestId (ofYmd 2026 12 1)).run directory later
  return ⟨asked, approved, jobs, later, cancelled⟩

theorem askThenUndo_ok {r : Undone} (h : askThenUndo = .ok r) :
    Reachable directory r.asked ∧
      Step directory r.asked (.decide admin requestId true none) r.approved ∧
      Run directory r.approved r.jobs r.later ∧
      Step directory r.later (.cancel admin requestId (ofYmd 2026 12 1)) r.cancelled := by
  obtain ⟨⟨l, asked⟩, hasked, h⟩ := Except.bind_eq_ok.mp h
  obtain ⟨approved, happroved, h⟩ := Except.bind_eq_ok.mp h
  obtain ⟨⟨jobs, later⟩, hjobs, h⟩ := Except.bind_eq_ok.mp h
  obtain ⟨cancelled, hcancelled, h⟩ := Except.bind_eq_ok.mp h
  cases h
  exact ⟨⟨l, run_of_runAll hasked⟩, happroved, run_of_runAll hjobs, hcancelled⟩

end Demo

/-- Four days of 2026 and three of 2027 are debited and given back. -/
theorem new_year_undone :
    ∃ db, Reachable Demo.directory db ∧ ∀ day, db.netEffectBy Demo.requestId day = 0 := by
  have hrun : Demo.askThenUndo.passes (fun r =>
      ∃ request ∈ r.asked.requests.find? Demo.requestId,
        ∃ v ∈ r.asked.catalog.version request.policyVersionId, v.kind = .ACCRUAL) = true := by
    decide +kernel
  obtain ⟨r, hr, htest⟩ := Except.ok_of_passes hrun
  obtain ⟨request, hrequest, v, hv, hkind⟩ := of_decide_eq_true htest
  obtain ⟨hreach, happrove, hl, hcancel⟩ := Demo.askThenUndo_ok hr
  exact ⟨r.cancelled, ((hreach.step happrove).run hl).step hcancel,
    (approval_undone hreach hrequest hv hkind happrove).2 _ _ _ _ _ hl hcancel⟩

end TimeOff
