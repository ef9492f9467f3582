import TimeOff.Requests.Lifecycle

/-!
# What a request does to the ledger

An approval posts one debit per calendar year, a cancellation one reversal per
calendar year, under sources of the request (`legSource`). The legs add up to
the cost of the request (`sum_legs`), and which of a request's sources are in
the ledger follows from its status (`LegsPosted`). So the entries of a request
add up to what its status says, except after the cancellation of a request
approved under an `UNLIMITED` version (`net_effect_iff`).

The entries of a request are recognised by their source: it begins with the
request's id and a separator, which no other id has for a prefix
(`prefix_legSource_iff`). `Db.netEffect` sums them up.

`LegsPosted` is the invariant that makes entries count. Debits are in the ledger
only if their request was approved and reversals only if it was cancelled, so a
pending request finds the sources of its debits free, a live one those of its
reversals (`debits_fresh`, `reversals_fresh`), and what is posted is entered in
full rather than skipped as a duplicate. With it, a decision and a cancellation
change `netEffect` by the cost of the request (`netEffect_afterDecide`,
`netEffect_afterCancel`) and nothing else changes it.

`NetExact` is then kept by every step that reverses debits only, and broken by
every other one, which is what the equivalence for runs needs.
-/

namespace TimeOff

open Gregorian

/-! ## Legs

A request's days by calendar year: every year once, all years together the whole
of it, each dated on its first day. -/

section legs

variable {days : List RequestDay} {totals : MinutesByYear} {day : RequestDay}

/-- The dictionary of minutes by year: each day adds its minutes to its year. -/
theorem MinutesByYear.sum_addDay :
    Table.sum (totals.addDay day) Prod.snd = Table.sum totals Prod.snd + day.minutes := by
  simp only [addDay]
  by_cases h : Table.Has totals day.date.year
  · obtain ⟨entry, hentry⟩ := Table.has_iff.mp h
    have hsame : Table.insertNew totals (day.date.year, (0 : Int)) = totals :=
      Table.insertNew_of_has h
    rw [hsame, Table.sum_modify hentry]
    dsimp only
    omega
  · have hnew : (Table.insertNew totals (day.date.year, (0 : Int))).find? day.date.year
        = some (day.date.year, 0) :=
      Table.find?_insertNew_self (r := (day.date.year, (0 : Int))) h
    rw [Table.sum_modify hnew, Table.sum_insertNew h]
    dsimp only
    omega

theorem MinutesByYear.has_addDay {year : Int} :
    Table.Has (totals.addDay day) year ↔ Table.Has totals year ∨ year = day.date.year := by
  simp only [addDay]
  rw [Table.has_modify, Table.has_insertNew]

/-- All days together. -/
theorem sum_foldl_addDay :
    Table.sum (days.foldl MinutesByYear.addDay totals) Prod.snd
      = Table.sum totals Prod.snd + (days.map (·.minutes)).sum := by
  induction days generalizing totals with
  | nil => exact (Int.add_zero _).symm
  | cons day days ih =>
    rw [List.foldl_cons, ih, MinutesByYear.sum_addDay, List.map_cons, List.sum_cons, Int.add_assoc]

theorem has_foldl_addDay {year : Int} :
    Table.Has (days.foldl MinutesByYear.addDay totals) year ↔
      Table.Has totals year ∨ ∃ day ∈ days, year = day.date.year := by
  induction days generalizing totals with
  | nil => simp
  | cons day days ih =>
    rw [List.foldl_cons, ih, MinutesByYear.has_addDay, List.exists_mem_cons_iff, or_assoc]

/-- A year with a charged day has a first one. -/
theorem firstDay_isSome (h : day ∈ days) : ∃ date, firstDay days day.date.year = some date := by
  simp only [firstDay]
  rw [← Option.isSome_iff_exists, List.isSome_min?_iff]
  have hmem : day ∈ days.filter fun d => d.date.year = day.date.year :=
    List.mem_filter.mpr ⟨h, decide_eq_true rfl⟩
  exact List.ne_nil_of_mem (List.mem_map_of_mem hmem)

/-- Every year of the dictionary has its leg. -/
theorem legs_eq :
    (legs days).map (fun leg => (leg.year, leg.minutes)) = (minutesByYear days).rows := by
  have hyears : ∀ entry ∈ (minutesByYear days).rows, ∃ date, firstDay days entry.1 = some date := by
    intro entry hentry
    rcases has_foldl_addDay.mp (Table.has_of_mem hentry) with h | ⟨day, hday, hyear⟩
    · cases h
    · rw [hyear]
      exact firstDay_isSome hday
  simp only [legs]
  revert hyears
  generalize (minutesByYear days).rows = rows
  intro hyears
  induction rows with
  | nil => rfl
  | cons entry rows ih =>
    obtain ⟨date, hdate⟩ := hyears entry (List.mem_cons_self ..)
    simp only [List.filterMap_cons, hdate, Option.map_some, List.map_cons]
    rw [ih fun e he => hyears e (List.mem_cons_of_mem _ he)]

/-- The legs of a request cost what its days cost. -/
theorem sum_legs : ((legs days).map (·.minutes)).sum = (days.map (·.minutes)).sum := by
  have hmap : (legs days).map (·.minutes)
      = ((legs days).map fun leg => (leg.year, leg.minutes)).map Prod.snd := by
    rw [List.map_map]
    rfl
  rw [hmap, legs_eq]
  exact sum_foldl_addDay.trans (Int.zero_add _)

/-- One leg per year. -/
theorem nodup_legs : ((legs days).map (·.year)).Nodup := by
  have hmap : (legs days).map (·.year)
      = ((legs days).map fun leg => (leg.year, leg.minutes)).map Prod.fst := by
    rw [List.map_map]
    rfl
  rw [hmap, legs_eq]
  exact (minutesByYear days).nodup

/-- Every day is in the leg of its year. -/
theorem exists_leg {day : RequestDay} (h : day ∈ days) :
    ∃ leg ∈ legs days, leg.year = day.date.year := by
  have hhas : Table.Has (minutesByYear days) day.date.year :=
    has_foldl_addDay.mpr (Or.inr ⟨day, h, rfl⟩)
  obtain ⟨entry, hentry⟩ := Table.has_iff.mp hhas
  obtain ⟨hmem, hyear⟩ := Table.find?_eq_some.mp hentry
  rw [← legs_eq] at hmem
  obtain ⟨leg, hleg, rfl⟩ := List.mem_map.mp hmem
  exact ⟨leg, hleg, hyear⟩

/-- And every leg is dated on the first day of its year. -/
theorem mem_legs {leg : Leg} (h : leg ∈ legs days) :
    (∃ day ∈ days, day.date = leg.date) ∧ leg.date.year = leg.year ∧
      ∀ day ∈ days, day.date.year = leg.year → leg.date ≤ day.date := by
  obtain ⟨entry, -, hentry⟩ := List.mem_filterMap.mp h
  obtain ⟨date, hdate, rfl⟩ := Option.map_eq_some_iff.mp hentry
  obtain ⟨hmem, hmin⟩ := List.min?_eq_some_iff.mp hdate
  obtain ⟨day, hday, hdated⟩ := List.mem_map.mp hmem
  obtain ⟨hday, hyear⟩ := List.mem_filter.mp hday
  have hyear := of_decide_eq_true hyear
  refine ⟨⟨day, hday, hdated⟩, hdated ▸ hyear, fun other hother hyear' => ?_⟩
  exact hmin _ (List.mem_map_of_mem (List.mem_filter.mpr ⟨hother, decide_eq_true hyear'⟩))

end legs

/-! ## Sources of a request

Entries of a request are told by their source: the id of the request and a year.
So its debits and reversals are counted apart from everything else in the
ledger. -/

/-- The source of a leg tells the request and the year. -/
theorem legSource_inj {a b : Uuid} {y z : Int} (h : legSource a y = legSource b z) :
    a = b ∧ y = z := by
  obtain ⟨htext, hyear⟩ := Text.append_sep_inj (x := ':') a.colon_notMem b.colon_notMem h
  exact ⟨Uuid.text_injective htext, Text.decimal_inj hyear⟩

/-- The source of an entry is the request: its source id begins with the
request's id. -/
def LedgerEntry.OfRequest (id : Uuid) (e : LedgerEntry) : Prop :=
  (e.sourceType = .REQUEST ∨ e.sourceType = .REQUEST_CANCELLATION) ∧
    (id.text ++ ":").toList <+: e.sourceId.toList

instance (id : Uuid) (e : LedgerEntry) : Decidable (e.OfRequest id) :=
  inferInstanceAs (Decidable (_ ∧ _))

/-- The sum of the entries whose source is the request. -/
def Db.netEffect (db : Db) (id : Uuid) : Int :=
  Table.sum db.ledger fun e => if e.OfRequest id then e.amountMinutes else 0

/-- No id is the beginning of another, so the source begins with one id only. -/
theorem prefix_legSource_iff {a b : Uuid} {y : Int} :
    (a.text ++ ":").toList <+: (legSource b y).toList ↔ a = b := by
  constructor
  · rintro ⟨rest, hrest⟩
    have htext : a.text ++ ":" ++ String.ofList rest = legSource b y := by
      apply String.toList_injective
      rw [String.toList_append, String.toList_ofList, hrest]
    exact Uuid.text_injective
      (Text.append_sep_inj (x := ':') a.colon_notMem b.colon_notMem htext).1
  · rintro rfl
    exact ⟨(Text.decimal y).toList, (String.toList_append ..).symm⟩

/-- Debits and reversals are entries of their request and of no other. -/
theorem LedgerEntry.ofRequest_debit {id : Uuid} {r : TimeOffRequest} {leg : Leg} :
    (r.debit leg).OfRequest id ↔ id = r.id := by
  simp only [LedgerEntry.OfRequest]
  rw [show (r.debit leg).sourceId = legSource r.id leg.year from rfl, prefix_legSource_iff]
  exact ⟨fun h => h.2, fun h => ⟨Or.inl rfl, h⟩⟩

theorem LedgerEntry.ofRequest_reversal {id : Uuid} {r : TimeOffRequest} {leg : Leg} :
    (r.reversal leg).OfRequest id ↔ id = r.id := by
  simp only [LedgerEntry.OfRequest]
  rw [show (r.reversal leg).sourceId = legSource r.id leg.year from rfl, prefix_legSource_iff]
  exact ⟨fun h => h.2, fun h => ⟨Or.inr rfl, h⟩⟩

/-- Legs are posted under sources of their own. -/
theorem TimeOffRequest.nodup_debits (r : TimeOffRequest) :
    (r.debits.map LedgerEntry.key).Nodup := by
  have hkeys : r.debits.map LedgerEntry.key
      = ((legs r.days).map (·.year)).map fun year => (SourceType.REQUEST, legSource r.id year) := by
    simp only [debits]
    rw [List.map_map, List.map_map]
    rfl
  rw [hkeys]
  exact nodup_legs.map fun y z h => (legSource_inj (Prod.mk.inj h).2).2

theorem TimeOffRequest.nodup_reversals (r : TimeOffRequest) :
    (r.reversals.map LedgerEntry.key).Nodup := by
  have hkeys : r.reversals.map LedgerEntry.key
      = ((legs r.days).map (·.year)).map
          fun year => (SourceType.REQUEST_CANCELLATION, legSource r.id year) := by
    simp only [reversals]
    rw [List.map_map, List.map_map]
    rfl
  rw [hkeys]
  exact nodup_legs.map fun y z h => (legSource_inj (Prod.mk.inj h).2).2

/-- The debits of a request weigh what it costs. -/
theorem TimeOffRequest.sum_debits (r : TimeOffRequest) {w : LedgerEntry → Int}
    (hw : ∀ leg, w (r.debit leg) = -leg.minutes)
    (htotal : r.totalMinutes = (r.days.map (·.minutes)).sum) :
    (r.debits.map w).sum = -r.totalMinutes := by
  have hmap : r.debits.map w = (legs r.days).map fun leg => -leg.minutes := by
    simp only [debits]
    rw [List.map_map]
    exact List.map_congr_left fun leg _ => hw leg
  have hneg : ((legs r.days).map fun leg => -leg.minutes)
      = ((legs r.days).map (·.minutes)).map fun m => -m := by
    rw [List.map_map]
    rfl
  rw [hmap, hneg, ← List.sum_neg, sum_legs, htotal]

theorem TimeOffRequest.sum_reversals (r : TimeOffRequest) {w : LedgerEntry → Int}
    (hw : ∀ leg, w (r.reversal leg) = leg.minutes)
    (htotal : r.totalMinutes = (r.days.map (·.minutes)).sum) :
    (r.reversals.map w).sum = r.totalMinutes := by
  have hmap : r.reversals.map w = (legs r.days).map (·.minutes) := by
    simp only [reversals]
    rw [List.map_map]
    exact List.map_congr_left fun leg _ => hw leg
  rw [hmap, sum_legs, htotal]

/-- Which requests have entries in the ledger. -/
structure LegsPosted (db : Db) : Prop where
  debit : ∀ e ∈ db.ledger.rows, e.sourceType = .REQUEST →
    ∃ r ∈ db.requests.rows, (r.status = .APPROVED ∨ r.status = .CANCELLED) ∧
      ∃ year, e.sourceId = legSource r.id year
  reversal : ∀ e ∈ db.ledger.rows, e.sourceType = .REQUEST_CANCELLATION →
    ∃ r ∈ db.requests.rows, r.status = .CANCELLED ∧ ∃ year, e.sourceId = legSource r.id year

section fresh

variable {db : Db} {r : TimeOffRequest}

/-- A pending request has no debits, and an open one no reversals. -/
theorem LegsPosted.debits_fresh (h : LegsPosted db) (hr : r ∈ db.requests.rows)
    (hpending : r.status = .PENDING) : ∀ e ∈ r.debits, ¬ Table.Has db.ledger e.key := by
  intro e he hhas
  obtain ⟨leg, -, rfl⟩ := List.mem_map.mp he
  obtain ⟨f, hf, hkey⟩ := List.mem_map.mp hhas
  obtain ⟨htype, hsource⟩ := Prod.mk.inj hkey
  obtain ⟨s, hs, hstatus, year, hyear⟩ := h.debit f hf htype
  obtain ⟨hid, -⟩ := legSource_inj (hyear.symm.trans hsource)
  obtain rfl := Table.eq_of_key hs hr hid
  rw [hpending] at hstatus
  rcases hstatus with h | h <;> cases h

theorem LegsPosted.reversals_fresh (h : LegsPosted db) (hr : r ∈ db.requests.rows)
    (hstatus : r.status ≠ .CANCELLED) : ∀ e ∈ r.reversals, ¬ Table.Has db.ledger e.key := by
  intro e he hhas
  obtain ⟨leg, -, rfl⟩ := List.mem_map.mp he
  obtain ⟨f, hf, hkey⟩ := List.mem_map.mp hhas
  obtain ⟨htype, hsource⟩ := Prod.mk.inj hkey
  obtain ⟨s, hs, hcancelled, year, hyear⟩ := h.reversal f hf htype
  obtain ⟨hid, -⟩ := legSource_inj (hyear.symm.trans hsource)
  obtain rfl := Table.eq_of_key hs hr hid
  exact hstatus hcancelled

/-- A request that is not stored has no entries. -/
theorem LegsPosted.not_ofRequest (h : LegsPosted db) {id : Uuid} (hid : ¬ db.requests.Has id) :
    ∀ e ∈ db.ledger.rows, ¬ e.OfRequest id := by
  rintro e he ⟨htype, hbegins⟩
  have hsource : ∃ s ∈ db.requests.rows, ∃ year, e.sourceId = legSource s.id year := by
    rcases htype with htype | htype
    · obtain ⟨s, hs, -, hyear⟩ := h.debit e he htype
      exact ⟨s, hs, hyear⟩
    · obtain ⟨s, hs, -, hyear⟩ := h.reversal e he htype
      exact ⟨s, hs, hyear⟩
  obtain ⟨s, hs, year, hyear⟩ := hsource
  rw [hyear, prefix_legSource_iff] at hbegins
  exact hid (hbegins ▸ Table.has_of_mem hs)

/-- Nor do its entries add up to anything. -/
theorem LegsPosted.netEffect_eq_zero (h : LegsPosted db) {id : Uuid} (hid : ¬ db.requests.Has id) :
    db.netEffect id = 0 :=
  Table.sum_eq_zero fun e he => if_neg (h.not_ofRequest hid e he)

end fresh

namespace Db

variable {db : Db} {r : TimeOffRequest} {id : Uuid} {es : List LedgerEntry}

/-- The entries are in the ledger. -/
theorem netEffect_congr {db db' : Db} (h : db'.ledger = db.ledger) :
    db'.netEffect id = db.netEffect id := by
  simp only [netEffect]
  rw [h]

/-- Entries of other sources do not count. -/
theorem netEffect_posts (h : ∀ e ∈ es, ¬ e.OfRequest id) :
    (db.posts es).netEffect id = db.netEffect id :=
  sum_posts_eq fun e he => if_neg (h e he)

/-- What an approval does to a sum over the ledger. -/
theorem sum_afterDecide {w : LedgerEntry → Int} {kind : PolicyKind} {approve : Bool}
    {u : RequestUpdate} (hlegs : LegsPosted db) (hr : r ∈ db.requests.rows)
    (hpending : r.status = .PENDING) :
    Table.sum (db.afterDecide r approve kind u).ledger w
      = Table.sum db.ledger w
        + if approve = true ∧ kind ≠ .UNLIMITED then (r.debits.map w).sum else 0 := by
  rw [afterDecide_ledger]
  simp only [afterDebits]
  by_cases hc : approve = true ∧ kind ≠ .UNLIMITED
  · rw [if_pos hc, if_pos hc,
      sum_posts_of_fresh (hlegs.debits_fresh hr hpending) r.nodup_debits]
  · rw [if_neg hc, if_neg hc, Int.add_zero]

theorem sum_afterCancel {w : LedgerEntry → Int} {u : RequestUpdate} (hlegs : LegsPosted db)
    (hr : r ∈ db.requests.rows) (hlive : r.status.LIVE = true) :
    Table.sum (db.afterCancel r u).ledger w
      = Table.sum db.ledger w
        + if r.status = .APPROVED then (r.reversals.map w).sum else 0 := by
  have hledger : (db.afterCancel r u).ledger
      = if r.status = .PENDING then db.ledger else (db.posts r.reversals).ledger :=
    afterCancel_ledger
  rw [hledger]
  rcases RequestStatus.live_iff.mp hlive with hpending | happroved
  · rw [hpending, if_pos rfl, if_neg (by decide), Int.add_zero]
  · have hnot : r.status ≠ .CANCELLED := by
      rw [happroved]
      nofun
    rw [if_neg (by rw [happroved]; nofun), if_pos happroved,
      sum_posts_of_fresh (hlegs.reversals_fresh hr hnot) r.nodup_reversals]

end Db

/-! ## Along a run

The invariant has two parts: which legs are posted, by status, and what they add
up to. A cancellation gives back whatever the status says, so it fails exactly
for a request that was approved without a debit. -/

/-- What a request's entries should add up to. -/
def TimeOffRequest.charge (c : Catalog) (r : TimeOffRequest) : Int :=
  if r.status = .APPROVED ∧ c.Keeps r then -r.totalMinutes else 0

/-- The entries of every request add up to what its status says. -/
def NetExact (db : Db) : Prop :=
  ∀ r ∈ db.requests.rows, db.netEffect r.id = r.charge db.catalog

/-- A step that does not cancel a request approved under an `UNLIMITED`
version. -/
def ReversesDebits (db : Db) : Op → Prop
  | .cancel _ id _ => ∀ r ∈ db.requests.find? id, r.status = .APPROVED → db.catalog.Keeps r
  | _ => True

instance (db : Db) : (op : Op) → Decidable (ReversesDebits db op)
  | .cancel _ id _ => inferInstanceAs
      (Decidable (∀ r ∈ db.requests.find? id, r.status = .APPROVED → db.catalog.Keeps r))
  | .catalog .. | .submit .. | .decide .. | .runScheduled .. | .onPayrollProcessed .. |
    .rollover .. => .isTrue trivial

/-- Requests stay, and what has been decided does not become undecided. -/
theorem RequestEffect.progress {db db' : Db} {op : Op} (h : RequestEffect db op db')
    {r : TimeOffRequest} (hr : r ∈ db.requests.rows) :
    ∃ r' ∈ db'.requests.rows, r'.id = r.id ∧
      (r.status = .APPROVED → r'.status = .APPROVED ∨ r'.status = .CANCELLED) ∧
      (r.status = .CANCELLED → r'.status = .CANCELLED) := by
  cases h with
  | other hrequests _ _ _ _ =>
    exact ⟨r, hrequests ▸ hr, rfl, fun h => Or.inl h, fun h => h⟩
  | submit _ _ _ _ =>
    refine ⟨r, ?_, rfl, fun h => Or.inl h, fun h => h⟩
    rw [Db.afterSubmit_requests]
    exact Table.subset_insertNew _ _ hr
  | decide hs hpending _ =>
    rw [Db.afterDecide_requests]
    refine ⟨_, Table.mem_modify.mpr ⟨r, hr, rfl⟩, ?_⟩
    split
    · next hid =>
      obtain rfl := Table.eq_of_key hr hs hid
      rw [hpending]
      exact ⟨rfl, nofun, nofun⟩
    · exact ⟨rfl, fun h => Or.inl h, fun h => h⟩
  | cancel hs _ =>
    rw [Db.afterCancel_requests]
    refine ⟨_, Table.mem_modify.mpr ⟨r, hr, rfl⟩, ?_⟩
    split
    · exact ⟨rfl, fun _ => Or.inr rfl, fun _ => rfl⟩
    · exact ⟨rfl, fun h => Or.inl h, fun h => h⟩

/-- The entries of requests that a step adds. -/
theorem RequestEffect.new_entries {db db' : Db} {op : Op} (h : RequestEffect db op db')
    {e : LedgerEntry} (he : e ∈ db'.ledger.rows) :
    e ∈ db.ledger.rows ∨
      (e.sourceType ≠ .REQUEST ∧ e.sourceType ≠ .REQUEST_CANCELLATION) ∨
      (∃ r ∈ db'.requests.rows, r.status = .APPROVED ∧ ∃ leg, e = r.debit leg) ∨
      ∃ r ∈ db'.requests.rows, r.status = .CANCELLED ∧ ∃ leg, e = r.reversal leg := by
  cases h with
  | other _ hledger _ hes _ =>
    rw [hledger] at he
    exact (Db.mem_posts he).imp_right fun h => Or.inl (hes e h)
  | submit _ _ _ _ =>
    rw [Db.afterSubmit_ledger] at he
    exact Or.inl he
  | @decide actor approve note r v hr _ _ =>
    rw [Db.afterDecide_ledger] at he
    simp only [Db.afterDebits] at he
    split at he
    · next hc =>
      refine (Db.mem_posts he).imp_right fun hmem => Or.inr (Or.inl ?_)
      obtain ⟨leg, -, rfl⟩ := List.mem_map.mp hmem
      refine ⟨r.update (RequestService.decision approve actor.id note), ?_, ?_, leg, rfl⟩
      · rw [Db.afterDecide_requests]
        exact Table.mem_modify.mpr ⟨r, hr, (if_pos rfl).symm⟩
      · rw [hc.1]
        rfl
    · exact Or.inl he
  | @cancel actor today r hr _ =>
    rw [Db.afterCancel_ledger] at he
    split at he
    · exact Or.inl he
    · refine (Db.mem_posts he).imp_right fun hmem => Or.inr (Or.inr ?_)
      obtain ⟨leg, -, rfl⟩ := List.mem_map.mp hmem
      refine ⟨r.update (RequestService.cancellation r.status actor.id), ?_, rfl, leg, rfl⟩
      rw [Db.afterCancel_requests]
      exact Table.mem_modify.mpr ⟨r, hr, (if_pos rfl).symm⟩

/-- Every step keeps the legs in line with the statuses. -/
theorem LegsPosted.step {db db' : Db} {op : Op} (h : LegsPosted db)
    (heffect : RequestEffect db op db') : LegsPosted db' := by
  constructor
  · intro e he htype
    rcases heffect.new_entries he with hold | ⟨hother, -⟩ | ⟨r, hr, hstatus, leg, rfl⟩ |
      ⟨r, hr, hstatus, leg, rfl⟩
    · obtain ⟨r, hr, hstatus, year, hyear⟩ := h.debit e hold htype
      obtain ⟨r', hr', hid, happroved, hcancelled⟩ := heffect.progress hr
      refine ⟨r', hr', hstatus.elim happroved fun hc => Or.inr (hcancelled hc), year, ?_⟩
      rw [hyear, hid]
    · exact absurd htype hother
    · exact ⟨r, hr, Or.inl hstatus, leg.year, rfl⟩
    · cases htype
  · intro e he htype
    rcases heffect.new_entries he with hold | ⟨-, hother⟩ | ⟨r, hr, hstatus, leg, rfl⟩ |
      ⟨r, hr, hstatus, leg, rfl⟩
    · obtain ⟨r, hr, hstatus, year, hyear⟩ := h.reversal e hold htype
      obtain ⟨r', hr', hid, -, hcancelled⟩ := heffect.progress hr
      exact ⟨r', hr', hcancelled hstatus, year, by rw [hyear, hid]⟩
    · exact absurd htype hother
    · cases htype
    · exact ⟨r, hr, hstatus, leg.year, rfl⟩

/-- A decision on a pending request posts what its new status says. -/
theorem netEffect_afterDecide {db : Db} {r s : TimeOffRequest} {v : PolicyVersion} {approve : Bool}
    {u : RequestUpdate} (hlegs : LegsPosted db) (hwf : RequestsWellFormed db)
    (hr : r ∈ db.requests.rows) (hpending : r.status = .PENDING) :
    (db.afterDecide r approve v.kind u).netEffect s.id
      = db.netEffect s.id
        - if s.id = r.id ∧ approve = true ∧ v.kind ≠ .UNLIMITED then r.totalMinutes else 0 := by
  refine (Db.sum_afterDecide hlegs hr hpending).trans ?_
  by_cases hid : s.id = r.id
  · have hsum := r.sum_debits (w := fun e => if e.OfRequest s.id then e.amountMinutes else 0)
      (fun leg => if_pos (LedgerEntry.ofRequest_debit.mpr hid)) (hwf r hr).total_eq
    rw [hsum]
    by_cases hc : approve = true ∧ v.kind ≠ .UNLIMITED
    · rw [if_pos hc, if_pos ⟨hid, hc⟩]
      exact (Int.sub_eq_add_neg).symm
    · rw [if_neg hc, if_neg fun h => hc h.2, Int.add_zero, Int.sub_zero]
      rfl
  · have hsum : (r.debits.map fun e => if e.OfRequest s.id then e.amountMinutes else 0).sum
        = 0 := by
      refine List.sum_eq_zero fun x hx => ?_
      obtain ⟨e, he, rfl⟩ := List.mem_map.mp hx
      obtain ⟨leg, -, rfl⟩ := List.mem_map.mp he
      exact if_neg fun h => hid (LedgerEntry.ofRequest_debit.mp h)
    rw [hsum, ite_self, Int.add_zero, if_neg fun h => hid h.1, Int.sub_zero]
    rfl

/-- A cancellation of an approved request gives back its cost, whatever was
debited. -/
theorem netEffect_afterCancel {db : Db} {r s : TimeOffRequest} {u : RequestUpdate}
    (hlegs : LegsPosted db) (hwf : RequestsWellFormed db) (hr : r ∈ db.requests.rows)
    (hlive : r.status.LIVE = true) :
    (db.afterCancel r u).netEffect s.id
      = db.netEffect s.id
        + if s.id = r.id ∧ r.status = .APPROVED then r.totalMinutes else 0 := by
  refine (Db.sum_afterCancel hlegs hr hlive).trans ?_
  by_cases hid : s.id = r.id
  · have hsum := r.sum_reversals (w := fun e => if e.OfRequest s.id then e.amountMinutes else 0)
      (fun leg => if_pos (LedgerEntry.ofRequest_reversal.mpr hid)) (hwf r hr).total_eq
    rw [hsum]
    simp only [hid, true_and]
    rfl
  · have hsum : (r.reversals.map fun e => if e.OfRequest s.id then e.amountMinutes else 0).sum
        = 0 := by
      refine List.sum_eq_zero fun x hx => ?_
      obtain ⟨e, he, rfl⟩ := List.mem_map.mp hx
      obtain ⟨leg, -, rfl⟩ := List.mem_map.mp he
      exact if_neg fun h => hid (LedgerEntry.ofRequest_reversal.mp h)
    rw [hsum, ite_self, Int.add_zero, if_neg fun h => hid h.1, Int.add_zero]
    rfl

/-- A decision approves or denies. -/
theorem RequestService.decision_status (approve : Bool) (actorId : String) (note : Option String) :
    (decision approve actorId note).status = .APPROVED ↔ approve = true := by
  cases approve
  · exact ⟨nofun, nofun⟩
  · exact ⟨fun _ => rfl, fun _ => rfl⟩

/-- A step that reverses debits only keeps the entries of every request exact. -/
theorem NetExact.step {dir : Directory} {db db' : Db} {op : Op} (h : NetExact db)
    (hwf : RequestsWellFormed db) (hlegs : LegsPosted db) (heffect : Effect dir db op db')
    (hguard : ReversesDebits db op) : NetExact db' := by
  have hgrows := heffect.grows
  have hcharge : ∀ r ∈ db.requests.rows, r.charge db'.catalog = r.charge db.catalog := by
    intro r hr
    simp only [TimeOffRequest.charge]
    simp only [(hwf r hr).keeps_iff hgrows]
  intro s hs
  -- only a decision or a cancellation of the request itself posts under its id
  cases heffect.onRequests with
  | other hrequests hledger _ hes _ =>
    rw [hrequests] at hs
    rw [Db.netEffect_congr hledger, hcharge s hs, ← h s hs]
    exact Db.netEffect_posts fun e he hof => hof.1.elim (hes e he).1 (hes e he).2
  | submit hrow hpending hnew _ =>
    rw [Db.netEffect_congr Db.afterSubmit_ledger]
    rw [Db.afterSubmit_requests] at hs
    rcases Table.mem_insertNew hs with hold | ⟨rfl, -⟩
    · rw [h s hold, hcharge s hold]
    · rw [hlegs.netEffect_eq_zero hnew]
      exact (if_neg fun hc => by rw [hpending] at hc; exact nomatch hc.1).symm
  | @decide actor approve note r v hr hpending hv =>
    rw [Db.afterDecide_requests] at hs
    rw [Db.afterDecide_catalog]
    rcases Table.eq_or_mem_of_mem_modify hr hs with rfl | ⟨hold, hid⟩
    · -- pending until now, so nothing has been posted for it
      have hbefore : db.netEffect r.id = 0 := by
        rw [h r hr]
        exact if_neg fun hc => by rw [hpending] at hc; exact nomatch hc.1
      show (db.afterDecide r approve v.kind _).netEffect r.id = _
      rw [netEffect_afterDecide hlegs hwf hr hpending, hbefore]
      have hcharged :
          (r.update (RequestService.decision approve actor.id note)).status = .APPROVED ∧
          db.catalog.Keeps (r.update (RequestService.decision approve actor.id note)) ↔
          approve = true ∧ v.kind ≠ .UNLIMITED :=
        and_congr (RequestService.decision_status approve actor.id note) (Catalog.keeps_iff hv)
      unfold TimeOffRequest.charge
      by_cases hc : approve = true ∧ v.kind ≠ .UNLIMITED
      · rw [if_pos ⟨rfl, hc⟩, if_pos (hcharged.mpr hc)]
        exact Int.zero_sub _
      · rw [if_neg fun h => hc h.2, if_neg fun h => hc (hcharged.mp h)]
        rfl
    · rw [netEffect_afterDecide hlegs hwf hr hpending, if_neg fun hc => hid hc.1, Int.sub_zero,
        h s hold]
  | @cancel actor today r hr hlive =>
    rw [Db.afterCancel_requests] at hs
    rw [Db.afterCancel_catalog]
    rcases Table.eq_or_mem_of_mem_modify hr hs with rfl | ⟨hold, hid⟩
    · show (db.afterCancel r _).netEffect r.id = _
      rw [netEffect_afterCancel hlegs hwf hr hlive, h r hr]
      have hcancelled : (r.update (RequestService.cancellation r.status actor.id)).charge db.catalog
          = 0 := if_neg fun hc => nomatch hc.1
      rw [hcancelled]
      unfold TimeOffRequest.charge
      -- an approved request is charged its minutes, and the guard says the reversals are
      -- for a version with balances
      by_cases happroved : r.status = .APPROVED
      · have hkeeps := hguard r (Table.find?_eq_some.mpr ⟨hr, rfl⟩) happroved
        rw [if_pos ⟨happroved, hkeeps⟩, if_pos ⟨rfl, happroved⟩]
        omega
      · rw [if_neg fun hc => happroved hc.1, if_neg fun hc => happroved hc.2]
        rfl
    · rw [netEffect_afterCancel hlegs hwf hr hlive, if_neg fun hc => hid hc.1, Int.add_zero,
        h s hold]

/-- Reversing what was never debited leaves a credit. -/
theorem NetExact.reversesDebits {dir : Directory} {db db' : Db} {op : Op} (h : NetExact db)
    (h' : NetExact db') (hwf : RequestsWellFormed db) (hlegs : LegsPosted db)
    (heffect : Effect dir db op db') : ReversesDebits db op := by
  cases heffect.onRequests with
  | @cancel actor today r hr hlive =>
    intro r' hr' happroved
    obtain ⟨hmem, hid⟩ := Table.find?_eq_some.mp hr'
    obtain rfl := Table.eq_of_key hmem hr hid
    by_contra hkeeps
    have hpos := (hwf r' hr).total_pos
    have hbefore : db.netEffect r'.id = 0 := (h r' hr).trans (if_neg fun hc => hkeeps hc.2)
    have hmem' : r'.update (RequestService.cancellation r'.status actor.id) ∈
        (db.afterCancel r' (RequestService.cancellation r'.status actor.id)).requests.rows := by
      rw [Db.afterCancel_requests]
      exact Table.mem_modify.mpr ⟨r', hr, (if_pos rfl).symm⟩
    have hafter : _ = (0 : Int) := (h' _ hmem').trans (if_neg fun hc => nomatch hc.1)
    rw [show (r'.update (RequestService.cancellation r'.status actor.id)).id = r'.id from rfl,
      netEffect_afterCancel hlegs hwf hr hlive, if_pos ⟨rfl, happroved⟩] at hafter
    omega
  | @other op db' es _ _ _ _ hop =>
    cases op with
    | cancel actor id today => exact absurd rfl (hop actor id today)
    | _ => trivial
  | _ => trivial

/-- Nothing is posted yet. -/
theorem legsPosted_empty : LegsPosted .empty :=
  ⟨fun _ h => absurd h List.not_mem_nil, fun _ h => absurd h List.not_mem_nil⟩

theorem netExact_empty : NetExact .empty := fun _ h => absurd h List.not_mem_nil

/-- Along a run, the entries of every request add up to what its status says in
every state exactly when no step cancels a request approved under an
`UNLIMITED` version. -/
theorem net_effect_iff {dir : Directory} {l : List (Db × Op × Db)} {db : Db}
    (h : Run dir .empty l db) :
    (∀ x ∈ l, NetExact x.2.2) ↔ ∀ x ∈ l, ReversesDebits x.1 x.2.1 := by
  refine h.guard_iff (fun db => RequestsWellFormed db ∧ LegsPosted db)
    ⟨⟨requestsWellFormed_empty, legsPosted_empty⟩, netExact_empty⟩ ?_ ?_
  · intro t op u ⟨⟨hwf, hlegs⟩, hexact⟩ hguard hstep
    have heffect := effect_of_step hstep
    exact ⟨⟨heffect.requestsWellFormed hwf, hlegs.step heffect.onRequests⟩,
      hexact.step hwf hlegs heffect hguard⟩
  · intro t op u ⟨⟨hwf, hlegs⟩, hexact⟩ hstep hexact'
    exact hexact.reversesDebits hexact' hwf hlegs (effect_of_step hstep)

/-- Under an `UNLIMITED` policy a request is approved and cancelled: 480 minutes
that were never taken are given back. -/
theorem net_effect_not_exact :
    ¬ ∀ (dir : Directory) (l : List (Db × Op × Db)) (db : Db), Run dir .empty l db →
      ∀ x ∈ l, NetExact x.2.2 := by
  intro hclaim
  have hrun : (Op.runAll Demo.directory
      (Demo.openPolicy { effectiveFrom := ofYmd 2026 1 1, kind := .UNLIMITED } [] ++
        [Demo.dayOff Demo.requestId (ofYmd 2026 3 2),
          .decide Demo.admin Demo.requestId true none,
          .cancel Demo.admin Demo.requestId (ofYmd 2026 2 1)])
      .empty).passes (fun run => ∃ r ∈ run.2.requests.rows,
        run.2.netEffect r.id ≠ r.charge run.2.catalog) = true := by
    decide +kernel
  obtain ⟨⟨l, db⟩, hrun, hwrong⟩ := Except.ok_of_passes hrun
  have hl := run_of_runAll hrun
  have hexact : NetExact db := hl.last_of_forall netExact_empty (hclaim _ l db hl)
  obtain ⟨r, hr, hne⟩ := of_decide_eq_true hwrong
  exact hne (hexact r hr)

/-- Under a policy with balances the same steps undo each other: the debit of
the approval stands until the cancellation of the approved request. -/
theorem net_effect_accrual :
    ∃ l db, Run Demo.directory .empty l db ∧
      (∃ x ∈ l, x.2.2.netEffect Demo.requestId = -480) ∧
      (∃ r ∈ db.requests.rows, r.id = Demo.requestId ∧ r.status = .CANCELLED) ∧
      (∀ x ∈ l, ReversesDebits x.1 x.2.1) ∧ ∀ x ∈ l, NetExact x.2.2 := by
  have hrun : (Op.runAll Demo.directory
      (Demo.monthlyDay none ++ [.runScheduled "cmp_warp_demo" (ofYmd 2026 1 31),
        Demo.dayOff Demo.requestId (ofYmd 2026 3 2),
          .decide Demo.admin Demo.requestId true none,
        .cancel Demo.admin Demo.requestId (ofYmd 2026 2 1)])
      .empty).passes (fun r =>
        (∃ x ∈ r.1, x.2.2.netEffect Demo.requestId = -480) ∧
        (∃ row ∈ r.2.requests.rows, row.id = Demo.requestId ∧ row.status = .CANCELLED) ∧
        ∀ x ∈ r.1, ReversesDebits x.1 x.2.1) = true := by
    decide +kernel
  obtain ⟨⟨l, db⟩, hrun, htest⟩ := Except.ok_of_passes hrun
  obtain ⟨hdebited, hcancelled, hguard⟩ := of_decide_eq_true htest
  have hl := run_of_runAll hrun
  exact ⟨l, db, hl, hdebited, hcancelled, hguard, (net_effect_iff hl).mpr hguard⟩

end TimeOff
