import TimeOff.Requests.Lifecycle

/-!
# Pending holds

The hold of an account should be what its pending requests cost
(`Db.outstanding`). Submitting and deciding hold and release minutes under
policies that keep balances only, but cancelling releases them under every
policy: `holds_exact_iff` says that this is the one step that goes wrong.

Both sides are counters, one stored and one computed, and a step moves them
together: `Effect.hold_sub_outstanding` says that their difference stays, or
falls by the minutes of a pending request that is cancelled and was never held.
So `HoldsExact` is kept exactly by the steps of `ReleasesHeld`; a run keeps it
throughout if and only if all its steps are such.
-/

namespace TimeOff

open Gregorian

/-- What a request should hold on an account. -/
def TimeOffRequest.held (c : Catalog) (a : Account) (r : TimeOffRequest) : Int :=
  if r.account = a ∧ r.status = .PENDING ∧ c.Keeps r then r.totalMinutes else 0

/-- Requests hold minutes, they never lend them. -/
theorem TimeOffRequest.held_nonneg {c : Catalog} {a : Account} {r : TimeOffRequest}
    (h : r.WellFormed c) : 0 ≤ r.held c a := by
  simp only [held]
  split
  · exact le_of_lt h.total_pos
  · exact le_refl _

/-- The cost of an account's pending requests that keep balances. -/
def Db.outstanding (db : Db) (a : Account) : Int :=
  db.requests.sum (TimeOffRequest.held db.catalog a)

/-- Every hold is the cost of the pending requests, and no hold is negative. -/
def HoldsExact (db : Db) : Prop := ∀ a, db.hold a = db.outstanding a ∧ 0 ≤ db.hold a

namespace Db

variable {db db' : Db} {r row : TimeOffRequest} {a : Account} {u : RequestUpdate}

/-- What is outstanding is a sum of costs. -/
theorem outstanding_nonneg (hwf : RequestsWellFormed db) : 0 ≤ db.outstanding a := by
  refine List.sum_nonneg fun m hm => ?_
  obtain ⟨r, hr, rfl⟩ := List.mem_map.mp hm
  exact TimeOffRequest.held_nonneg (hwf r hr)

/-- It depends on the requests and on versions that stay. -/
theorem outstanding_of_requests_eq (hwf : RequestsWellFormed db)
    (hgrows : db.catalog.Grows db'.catalog) (h : db'.requests = db.requests) :
    db'.outstanding a = db.outstanding a := by
  simp only [outstanding]
  rw [h]
  refine Table.sum_congr fun r hr => ?_
  simp only [TimeOffRequest.held]
  simp only [(hwf r hr).keeps_iff hgrows]

/-- A new request adds what it holds. -/
theorem outstanding_insertNew (hcat : db'.catalog = db.catalog) (hnew : ¬ db.requests.Has row.id)
    (h : db'.requests = db.requests.insertNew row) :
    db'.outstanding a = db.outstanding a + row.held db.catalog a := by
  simp only [outstanding]
  rw [h, hcat, Table.sum_insertNew hnew]

/-- An update replaces what it held. -/
theorem outstanding_modify (hcat : db'.catalog = db.catalog)
    (hr : r ∈ db.requests.rows)
    (h : db'.requests = db.requests.modify r.id (TimeOffRequest.update u) fun _ => rfl) :
    db'.outstanding a
      = db.outstanding a - r.held db.catalog a + (r.update u).held db.catalog a := by
  simp only [outstanding]
  rw [h, hcat]
  exact Table.sum_modify (Table.find?_eq_some.mpr ⟨hr, rfl⟩) _

end Db

/-- Updating a request to another status leaves it without a hold. -/
theorem TimeOffRequest.held_update {c : Catalog} {a : Account} {r : TimeOffRequest}
    {u : RequestUpdate} (h : u.status ≠ .PENDING) : (r.update u).held c a = 0 :=
  if_neg fun ⟨_, hpending, _⟩ => h hpending

/-- A step that does not cancel a pending request under an `UNLIMITED` version. -/
def ReleasesHeld (db : Db) : Op → Prop
  | .cancel _ id _ => ∀ r ∈ db.requests.find? id, r.status = .PENDING → db.catalog.Keeps r
  | _ => True

instance (db : Db) (op : Op) : Decidable (ReleasesHeld db op) := by
  unfold ReleasesHeld
  split <;> infer_instance

/-- What a step does to the difference between a hold and what should be held:
only a cancellation changes it. -/
theorem Effect.hold_sub_outstanding {dir : Directory} {db db' : Db} {op : Op} {a : Account}
    (h : Effect dir db op db') (hwf : RequestsWellFormed db) :
    db'.hold a - db'.outstanding a = db.hold a - db.outstanding a ∨
      ∃ actor today r, op = .cancel actor r.id today ∧ r ∈ db.requests.rows ∧
        r.status = .PENDING ∧
        db'.hold a - db'.outstanding a
          = db.hold a - (if r.account = a then r.totalMinutes else 0)
            - (db.outstanding a - r.held db.catalog a) := by
  have hgrows := h.grows
  -- only pending requests under a version with balances are held, and each step is at one
  -- request
  cases h.onRequests with
  | other hrequests _ hsnapshots _ _ =>
    left
    rw [Db.outstanding_of_requests_eq hwf hgrows hrequests, Db.hold_congr hsnapshots, Db.hold_posts]
  | @submit actor id reason fields row v hrow hpending hnew hv =>
    left
    rw [Db.outstanding_insertNew Db.afterSubmit_catalog hnew Db.afterSubmit_requests,
      Db.hold_afterSubmit]
    simp only [TimeOffRequest.held]
    simp only [hpending, Catalog.keeps_iff hv, true_and]
    simp only [and_comm (a := row.account = a)]
    omega
  | @decide actor approve note r v hr hpending hv =>
    left
    have hstatus : (RequestService.decision approve actor.id note).status ≠ .PENDING := by
      cases approve <;> nofun
    rw [Db.outstanding_modify Db.afterDecide_catalog hr Db.afterDecide_requests,
      TimeOffRequest.held_update hstatus, Db.hold_afterDecide]
    simp only [TimeOffRequest.held]
    simp only [hpending, Catalog.keeps_iff hv, true_and]
    simp only [and_comm (a := r.account = a)]
    omega
  | @cancel actor today r hr hlive =>
    have hstatus : (RequestService.cancellation r.status actor.id).status ≠ .PENDING := nofun
    have hout : (db.afterCancel r (RequestService.cancellation r.status actor.id)).outstanding a
        = db.outstanding a - r.held db.catalog a
          + (r.update (RequestService.cancellation r.status actor.id)).held db.catalog a :=
      Db.outstanding_modify Db.afterCancel_catalog hr Db.afterCancel_requests
    rw [TimeOffRequest.held_update hstatus, Int.add_zero] at hout
    by_cases hpending : r.status = .PENDING
    · -- the hold goes whatever the kind of the version: the case that is left over
      refine Or.inr ⟨actor, today, r, rfl, hr, hpending, ?_⟩
      rw [hout, Db.hold_afterCancel]
      simp only [hpending, true_and]
    · left
      have hheld : r.held db.catalog a = 0 := if_neg fun h => hpending h.2.1
      rw [hout, Db.hold_afterCancel, if_neg fun h => hpending h.1, hheld]
      omega

/-- A step that releases what was held keeps holds exact. -/
theorem Effect.holdsExact {dir : Directory} {db db' : Db} {op : Op} (h : Effect dir db op db')
    (hwf : RequestsWellFormed db) (hexact : HoldsExact db) (hguard : ReleasesHeld db op) :
    HoldsExact db' := by
  intro a
  have hnonneg := Db.outstanding_nonneg (a := a) (h.requestsWellFormed hwf)
  have hbefore := (hexact a).1
  rcases h.hold_sub_outstanding (a := a) hwf with heq | ⟨actor, today, r, rfl, hr, hpending, heq⟩
  · omega
  · have hkeeps : db.catalog.Keeps r := hguard r (Table.find?_eq_some.mpr ⟨hr, rfl⟩) hpending
    have hheld : r.held db.catalog a = if r.account = a then r.totalMinutes else 0 := by
      simp only [TimeOffRequest.held]
      simp only [hpending, hkeeps, and_self, and_true]
    omega

/-- Releasing what was never held leaves a hold that is too low. -/
theorem Effect.releasesHeld {dir : Directory} {db db' : Db} {op : Op} (h : Effect dir db op db')
    (hwf : RequestsWellFormed db) (hexact : HoldsExact db) (hexact' : HoldsExact db') :
    ReleasesHeld db op := by
  cases h.onRequests with
  | @cancel actor today r hr hlive =>
    intro r' hr' hpending
    obtain ⟨hmem, hid⟩ := Table.find?_eq_some.mp hr'
    obtain rfl := Table.eq_of_key hmem hr hid
    by_contra hkeeps
    have hpos := (hwf r' hr).total_pos
    have hheld : r'.held db.catalog r'.account = 0 := if_neg fun h => hkeeps h.2.2
    have hstatus : (RequestService.cancellation r'.status actor.id).status ≠ .PENDING := nofun
    have hbefore := (hexact r'.account).1
    have hafter := (hexact' r'.account).1
    rw [Db.outstanding_modify Db.afterCancel_catalog hr Db.afterCancel_requests,
      TimeOffRequest.held_update hstatus, Db.hold_afterCancel, if_pos ⟨hpending, rfl⟩] at hafter
    omega
  | @other op db' es _ _ _ _ hop =>
    cases op with
    | cancel actor id today => exact absurd rfl (hop actor id today)
    | _ => trivial
  | _ => trivial

/-- Nothing is held yet. -/
theorem holdsExact_empty : HoldsExact .empty := fun _ => ⟨rfl, le_refl _⟩

/-- Along a run, holds are the outstanding requests in every state exactly when
no step cancels a pending request under an `UNLIMITED` version. -/
theorem holds_exact_iff {dir : Directory} {l : List (Db × Op × Db)} {db : Db}
    (h : Run dir .empty l db) :
    (∀ x ∈ l, HoldsExact x.2.2) ↔ ∀ x ∈ l, ReleasesHeld x.1 x.2.1 := by
  refine h.guard_iff RequestsWellFormed ⟨requestsWellFormed_empty, holdsExact_empty⟩ ?_ ?_
  · intro t op u ⟨hwf, hexact⟩ hguard hstep
    have heffect := effect_of_step hstep
    exact ⟨heffect.requestsWellFormed hwf, heffect.holdsExact hwf hexact hguard⟩
  · intro t op u ⟨hwf, hexact⟩ hstep hexact'
    exact (effect_of_step hstep).releasesHeld hwf hexact hexact'

/-- Under an `UNLIMITED` policy a request is submitted and cancelled: the hold
ends at -480 minutes. -/
theorem holds_not_exact :
    ¬ ∀ (dir : Directory) (l : List (Db × Op × Db)) (db : Db), Run dir .empty l db →
      ∀ x ∈ l, HoldsExact x.2.2 := by
  intro hclaim
  have hrun : (Op.runAll Demo.directory
      (Demo.openPolicy { effectiveFrom := ofYmd 2026 1 1, kind := .UNLIMITED } [] ++
        [Demo.dayOff Demo.requestId (ofYmd 2026 3 2),
          .cancel Demo.admin Demo.requestId (ofYmd 2026 2 1)])
      .empty).passes (fun r => r.2.hold Demo.account < 0) = true := by
    decide +kernel
  obtain ⟨⟨l, db⟩, hrun, hneg⟩ := Except.ok_of_passes hrun
  have hl := run_of_runAll hrun
  have hexact : HoldsExact db := hl.last_of_forall holdsExact_empty (hclaim _ l db hl)
  exact absurd (hexact Demo.account).2 (not_le.mpr (of_decide_eq_true hneg))

/-- Under a policy with balances the same run keeps its holds: the minutes held
for the request are those that its cancellation releases. -/
theorem holds_exact_accrual :
    ∃ l db, Run Demo.directory .empty l db ∧
      (∃ x ∈ l, x.2.2.hold Demo.account = 480) ∧ db.hold Demo.account = 0 ∧
      (∀ x ∈ l, ReleasesHeld x.1 x.2.1) ∧ ∀ x ∈ l, HoldsExact x.2.2 := by
  have hrun : (Op.runAll Demo.directory
      (Demo.monthlyDay none ++ [.runScheduled "cmp_warp_demo" (ofYmd 2026 1 31),
        Demo.dayOff Demo.requestId (ofYmd 2026 3 2),
          .cancel Demo.admin Demo.requestId (ofYmd 2026 2 1)])
      .empty).passes (fun r =>
        (∃ x ∈ r.1, x.2.2.hold Demo.account = 480) ∧ r.2.hold Demo.account = 0 ∧
        ∀ x ∈ r.1, ReleasesHeld x.1 x.2.1) = true := by
    decide +kernel
  obtain ⟨⟨l, db⟩, hrun, htest⟩ := Except.ok_of_passes hrun
  obtain ⟨hheld, hreleased, hguard⟩ := of_decide_eq_true htest
  have hl := run_of_runAll hrun
  exact ⟨l, db, hl, hheld, hreleased, hguard, (holds_exact_iff hl).mpr hguard⟩

end TimeOff
