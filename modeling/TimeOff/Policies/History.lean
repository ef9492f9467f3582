import TimeOff.Isolation.Operations
import TimeOff.Lib.Versions

/-!
# Policy history

The versions of a policy are a history (`Catalog.Histories`): a new policy
begins one, an update appends to it, and nothing else touches it. So the two
lookups, the latest version by number and the version in force by date, agree,
and an update is in force from its own date on and changes no earlier day
(`policy_history`).

The rules of histories are those of the library (`Versions.History`): an update
reads the latest version and checks that the new one begins later, which is all
that a next version needs (`Histories.update`). The versions of all policies are
in one table, so the history of a policy is a part of it, and appending for one
policy leaves those of the others alone (`history_append`).
-/

namespace TimeOff

open Gregorian

namespace Catalog

variable {c d : Catalog} {policyId : Uuid}

/-- The versions of a policy, in the order they were written. -/
def history (c : Catalog) (policyId : Uuid) : List PolicyVersion :=
  c.versions.rows.filter fun v => v.policyId = policyId

theorem mem_history {v : PolicyVersion} :
    v ∈ c.history policyId ↔ v ∈ c.versions.rows ∧ v.policyId = policyId := by
  unfold history
  rw [List.mem_filter, decide_eq_true_eq]

/-- The version of a day is the one in force in the history. -/
theorem versionEffectiveOn_eq (onDate : Date) :
    c.versionEffectiveOn policyId onDate
      = Versions.inForce (·.effectiveFrom) (c.history policyId) onDate := by
  unfold versionEffectiveOn Versions.inForce history
  rw [List.filter_filter]
  congr 1
  refine List.filter_congr fun v _ => ?_
  rw [Bool.and_comm, Bool.decide_and]

/-- Every policy has a history. -/
def Histories (c : Catalog) : Prop :=
  ∀ policyId, Versions.History (·.versionNo) (·.effectiveFrom) (c.history policyId)

theorem histories_empty : Histories .empty := fun _ => .nil

/-- The order of versions by number is the order they were written in. -/
theorem Histories.versionsOf_eq (h : c.Histories) : c.versionsOf policyId = c.history policyId := by
  unfold versionsOf
  exact List.Pairwise.insertionSort_eq
    ((h policyId).no_increasing.imp fun hlt => le_of_lt hlt)

/-- A version appended for a policy leaves the history of the others alone. -/
theorem history_append {v : PolicyVersion} (hrows : d.versions.rows = c.versions.rows ++ [v]) :
    d.history policyId
      = c.history policyId ++ if v.policyId = policyId then [v] else [] := by
  unfold history
  rw [hrows, List.filter_append]
  split
  · next hpolicy => rw [List.filter_cons_of_pos (by simpa using hpolicy), List.filter_nil]
  · next hpolicy => rw [List.filter_cons_of_neg (by simpa using hpolicy), List.filter_nil]

/-- What an update appends comes after every version there is. -/
theorem Histories.latest (h : c.Histories) {current : PolicyVersion}
    (hcurrent : c.latestVersion policyId = some current) :
    current.versionNo = (c.history policyId).length ∧
      ∀ w ∈ c.history policyId, w.effectiveFrom ≤ current.effectiveFrom :=
  (h policyId).of_latest hcurrent

/-- An operation on the catalog keeps the histories. -/
theorem Histories.run {dir : Directory} {op : CatalogOp} (h : c.Histories)
    (href : c.References dir) (hrun : op.run dir c = .ok d) : d.Histories := by
  intro policyId
  by_cases hop : op.WritesVersion
  · cases op with
    | createPolicy companyId newId versionId name categoryId fields rules =>
      obtain ⟨⟨v, hpolicy, hno, -, -, hrows⟩, hnew⟩ := PolicyService.create_cases hrun
      rw [history_append hrows]
      split
      · next heq =>
        -- no version names a policy that is not there yet
        have hnone : c.history policyId = [] := by
          refine List.eq_nil_iff_forall_not_mem.mpr fun w hw => ?_
          obtain ⟨hw, hwp⟩ := mem_history.mp hw
          obtain ⟨company, hcompany⟩ := href.versions w hw
          obtain ⟨p, hp, hid, -⟩ := ownerOf_eq_some hcompany
          exact hnew p hp (hid.trans (hwp.trans (heq.symm.trans hpolicy)))
        rw [hnone]
        exact Versions.History.nil.append (by rw [hno]; rfl)
          fun w hw => absurd hw List.not_mem_nil
      · rw [List.append_nil]
        exact h policyId
    | updatePolicy id versionId name fields rules =>
      obtain ⟨policy, -, hrun⟩ := Except.bind_eq_ok.mp hrun
      obtain ⟨current, hcurrent, hlater, v, hpolicy, hno, hfields, -, hrows⟩ :=
        PolicyService.update_cases hrun
      rw [history_append hrows]
      split
      · next heq =>
        rw [hpolicy] at heq
        rw [heq] at hcurrent
        obtain ⟨hlength, hlast⟩ := h.latest hcurrent
        refine (h policyId).append (by rw [hno, hlength]) fun w hw => ?_
        rw [← hfields] at hlater
        exact lt_of_le_of_lt (hlast w hw) hlater
      · rw [List.append_nil]
        exact h policyId
    | _ => exact absurd hop id
  · unfold history
    rw [CatalogOp.versions_eq hrun hop]
    exact h policyId

end Catalog

/-- Along every run policies have histories. -/
theorem Reachable.histories {dir : Directory} {db : Db} (h : Reachable dir db) :
    db.catalog.Histories := by
  obtain ⟨l, hl⟩ := h
  refine (hl.invariant (I := fun db => db.References dir ∧ db.catalog.Histories)
    ⟨.empty, Catalog.histories_empty⟩ ?_).2
  intro t op u ⟨href, hhistories⟩ hstep
  obtain ⟨_, -, hchange⟩ := change_of_step href hstep
  refine ⟨hchange.references, ?_⟩
  cases effect_of_step hstep with
  | catalog hrun => exact hhistories.run href.catalog hrun
  | submit => rwa [Db.afterSubmit_catalog]
  | decide => rwa [Db.afterDecide_catalog]
  | cancel => rwa [Db.afterCancel_catalog]
  | runScheduled => rwa [Db.recordRun_catalog, Db.postAccruals_catalog]
  | onPayrollProcessed => rwa [Db.recordRun_catalog, Db.postAccruals_catalog]
  | rollover => rwa [Db.recordRun_catalog, Db.closeAccounts_catalog]

/-- An accepted update of a policy whose versions are a history. -/
theorem Catalog.Histories.update {dir : Directory} {c d : Catalog} {policyId versionId : Uuid}
    {name : Option String} {fields : VersionFields} {rules : List AccrualRule} (h : c.Histories)
    (hrun : (CatalogOp.updatePolicy policyId versionId name fields rules).run dir c = .ok d) :
    ∃ v : PolicyVersion, v.policyId = policyId ∧ v.toVersionFields = fields ∧
      rules.mapM PolicyService.storedRule = .ok v.rules ∧
      v.versionNo = (c.history policyId).length + 1 ∧
      d.versions.rows = c.versions.rows ++ [v] ∧
      ∀ day, d.versionEffectiveOn policyId day
        = if fields.effectiveFrom ≤ day then some v else c.versionEffectiveOn policyId day := by
  obtain ⟨policy, hfind, hupdate⟩ := Except.bind_eq_ok.mp hrun
  obtain rfl : policy.id = policyId := id_of_findOr404 hfind
  obtain ⟨current, hcurrent, hlater, v, hpolicy, hno, rfl, hrules, hrows⟩ :=
    PolicyService.update_cases hupdate
  obtain ⟨hlength, hlast⟩ := h.latest hcurrent
  refine ⟨v, hpolicy, rfl, hrules, by rw [hno, hlength], hrows, fun day => ?_⟩
  rw [Catalog.versionEffectiveOn_eq, Catalog.versionEffectiveOn_eq, Catalog.history_append hrows,
    if_pos hpolicy]
  exact Versions.inForce_append (fun w hw => lt_of_le_of_lt (hlast w hw) hlater) day

/-- After any operations, accepted or rejected, the versions of a policy are
numbered from 1 and begin one after the other; the version in force on a day is
the one of the highest number that has begun; and an accepted update changes
what is in force from its own date on, and only that. -/
theorem policy_history :
    ∀ (dir : Directory) (ops : List Op),
      let db := ops.foldl (Op.tried dir) .empty
      (∀ policyId, (db.catalog.versionsOf policyId).map (·.versionNo)
            = (List.range (db.catalog.versionsOf policyId).length).map
                (fun i : Nat => (i : Int) + 1) ∧
          (db.catalog.versionsOf policyId).Pairwise (·.effectiveFrom < ·.effectiveFrom) ∧
          ∀ day, db.catalog.versionEffectiveOn policyId day
            = ((db.catalog.versionsOf policyId).filter (·.effectiveFrom ≤ day)).maxOn?
                (·.versionNo)) ∧
      ∀ policyId versionId name fields rules db',
        (Op.catalog (.updatePolicy policyId versionId name fields rules)).run dir db = .ok db' →
          ∃ v : PolicyVersion, v.policyId = policyId ∧ v.toVersionFields = fields ∧
            rules.mapM PolicyService.storedRule = .ok v.rules ∧
            db'.catalog.versions.rows = db.catalog.versions.rows ++ [v] ∧
            (∀ day, day < fields.effectiveFrom → db'.catalog.versionEffectiveOn policyId day
              = db.catalog.versionEffectiveOn policyId day) ∧
            ∀ day, fields.effectiveFrom ≤ day →
              db'.catalog.versionEffectiveOn policyId day = some v := by
  intro dir ops db
  have hhistories : db.catalog.Histories :=
    (reachable_tried ⟨[], .nil⟩ : Reachable dir db).histories
  constructor
  · intro policyId
    rw [hhistories.versionsOf_eq]
    refine ⟨(hhistories policyId).numbered, (hhistories policyId).increasing, fun day => ?_⟩
    rw [Catalog.versionEffectiveOn_eq]
    exact (hhistories policyId).inForce_eq_maxOn_no day
  · intro policyId versionId name fields rules db' hrun
    cases effect_of_step hrun with
    | catalog hupdate =>
      -- the version that the update has appended
      obtain ⟨v, hpolicy, hfields, hrules, -, hrows, hforce⟩ := hhistories.update hupdate
      refine ⟨v, hpolicy, hfields, hrules, hrows, fun day hday => ?_, fun day hday => ?_⟩
      · rw [hforce, if_neg (not_le.mpr hday)]
      · rw [hforce, if_pos hday]

/-- The demo policy, changed from June 1 on after an update that was too early. -/
theorem policy_history_june :
    ∃ db db' : Db, ∃ v : PolicyVersion,
      db'.catalog.versions.rows = db.catalog.versions.rows ++ [v] ∧
      db'.catalog.versionEffectiveOn Demo.policyId (ofYmd 2026 5 31)
        = db.catalog.versionEffectiveOn Demo.policyId (ofYmd 2026 5 31) ∧
      db'.catalog.versionEffectiveOn Demo.policyId (ofYmd 2026 6 1) = some v := by
  have hrun : ((Op.catalog (.updatePolicy Demo.policyId Demo.nextVersionId none
      { effectiveFrom := ofYmd 2026 6 1, kind := .UNLIMITED } [])).run Demo.directory
        ((Demo.monthlyDay none ++ [Op.catalog (.updatePolicy Demo.policyId Demo.nextVersionId none
          { effectiveFrom := ofYmd 2025 6 1, kind := .UNLIMITED } [])]).foldl
            (Op.tried Demo.directory) .empty)).passes (fun _ => true) = true := by
    decide +kernel
  obtain ⟨db', hrun, -⟩ := Except.ok_of_passes hrun
  obtain ⟨v, -, -, -, hrows, hbefore, hafter⟩ :=
    (policy_history Demo.directory _).2 _ _ _ _ _ _ hrun
  exact ⟨_, db', v, hrows, hbefore _ (by decide), hafter _ (by decide)⟩

end TimeOff
