import TimeOff.Books.Refinement
import TimeOff.Requests.Approvable

/-!
# What a preview promises

A preview makes the checks of a submission, with a plain read of the snapshot
where the submission takes a lock, and its transaction is never committed. Run
alone the two agree in every state: a preview fails as the submission would, and
promises the days it would charge and the minutes it would leave
(`previews_agree`).

On the books of the abstract model a submission is three checks in a row: whose
request it is, what it resolves to, whether it fits (`Books.resolve`,
`Books.fits`). Where the snapshots are exact, a preview is the same three checks
(`run_preview`), and that is the whole proof: a snapshot that a preview would
create is the one that a submission creates.
-/

namespace TimeOff

open Gregorian

namespace Api

/-- `RequestPreviewOut` -/
structure PreviewOut where
  totalMinutes : Int
  availableMinutes : Int
  days : List RequestDay
deriving DecidableEq, Repr

/-- `preview`; the route does not commit. -/
def preview (dir : Directory) (actor : Employee) (fields : RequestFields) : Tx PreviewOut := do
  let _ ← Tx.lift (requireSelfOrAdmin dir fields.employeeId actor)
  let result ← RequestService.preview dir fields false
  return ⟨result.totalMinutes, result.availableMinutes, result.days⟩

variable {dir : Directory} {actor : Employee} {fields : RequestFields} {db : Db}

/-- A preview is the checks of a submission on the books, with a snapshot if
there was none. -/
theorem run_preview (hexact : SnapshotsExact db) :
    Tx.run (preview dir actor fields) db
      = requireSelfOrAdmin dir fields.employeeId actor >>= fun _ =>
          db.books.resolve dir fields >>= fun r =>
            db.books.fits fields.employeeId r >>= fun _ =>
              .ok (⟨r.totalMinutes, db.available (r.account fields.employeeId), r.days⟩,
                db.ensureSnapshot (r.account fields.employeeId)) := by
  unfold preview RequestService.preview
  refine (Tx.run_lift_bind _ _ db).trans (bind_congr fun _ => ?_)
  rw [bind_assoc]
  refine (Tx.run_read_bind (RequestService.run_resolve dir fields db) _).trans
    (bind_congr fun r => ?_)
  have hcheck := RequestService.run_checkBalance false
    (snapshotsExact_iff.mp hexact (r.account fields.employeeId))
  cases hfits : db.books.fits fields.employeeId r with
  | error e =>
    rw [hfits] at hcheck
    exact Program.exec_bind_of_error hcheck
  | ok u =>
    rw [hfits] at hcheck
    exact Program.exec_bind_of_ok hcheck

end Api

/-- A preview and a submission agree: they fail with the same error; and where
the preview succeeds, so does the submission under a fresh id, for the same days
and minutes, and it takes those minutes, if the policy keeps a balance, from what
the preview had available. -/
def PreviewsAgree (dir : Directory) (db : Db) : Prop :=
  ∀ (actor : Employee) (id : Uuid) (reason : String) (fields : RequestFields),
    (∀ e, Tx.run (Api.preview dir actor fields) db = .error e →
      Tx.run (Api.submit dir actor id reason fields) db = .error e) ∧
    ∀ p db₁, Tx.run (Api.preview dir actor fields) db = .ok (p, db₁) → ¬ db.requests.Has id →
      ∃ row db', Tx.run (Api.submit dir actor id reason fields) db = .ok (row, db') ∧
        row.days = p.days ∧ row.totalMinutes = p.totalMinutes ∧
        p.availableMinutes = db.available row.account ∧
        db'.available row.account
          = p.availableMinutes - if db'.catalog.Keeps row then p.totalMinutes else 0

/-- With exact snapshots, previews agree with submissions. -/
theorem previewsAgree_of_exact {dir : Directory} {db : Db} (hexact : SnapshotsExact db) :
    PreviewsAgree dir db := by
  intro actor id reason fields
  -- the same checks on both sides, so the same refusals
  rw [Api.run_preview hexact, Api.run_submit hexact]
  cases Api.requireSelfOrAdmin dir fields.employeeId actor with
  | error e => exact ⟨fun e' h => (by cases h; rfl), fun p db₁ h => (by cases h)⟩
  | ok u =>
  have hresolve := RequestService.run_resolve dir fields db
  dsimp only [bind, Except.bind]
  cases hr : db.books.resolve dir fields with
  | error e => exact ⟨fun e' h => (by cases h; rfl), fun p db₁ h => (by cases h)⟩
  | ok r =>
  dsimp only
  cases db.books.fits fields.employeeId r with
  | error e => exact ⟨fun e' h => (by cases h; rfl), fun p db₁ h => (by cases h)⟩
  | ok u =>
  rw [hr] at hresolve
  obtain ⟨hres, -⟩ := RequestService.resolve_cases hresolve
  have hv : db.catalog.version r.version.id = some r.version :=
    Catalog.version_eq_some.mpr ⟨(Catalog.versionEffectiveOn_spec hres.version).1, rfl⟩
  refine ⟨fun e h => (by cases h), fun p db₁ h hfresh => ?_⟩
  cases h
  let row := RequestService.newRequest id actor.id reason fields r
  have hkeeps : (db.afterSubmit row r.version.kind).catalog.Keeps row ↔
      r.version.kind ≠ .UNLIMITED := by
    rw [Db.afterSubmit_catalog]
    exact Catalog.keeps_iff hv
  refine ⟨row, _, if_neg hfresh, rfl, rfl, rfl, ?_⟩
  rw [Db.available_afterSubmit]
  -- a request takes its minutes under a version with balances only
  by_cases hkind : r.version.kind ≠ .UNLIMITED
  · rw [if_pos ⟨hkind, rfl⟩, if_pos (hkeeps.mpr hkind)]
    rfl
  · rw [if_neg fun h => hkind h.1, if_neg fun h => hkind (hkeeps.mp h)]
    rfl

/-- Whatever was tried before, previews agree with the submissions they stand
for. -/
theorem previews_agree (dir : Directory) (ops : List Op) :
    PreviewsAgree dir (ops.foldl (Op.tried dir) .empty) :=
  previewsAgree_of_exact (reachable_tried ⟨[], .nil⟩).snapshotsExact

end TimeOff
