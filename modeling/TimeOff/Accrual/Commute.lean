import TimeOff.Accrual.CatchUp
import TimeOff.Accrual.Closing

/-!
# The scheduled job and the rollover in either order

A rollover moves minutes of an account: it takes the year-end balance away on
the last day of the year and gives back what is carried on the next
(`Db.closingGain`). A scheduled run after it finds the account shifted by that
gain (`Shifted`), and posts the same credits; only the cap losses can differ. So
the two jobs commute when no posting loses anything because of the minutes that
the rollover moves (`Undisturbed`), and where the job posts in the order of
dates and has settled the old year, they commute in no other case
(**`jobs_commute`**).

For the first direction, two states that are shifted against each other on an
account stay so over a posting that loses the same on both sides
(`Shifted.postAccrual`), and an undisturbed posting does
(`Undisturbed.sameLoss`). The job before the closing, on the other hand, does
not change what the closing moves: credits that were due by the year end are
posted already, and what the job still takes there would have been lost by an
undisturbed posting (`closingGain_postAccruals`). So both orders add the same
postings and the same gain.

For the second, what a posting does to the distance between the two sides goes
one way. A cap takes more from the higher side, but no more than it is higher,
so the gap narrows and never changes sides (`narrowed_over`, `gap_step`). If the
totals agree in the end, no posting has narrowed it, and a posting that loses
the same on both sides of a gap is one that the gap does not disturb
(`undisturbed_of_commute`). For this the postings have to come in the order of
their dates: a gap at a date is what later ones see too.
-/

namespace TimeOff

open Gregorian AccrualService RolloverService

/-! ## What a closing moves

By any date, the balance of an account after its closing is the one before plus
a gain that depends on that date only: what expires on the last day, and what
comes back on the next. -/

/-- The minutes that closing an account adds to its balance as of a day, or to
its total. -/
def Db.closingGain (periodEnd : Date) (x : PolicyAssignment) (asOf : Option Date) (db : Db) : Int :=
  match db.catalog.versionEffectiveOn x.policyId periodEnd with
  | none => 0
  | some v =>
    let left := db.ledger.balance x.account (some periodEnd)
    if v.kind = .UNLIMITED ∨ left ≤ 0 then 0
    else
      match carriedMinutes left v.carryoverCapMinutes v.expiresAtPeriodEnd with
      | none => 0
      | some carried =>
        (if Table.Has db.ledger (closingKey x periodEnd "expiration") ∨
            ¬ ∀ day ∈ asOf, periodEnd ≤ day then 0 else -left) +
        if Table.Has db.ledger (closingKey x periodEnd "carryover") ∨
            ¬ ∀ day ∈ asOf, periodEnd < day then 0 else carried

namespace Db

variable {db db' : Db} {companyId : String} {periodEnd : Date} {x y : PolicyAssignment}
  {asOf : Option Date}

/-- Closing an account adds its gain. -/
theorem balance_closeAccount :
    (db.closeAccount companyId periodEnd x).ledger.balance x.account asOf
      = db.ledger.balance x.account asOf + db.closingGain periodEnd x asOf := by
  simp only [closeAccount, closingGain]
  cases db.catalog.versionEffectiveOn x.policyId periodEnd with
  | none => exact (Int.add_zero _).symm
  | some v =>
  dsimp only
  by_cases hkind : v.kind = .UNLIMITED
  · rw [if_pos hkind, if_pos (Or.inl hkind), Int.add_zero]
  rw [if_neg hkind]
  by_cases hleft : db.ledger.balance x.account (some periodEnd) ≤ 0
  · have hnothing : closingEntries companyId x v periodEnd
        (db.ledger.balance ⟨x.employeeId, x.policyId⟩ (some periodEnd)) = [] :=
      closingEntries_of_nonpos hleft
    rw [hnothing, if_pos (Or.inr hleft), Int.add_zero]
    rfl
  rw [if_neg fun h => h.elim hkind hleft]
  cases hcarried : carriedMinutes (db.ledger.balance x.account (some periodEnd))
      v.carryoverCapMinutes v.expiresAtPeriodEnd with
  | none =>
    have hnothing : closingEntries companyId x v periodEnd
        (db.ledger.balance ⟨x.employeeId, x.policyId⟩ (some periodEnd)) = [] :=
      closingEntries_of_none hcarried
    rw [hnothing]
    exact (Int.add_zero _).symm
  | some carried =>
    -- the expiration falls on the last day, the carryover on the next
    have hexpiration : Ledger.part x.account asOf (closingEntry companyId x v periodEnd
        (expirationEntry (db.ledger.balance x.account (some periodEnd)) periodEnd))
        = if ∀ day ∈ asOf, periodEnd ≤ day then -db.ledger.balance x.account (some periodEnd)
          else 0 := by
      simp only [Ledger.part]
      exact if_congr (and_iff_right rfl) rfl rfl
    have hcarryover : Ledger.part x.account asOf (closingEntry companyId x v periodEnd
        (carryoverEntry carried periodEnd))
        = if ∀ day ∈ asOf, periodEnd < day then carried else 0 := by
      simp only [Ledger.part]
      refine if_congr ((and_iff_right rfl).trans ?_) rfl rfl
      refine forall₂_congr fun day _ => ?_
      show periodEnd.ordinal + 1 ≤ day.ordinal ↔ periodEnd.ordinal < day.ordinal
      omega
    refine (balance_closing (not_le.mp hleft) hcarried).trans ?_
    rw [hexpiration, hcarryover, Int.add_assoc]
    congr 1
    simp only [ite_or, ite_not]

/-- The gain is read off the catalog, the year-end balance and the sources of
the two legs. -/
theorem closingGain_of_same (hcat : db'.catalog = db.catalog)
    (hleft : db'.ledger.balance x.account (some periodEnd)
      = db.ledger.balance x.account (some periodEnd))
    (hkeys : ∀ suffix : String, ':' ∉ suffix.toList →
      (Table.Has db'.ledger (closingKey x periodEnd suffix) ↔
        Table.Has db.ledger (closingKey x periodEnd suffix))) :
    db'.closingGain periodEnd x asOf = db.closingGain periodEnd x asOf := by
  have hexpiration := hkeys "expiration" (by decide)
  have hcarryover := hkeys "carryover" (by decide)
  simp only [closingGain, hcat, hleft, hexpiration, hcarryover]

/-- An account that is closed has nothing more to gain. -/
theorem closingGain_closeAccount_self :
    (db.closeAccount companyId periodEnd x).closingGain periodEnd x asOf = 0 := by
  have hclosed := @balance_closeAccount_self db companyId periodEnd x
  simp only [closingGain]
  rw [closeAccount_catalog]
  cases hv : db.catalog.versionEffectiveOn x.policyId periodEnd with
  | none => rfl
  | some v =>
  dsimp only
  rw [hclosed hv]
  split
  · rw [if_pos (Or.inr (le_refl 0))]
  next hopen =>
  by_cases hkind : v.kind = .UNLIMITED
  · rw [if_pos (Or.inl hkind)]
  by_cases hleft : db.ledger.balance x.account (some periodEnd) ≤ 0
  · rw [if_pos (Or.inr hleft)]
  rw [if_neg fun h => h.elim hkind hleft]
  cases hcarried : carriedMinutes (db.ledger.balance x.account (some periodEnd))
      v.carryoverCapMinutes v.expiresAtPeriodEnd with
  | none => rfl
  | some carried =>
    have hlimit : v.carryoverLimit.isSome = true := by
      rw [← carriedMinutes_isSome, hcarried]
      rfl
    -- something is left after the closing, so the expiration was taken before
    have hexpired : Table.Has db.ledger (closingKey x periodEnd "expiration") :=
      by_contra fun hfree => hopen ⟨hlimit, hkind, not_le.mp hleft, hfree⟩
    have hcarriedOver : carried = 0 ∨ Table.Has (db.closeAccount companyId periodEnd x).ledger
        (closingKey x periodEnd "carryover") := by
      by_cases hzero : carried = 0
      · exact Or.inl hzero
      · refine Or.inr ?_
        have hclose : db.closeAccount companyId periodEnd x = db.posts (closingEntries companyId x v
            periodEnd (db.ledger.balance x.account (some periodEnd))) := by
          simp only [closeAccount]
          rw [hv]
          exact if_neg hkind
        rw [hclose, has_ledger_posts, closingEntries_eq (not_le.mp hleft) hcarried, if_pos hzero]
        exact Or.inr ⟨_, List.mem_cons_of_mem _ (List.mem_singleton.mpr rfl), rfl⟩
    dsimp only
    rw [if_pos (Or.inl (taken_mono hexpired)), Int.zero_add]
    rcases hcarriedOver with hzero | htaken
    · rw [hzero, ite_self]
    · rw [if_pos (Or.inl htaken)]

/-- What closing accounts adds to one of them: its gain, if it is among them. -/
theorem balance_closeAccounts {xs : List PolicyAssignment} :
    (db.closeAccounts companyId periodEnd xs).ledger.balance x.account asOf
      = db.ledger.balance x.account asOf
        + if ∃ y ∈ xs, y.account = x.account then db.closingGain periodEnd x asOf else 0 := by
  induction xs generalizing db with
  | nil => simp [closeAccounts]
  | cons y ys ih =>
    rw [closeAccounts_cons, ih]
    by_cases hy : y.account = x.account
    · rw [closeAccount_congr hy, balance_closeAccount, closingGain_closeAccount_self, ite_self,
        if_pos ⟨y, List.mem_cons_self .., hy⟩, Int.add_zero]
    · have hgain : (db.closeAccount companyId periodEnd y).closingGain periodEnd x asOf
          = db.closingGain periodEnd x asOf :=
        closingGain_of_same (closeAccount_catalog ..) (balance_closeAccount_of_ne hy)
          fun _ hplain => taken_closeAccount hy hplain
      have hrest : (∃ z ∈ ys, z.account = x.account) ↔ ∃ z ∈ y :: ys, z.account = x.account := by
        simp [hy]
      rw [balance_closeAccount_of_ne hy, hgain, if_congr hrest rfl rfl]

/-- And nothing to any other. -/
theorem balance_closeAccounts_of_ne {xs : List PolicyAssignment} {a : Account}
    (h : ∀ y ∈ xs, y.account ≠ a) :
    (db.closeAccounts companyId periodEnd xs).ledger.balance a asOf
      = db.ledger.balance a asOf := by
  induction xs generalizing db with
  | nil => rfl
  | cons y ys ih =>
    rw [closeAccounts_cons, ih fun z hz => h z (List.mem_cons_of_mem _ hz),
      balance_closeAccount_of_ne (h y (List.mem_cons_self ..))]

/-- Closings take no source of an accrual job. -/
theorem has_closeAccounts_of_accrual {xs : List PolicyAssignment} {k : SourceKey}
    (hk : k.1.IsAccrual) :
    Table.Has (db.closeAccounts companyId periodEnd xs).ledger k ↔ Table.Has db.ledger k := by
  obtain ⟨es, heq, hes⟩ := closeAccounts_eq_posts companyId periodEnd xs db
  rw [heq, has_ledger_posts]
  refine or_iff_left ?_
  rintro ⟨e, he, rfl⟩
  obtain ⟨_, -, _, _, -, hclosing⟩ := hes e he
  have htype : e.sourceType.IsAccrual := hk
  rw [sourceType_of_closingEntries hclosing] at htype
  exact absurd htype (by decide)

end Db

/-! ## Postings on a shifted account

Two ledgers with the same sources and a constant gap between their balances. A
posting keeps the gap if it loses the same on both. -/

namespace Posting

variable {p : Posting} {ledger : Ledger} {b : Int}

/-- The amount fits under the cap. -/
def Below (p : Posting) (balance : Int) : Prop :=
  ∀ cap ∈ p.maxBalanceMinutes, balance + p.amount ≤ cap

instance (p : Posting) (balance : Int) : Decidable (p.Below balance) :=
  inferInstanceAs (Decidable (∀ cap ∈ p.maxBalanceMinutes, balance + p.amount ≤ cap))

/-- What does not fit. -/
def excess (p : Posting) (balance : Int) : Int :=
  (p.maxBalanceMinutes.map fun cap => max (balance + p.amount - cap) 0).getD 0

/-- What fits has no excess. -/
theorem excess_eq_zero_iff : p.excess b = 0 ↔ p.Below b := by
  simp only [excess, Below]
  cases p.maxBalanceMinutes with
  | none => simp
  | some cap =>
    show max (b + p.amount - cap) 0 = 0 ↔ _
    simp

/-- A higher balance loses more, but no more than it is higher. -/
theorem excess_le (p : Posting) {b b' : Int} (h : b ≤ b') :
    p.excess b ≤ p.excess b' ∧ p.excess b' ≤ p.excess b + (b' - b) := by
  simp only [excess]
  cases p.maxBalanceMinutes with
  | none =>
    show (0 : Int) ≤ 0 ∧ (0 : Int) ≤ 0 + (b' - b)
    omega
  | some cap =>
    show max (b + p.amount - cap) 0 ≤ max (b' + p.amount - cap) 0 ∧
      max (b' + p.amount - cap) 0 ≤ max (b + p.amount - cap) 0 + (b' - b)
    omega

/-- A posting loses its excess, unless the loss is recorded. -/
theorem forfeits_eq : p.forfeits ledger
    = if Table.Has ledger p.lossKey then 0
      else p.excess (ledger.balance p.account (some p.effectiveDate)) := rfl

end Posting

/-- The sources of some postings are apart: no credit has the source of a loss,
and each posting has sources of its own. -/
structure SourcesApart (ps : List Posting) : Prop where
  plain : ∀ p ∈ ps, ∀ q ∈ ps, p.credit.key ≠ q.lossKey
  own : ∀ p ∈ ps, ∀ q ∈ ps, p.lossKey = q.lossKey → p = q

/-- Fewer postings are apart too. -/
theorem SourcesApart.tail {p : Posting} {ps : List Posting} (h : SourcesApart (p :: ps)) :
    SourcesApart ps where
  plain q hq r hr := h.plain q (List.mem_cons_of_mem _ hq) r (List.mem_cons_of_mem _ hr)
  own q hq r hr := h.own q (List.mem_cons_of_mem _ hq) r (List.mem_cons_of_mem _ hr)

/-- The postings of a scheduled run are apart. -/
theorem sourcesApart_of_plan {c : Catalog} {dir : Directory} {companyId : String} {asOf : Date}
    {ps : List Posting} (h : scheduledPlan c dir companyId asOf = .ok ps) : SourcesApart ps := by
  have hpostings : (Op.runScheduled companyId asOf).postings dir c = .ok ps := h
  constructor
  · intro p hp q _ hkey
    exact (issued_of_postings hpostings hp).plain _ (Prod.mk.inj hkey).2
  · intro p hp q hq hkey
    obtain ⟨s, period, hs⟩ := mem_scheduledPlan h hp
    obtain ⟨s', period', hs'⟩ := mem_scheduledPlan h hq
    obtain ⟨htype, hid⟩ := Prod.mk.inj hkey
    have hcredit : p.credit.key = q.credit.key :=
      Prod.ext htype ((String.append_left_inj _).mp hid)
    exact hs.posting_eq_of_key hs' hcredit

namespace Db

variable {db db' : Db} {a : Account} {p : Posting} {ps : List Posting} {gain : Option Date → Int}

/-- The sources after a posting. -/
theorem has_postAccrual {k : SourceKey} : Table.Has (db.postAccrual p).ledger k ↔
    Table.Has db.ledger k ∨ k = p.credit.key ∨
      (k = p.lossKey ∧ ¬ p.Below (db.ledger.balance p.account (some p.effectiveDate))) := by
  rw [postAccrual_eq_posts, has_ledger_posts]
  refine or_congr_right ?_
  rw [List.exists_mem_cons_iff, eq_comm (a := k)]
  refine or_congr_right ?_
  cases hloss : p.loss (db.ledger.balance p.account (some p.effectiveDate)) with
  | none =>
    have hfits := Posting.loss_eq_none_iff.mp hloss
    constructor
    · rintro ⟨e, he, -⟩
      cases he
    · rintro ⟨-, hnot⟩
      exact absurd hfits hnot
  | some e =>
    obtain ⟨cap, hcap, hlt, rfl⟩ := Posting.loss_eq_some hloss
    constructor
    · rintro ⟨e, he, rfl⟩
      cases he with
      | head => exact ⟨rfl, fun hfits => absurd (hfits cap hcap) (not_le.mpr hlt)⟩
      | tail _ h => cases h
    · rintro ⟨rfl, -⟩
      exact ⟨_, List.mem_cons_self .., rfl⟩

/-- Two states agree on an account for some postings: the same of their sources
are taken, and the balances differ by a fixed gain. -/
structure Shifted (ps : List Posting) (a : Account) (gain : Option Date → Int) (db db' : Db) :
    Prop where
  credits : ∀ p ∈ ps, p.account = a →
    (Table.Has db'.ledger p.credit.key ↔ Table.Has db.ledger p.credit.key)
  losses : ∀ p ∈ ps, p.account = a →
    (Table.Has db'.ledger p.lossKey ↔ Table.Has db.ledger p.lossKey)
  balance : ∀ asOf, db'.ledger.balance a asOf = db.ledger.balance a asOf + gain asOf

/-- A posting that loses the same on both sides leaves them as they are to each other. -/
theorem Shifted.postAccrual (h : Shifted (p :: ps) a gain db db') (hapart : SourcesApart (p :: ps))
    (hsame : p.account = a → p.forfeits db'.ledger = p.forfeits db.ledger) :
    Shifted ps a gain (db.postAccrual p) (db'.postAccrual p) := by
  have hp := List.mem_cons_self (a := p) (l := ps)
  constructor
  · intro q hq ha
    rw [has_postAccrual, has_postAccrual, h.credits q (List.mem_cons_of_mem _ hq) ha]
    have hplain := hapart.plain q (List.mem_cons_of_mem _ hq) p hp
    simp only [hplain, false_and]
  · intro q hq ha
    rw [has_postAccrual, has_postAccrual, h.losses q (List.mem_cons_of_mem _ hq) ha]
    have hplain := (hapart.plain p hp q (List.mem_cons_of_mem _ hq)).symm
    by_cases hkey : q.lossKey = p.lossKey
    · have hpa : p.account = a :=
        hapart.own q (List.mem_cons_of_mem _ hq) p hp hkey ▸ ha
      have hsame := hsame hpa
      by_cases htaken : Table.Has db.ledger p.lossKey
      · simp only [hkey, htaken, true_or]
      · have hfree : ¬ Table.Has db'.ledger p.lossKey := fun h' =>
          htaken ((h.losses p hp hpa).mp h')
        rw [Posting.forfeits_eq, Posting.forfeits_eq, if_neg hfree, if_neg htaken] at hsame
        have hfits : p.Below (db'.ledger.balance p.account (some p.effectiveDate)) ↔
            p.Below (db.ledger.balance p.account (some p.effectiveDate)) := by
          rw [← Posting.excess_eq_zero_iff, hsame, Posting.excess_eq_zero_iff]
        simp only [hfits]
    · simp only [hkey, false_and]
  · intro asOf
    by_cases hpa : p.account = a
    · subst hpa
      have hcredits : p.credits db'.ledger = p.credits db.ledger :=
        if_congr (h.credits p hp rfl) rfl rfl
      rw [balance_postAccrual, balance_postAccrual, h.balance, hcredits, hsame rfl]
      omega
    · rw [balance_postAccrual_of_ne hpa, balance_postAccrual_of_ne hpa, h.balance]

end Db

/-- With a gain on the account, the posting loses the same. -/
def Posting.SameLoss (a : Account) (gain : Option Date → Int) (ledger : Ledger)
    (p : Posting) : Prop :=
  p.account = a → Table.Has ledger p.lossKey ∨
    p.excess (ledger.balance a (some p.effectiveDate) + gain (some p.effectiveDate))
      = p.excess (ledger.balance a (some p.effectiveDate))

namespace Db

variable {db db' : Db} {a : Account} {p : Posting} {ps : List Posting} {gain : Option Date → Int}
  {periodEnd : Date} {x : PolicyAssignment}

/-- Conditions that are asked of every posting. -/
theorem Each.mono {P Q : Ledger → Posting → Prop} (h : Db.Each P ps db)
    (himp : ∀ ledger, ∀ p ∈ ps, P ledger p → Q ledger p) : Db.Each Q ps db := by
  induction ps generalizing db with
  | nil => trivial
  | cons p ps ih =>
    exact ⟨himp _ p (List.mem_cons_self ..) h.1,
      ih h.2 fun ledger q hq => himp ledger q (List.mem_cons_of_mem _ hq)⟩

theorem Each.and {P Q : Ledger → Posting → Prop} (h : Db.Each P ps db) (h' : Db.Each Q ps db) :
    Db.Each (fun ledger p => P ledger p ∧ Q ledger p) ps db := by
  induction ps generalizing db with
  | nil => trivial
  | cons p ps ih => exact ⟨⟨h.1, h'.1⟩, ih h.2 h'.2⟩

/-- And so do several, each losing the same on both sides. -/
theorem Shifted.postAccruals (h : Shifted ps a gain db db') (hapart : SourcesApart ps)
    (hsame : Db.Each (Posting.SameLoss a gain) ps db) :
    Shifted [] a gain (db.postAccruals ps) (db'.postAccruals ps) := by
  induction ps generalizing db db' with
  | nil => exact h
  | cons p ps ih =>
    refine ih (h.postAccrual hapart ?_) hapart.tail hsame.2
    intro hpa
    rw [Posting.forfeits_eq, Posting.forfeits_eq, hpa, h.balance]
    have hlosses := h.losses p (List.mem_cons_self ..) hpa
    by_cases htaken : Table.Has db.ledger p.lossKey
    · rw [if_pos htaken, if_pos (hlosses.mpr htaken)]
    · rw [if_neg htaken, if_neg fun h' => htaken (hlosses.mp h')]
      exact (hsame.1 hpa).resolve_left htaken

/-- The job's credits up to a day are all in the ledger. -/
def PostedUpTo (a : Account) (day : Date) (ps : List Posting) (db : Db) : Prop :=
  ∀ p ∈ ps, p.account = a → p.effectiveDate ≤ day → Table.Has db.ledger p.credit.key

/-- What is in the ledger stays there. -/
theorem PostedUpTo.postAccrual {day : Date} (h : PostedUpTo a day (p :: ps) db) :
    PostedUpTo a day ps (db.postAccrual p) := fun q hq ha hdue =>
  has_postAccrual.mpr (Or.inl (h q (List.mem_cons_of_mem _ hq) ha hdue))

/-- A posting that is due already can only lose. -/
theorem balance_postAccrual_posted {day : Date} (h : PostedUpTo a day (p :: ps) db) :
    (db.postAccrual p).ledger.balance a (some day) = db.ledger.balance a (some day)
      - if p.account = a ∧ p.effectiveDate ≤ day then p.forfeits db.ledger else 0 := by
  by_cases hpa : p.account = a
  · subst hpa
    by_cases hdue : p.effectiveDate ≤ day
    · have hcredits : p.credits db.ledger = 0 := if_pos (h p (List.mem_cons_self ..) rfl hdue)
      rw [balance_postAccrual, hcredits, if_pos (by simpa using hdue), if_pos ⟨rfl, hdue⟩]
      omega
    · rw [balance_postAccrual, if_neg (by simpa using hdue), if_neg fun h' => hdue h'.2]
      omega
  · rw [balance_postAccrual_of_ne hpa, if_neg fun h' => hpa h'.1, Int.sub_zero]

/-- So postings that are due already only take from the balance. -/
theorem balance_postAccruals_le {day : Date} (h : PostedUpTo a day ps db) :
    (db.postAccruals ps).ledger.balance a (some day) ≤ db.ledger.balance a (some day) := by
  induction ps generalizing db with
  | nil => exact le_refl _
  | cons p ps ih =>
    refine le_trans (ih h.postAccrual) ?_
    have hnonneg := p.forfeits_nonneg db.ledger
    rw [balance_postAccrual_posted h]
    split <;> omega

/-- The job takes nothing back that is due by the day. -/
def SettledUpTo (a : Account) (day : Date) : List Posting → Db → Prop :=
  Db.Each fun ledger p => p.account = a → p.effectiveDate ≤ day → p.forfeits ledger = 0

/-- And with nothing to take, they leave it alone. -/
theorem balance_postAccruals_of_settled {day : Date} (h : PostedUpTo a day ps db)
    (hsettled : SettledUpTo a day ps db) :
    (db.postAccruals ps).ledger.balance a (some day) = db.ledger.balance a (some day) := by
  induction ps generalizing db with
  | nil => rfl
  | cons p ps ih =>
    refine (ih h.postAccrual hsettled.2).trans ?_
    rw [balance_postAccrual_posted h]
    split
    · next hp =>
      rw [hsettled.1 hp.1 hp.2, Int.sub_zero]
    · exact Int.sub_zero _

/-- The job takes no source of a closing. -/
theorem has_postAccruals_of_closing (hissued : ∀ p ∈ ps, p.sourceType.IsAccrual) {suffix : String} :
    Table.Has (db.postAccruals ps).ledger (closingKey x periodEnd suffix) ↔
      Table.Has db.ledger (closingKey x periodEnd suffix) := by
  obtain ⟨es, heq, hes⟩ := postAccruals_eq_posts ps db
  rw [heq, has_ledger_posts]
  refine or_iff_left ?_
  rintro ⟨e, he, hkey⟩
  obtain ⟨p, hp, hposts⟩ := hes e he
  have htype := hissued p hp
  rw [← hposts.sourceType, show e.sourceType = .PERIOD_ROLLOVER from (Prod.mk.inj hkey).1] at htype
  exact absurd htype (by decide)

/-- With less to close, nothing is carried where nothing was, and all where all was. -/
theorem carriedMinutes_of_le {left less carried : Int} {cap : Option Int} {expires : Bool}
    (hless : 0 < less) (hle : less ≤ left) (h : carriedMinutes less cap expires = some carried) :
    ∃ more, carriedMinutes left cap expires = some more ∧ (more = 0 → carried = 0) ∧
      (more = left → carried = less) := by
  simp only [carriedMinutes] at h ⊢
  split at h
  · next hexpires =>
    cases h
    exact ⟨0, if_pos hexpires, fun _ => rfl, fun h => by omega⟩
  · next hexpires =>
    obtain ⟨limit, hcap, rfl⟩ := Option.map_eq_some_iff.mp h
    refine ⟨min left limit, ?_, fun h => by omega, fun h => by omega⟩
    rw [if_neg hexpires, hcap]
    rfl

/-- Where closing the account leaves its total as it is, so it does with less on
the account. -/
theorem closingGain_eq_zero_of_le (hcat : db'.catalog = db.catalog)
    (hle : db'.ledger.balance x.account (some periodEnd)
      ≤ db.ledger.balance x.account (some periodEnd))
    (hkeys : ∀ suffix, Table.Has db'.ledger (closingKey x periodEnd suffix) ↔
      Table.Has db.ledger (closingKey x periodEnd suffix))
    (h : db.closingGain periodEnd x none = 0) : db'.closingGain periodEnd x none = 0 := by
  simp only [closingGain] at h ⊢
  rw [hcat]
  cases hv : db.catalog.versionEffectiveOn x.policyId periodEnd with
  | none => rfl
  | some v =>
  rw [hv] at h
  dsimp only at h ⊢
  by_cases hkind : v.kind = .UNLIMITED
  · rw [if_pos (Or.inl hkind)]
  by_cases hleft : db'.ledger.balance x.account (some periodEnd) ≤ 0
  · rw [if_pos (Or.inr hleft)]
  rw [if_neg fun h => h.elim hkind hleft]
  rw [if_neg fun h => h.elim hkind fun h => hleft (le_trans hle h)] at h
  -- all dates count, so each leg is left out only where its source is taken
  have hday : ∀ P : Date → Prop, ¬ ¬ ∀ day ∈ (none : Option Date), P day :=
    fun P hn => hn fun day hday => absurd hday (Option.not_mem_none day)
  have hexpiration : ∀ taken : Prop,
      (taken ∨ ¬ ∀ day ∈ (none : Option Date), periodEnd ≤ day) ↔ taken :=
    fun _ => or_iff_left (hday _)
  have hcarryover : ∀ taken : Prop,
      (taken ∨ ¬ ∀ day ∈ (none : Option Date), periodEnd < day) ↔ taken :=
    fun _ => or_iff_left (hday _)
  simp only [hexpiration, hcarryover, hkeys] at h ⊢
  cases hcarried : carriedMinutes (db'.ledger.balance x.account (some periodEnd))
      v.carryoverCapMinutes v.expiresAtPeriodEnd with
  | none => rfl
  | some carried =>
    -- of more minutes more is carried, and nothing or everything alike
    obtain ⟨more, hmore, hzero, hall⟩ := carriedMinutes_of_le (not_le.mp hleft) hle hcarried
    rw [hmore] at h
    dsimp only at h ⊢
    by_cases hexpired : Table.Has db.ledger (closingKey x periodEnd "expiration") <;>
      by_cases hcarried : Table.Has db.ledger (closingKey x periodEnd "carryover") <;>
      simp only [hexpired, hcarried, if_true, if_false] at h ⊢ <;> omega

end Db

/-! ## Both jobs

The two orders differ in where the postings find the gain. Where no posting is
disturbed by it, the totals agree. -/

/-- In either order, the two jobs leave every account the same total. -/
def JobsCommute (dir : Directory) (companyId : String) (asOf : Date) (db : Db) : Prop :=
  ∀ closed closedThenRun run runThenClosed,
    Step dir db (.rollover companyId asOf) closed →
    Step dir closed (.runScheduled companyId asOf) closedThenRun →
    Step dir db (.runScheduled companyId asOf) run →
    Step dir run (.rollover companyId asOf) runThenClosed →
    ∀ a, closedThenRun.ledger.balance a none = runThenClosed.ledger.balance a none

/-- What the closing of `x` moves makes no difference to the posting: it moves
nothing on balance, and nothing by the posting's date; or the loss is recorded;
or the amount fits with and without it. -/
def Posting.Undisturbed (start : Db) (periodEnd : Date) (x : PolicyAssignment) (ledger : Ledger)
    (p : Posting) : Prop :=
  p.account = x.account →
    (start.closingGain periodEnd x none = 0 ∧
      start.closingGain periodEnd x (some p.effectiveDate) = 0) ∨
    Table.Has ledger p.lossKey ∨
    (p.Below (ledger.balance x.account (some p.effectiveDate)) ∧
      p.Below (ledger.balance x.account (some p.effectiveDate)
        + start.closingGain periodEnd x (some p.effectiveDate)))

instance (start : Db) (periodEnd : Date) (x : PolicyAssignment) (ledger : Ledger) (p : Posting) :
    Decidable (p.Undisturbed start periodEnd x ledger) :=
  inferInstanceAs (Decidable (_ → _ ∨ _ ∨ _))

namespace Db

/-- No planned posting is disturbed by a closing. -/
def Undisturbed (companyId : String) (asOf : Date) (ps : List Posting) (db : Db) : Prop :=
  ∀ x ∈ db.catalog.assignmentsCovering companyId none (closingDay asOf),
    Db.Each (Posting.Undisturbed db (closingDay asOf) x) ps db

instance (companyId : String) (asOf : Date) (ps : List Posting) (db : Db) :
    Decidable (db.Undisturbed companyId asOf ps) :=
  inferInstanceAs (Decidable (∀ x ∈ _, _))

end Db

/-- A rollover goes through in every state. -/
theorem step_rollover (dir : Directory) (companyId : String) (asOf : Date) (db : Db) :
    ∃ outcome, Step dir db (.rollover companyId asOf)
      ((db.closeAccounts companyId (closingDay asOf) (db.catalog.assignmentsCovering companyId none
        (closingDay asOf))).recordRun outcome) := by
  exact ⟨_, congrArg (Except.map Prod.snd) (RolloverService.run_run companyId asOf db)⟩

/-- A scheduled run goes through when it has a plan. -/
theorem step_runScheduled {dir : Directory} {companyId : String} {asOf : Date} {db : Db}
    {ps : List Posting} (hplan : scheduledPlan db.catalog dir companyId asOf = .ok ps) :
    ∃ outcome, Step dir db (.runScheduled companyId asOf)
      ((db.postAccruals ps).recordRun outcome) := by
  have hrun := run_runScheduled dir companyId asOf db
  rw [hplan] at hrun
  exact ⟨_, congrArg (Except.map Prod.snd) hrun⟩

/-- The two orders as functions of the ledger. -/
theorem jobsCommute_iff {dir : Directory} {companyId : String} {asOf : Date} {db : Db}
    {ps : List Posting} (hplan : scheduledPlan db.catalog dir companyId asOf = .ok ps) :
    JobsCommute dir companyId asOf db ↔ ∀ a,
      ((db.closeAccounts companyId (closingDay asOf) (db.catalog.assignmentsCovering companyId none
        (closingDay asOf))).postAccruals ps).ledger.balance a none
      = ((db.postAccruals ps).closeAccounts companyId (closingDay asOf)
        (db.catalog.assignmentsCovering companyId none
          (closingDay asOf))).ledger.balance a none := by
  constructor
  · intro hcommute a
    obtain ⟨outcome, hclosed⟩ := step_rollover dir companyId asOf db
    have hplan' : scheduledPlan ((db.closeAccounts companyId (closingDay asOf)
        (db.catalog.assignmentsCovering companyId none (closingDay asOf))).recordRun
        outcome).catalog dir companyId asOf = .ok ps := by
      simpa using hplan
    obtain ⟨_, hclosedRun⟩ := step_runScheduled hplan'
    obtain ⟨_, hrun⟩ := step_runScheduled hplan
    obtain ⟨_, hrunClosed⟩ := step_rollover dir companyId asOf ((db.postAccruals ps).recordRun _)
    simpa using hcommute _ _ _ _ hclosed hclosedRun hrun hrunClosed a
  · intro heq closed closedThenRun run runThenClosed h₁ h₂ h₃ h₄ a
    cases effect_of_step h₁ with
    | rollover =>
    cases effect_of_step h₃ with
    | runScheduled hqs =>
    obtain rfl := Except.ok.inj (hplan.symm.trans hqs)
    cases effect_of_step h₂ with
    | runScheduled hqs₂ =>
    rw [Db.recordRun_catalog, Db.closeAccounts_catalog] at hqs₂
    obtain rfl := Except.ok.inj (hplan.symm.trans hqs₂)
    cases effect_of_step h₄ with
    | rollover => simpa using heq a

section commute

variable {dir : Directory} {companyId : String} {asOf : Date} {db db' : Db} {ps : List Posting}
  {x : PolicyAssignment} {periodEnd day : Date} {p : Posting} {ledger : Ledger}

/-- An undisturbed posting loses the same before and after the closing. -/
theorem Posting.Undisturbed.sameLoss (h : p.Undisturbed db periodEnd x ledger) :
    p.SameLoss x.account (fun asOf => db.closingGain periodEnd x asOf) ledger := by
  intro ha
  rcases h ha with ⟨-, hnothing⟩ | htaken | ⟨hfits, hfits'⟩
  · refine Or.inr ?_
    dsimp only
    rw [hnothing, Int.add_zero]
  · exact Or.inl htaken
  · refine Or.inr ?_
    dsimp only
    rw [Posting.excess_eq_zero_iff.mpr hfits, Posting.excess_eq_zero_iff.mpr hfits']

/-- If the closing moves minutes, an undisturbed posting loses nothing. -/
theorem Posting.Undisturbed.forfeits (h : p.Undisturbed db periodEnd x ledger)
    (hgain : db.closingGain periodEnd x none ≠ 0) (ha : p.account = x.account) :
    p.forfeits ledger = 0 := by
  rw [Posting.forfeits_eq, ha]
  rcases h ha with ⟨hnothing, -⟩ | htaken | ⟨hfits, -⟩
  · exact absurd hnothing hgain
  · exact if_pos htaken
  · rw [Posting.excess_eq_zero_iff.mpr hfits, ite_self]

/-- After the job, a closing moves what it would have moved before. -/
theorem closingGain_postAccruals (x : PolicyAssignment) (periodEnd : Date)
    (hissued : ∀ p ∈ ps, p.sourceType.IsAccrual)
    (hposted : db.PostedUpTo x.account periodEnd ps)
    (h : db.closingGain periodEnd x none = 0 ∨ db.SettledUpTo x.account periodEnd ps) :
    (db.postAccruals ps).closingGain periodEnd x none = db.closingGain periodEnd x none := by
  have hcat := Db.postAccruals_catalog ps db
  rcases h with hzero | hsettled
  · rw [hzero]
    exact Db.closingGain_eq_zero_of_le hcat (Db.balance_postAccruals_le hposted)
      (fun _ => Db.has_postAccruals_of_closing hissued) hzero
  · exact Db.closingGain_of_same hcat (Db.balance_postAccruals_of_settled hposted hsettled)
      fun _ _ => Db.has_postAccruals_of_closing hissued

/-- The rollover leaves an account shifted by what it moves. -/
theorem shifted_closeAccounts (companyId : String) (periodEnd : Date) (db : Db)
    {xs : List PolicyAssignment} (hx : x ∈ xs)
    (hissued : ∀ p ∈ ps, p.sourceType.IsAccrual) :
    Db.Shifted ps x.account (fun asOf => db.closingGain periodEnd x asOf) db
      (db.closeAccounts companyId periodEnd xs) where
  credits p hp _ := Db.has_closeAccounts_of_accrual (hissued p hp)
  losses p hp _ := Db.has_closeAccounts_of_accrual (hissued p hp)
  balance asOf := by rw [Db.balance_closeAccounts, if_pos ⟨x, hx, rfl⟩]

/-- Undisturbed postings commute with the closings. -/
theorem balance_commute (hissued : ∀ p ∈ ps, p.sourceType.IsAccrual) (hapart : SourcesApart ps)
    (hposted : ∀ p ∈ ps, p.effectiveDate ≤ closingDay asOf → Table.Has db.ledger p.credit.key)
    (h : db.Undisturbed companyId asOf ps) (a : Account) :
    ((db.closeAccounts companyId (closingDay asOf) (db.catalog.assignmentsCovering companyId none
        (closingDay asOf))).postAccruals ps).ledger.balance a none
      = ((db.postAccruals ps).closeAccounts companyId (closingDay asOf)
        (db.catalog.assignmentsCovering companyId none
          (closingDay asOf))).ledger.balance a none := by
  by_cases hclosed : ∃ x ∈ db.catalog.assignmentsCovering companyId none (closingDay asOf),
      x.account = a
  · obtain ⟨x, hx, rfl⟩ := hclosed
    have hundisturbed := h x hx
    have hsame := hundisturbed.mono fun _ _ _ hp => hp.sameLoss
    have hshift := (shifted_closeAccounts companyId (closingDay asOf) db hx
      hissued).postAccruals hapart hsame
    have hgain := closingGain_postAccruals x (closingDay asOf) hissued
      (fun p hp _ hdue => hposted p hp hdue) (by
        by_cases hzero : db.closingGain (closingDay asOf) x none = 0
        · exact Or.inl hzero
        · exact Or.inr (hundisturbed.mono fun _ _ _ hp ha _ => hp.forfeits hzero ha))
    rw [hshift.balance, Db.balance_closeAccounts, if_pos ⟨x, hx, rfl⟩, hgain]
  · -- the rollover does not touch the account
    push Not at hclosed
    have hshift : Db.Shifted ps a (fun _ => 0) db (db.closeAccounts companyId (closingDay asOf)
        (db.catalog.assignmentsCovering companyId none (closingDay asOf))) :=
      ⟨fun p hp _ => Db.has_closeAccounts_of_accrual (hissued p hp),
        fun p hp _ => Db.has_closeAccounts_of_accrual (hissued p hp),
        fun _ => by rw [Db.balance_closeAccounts_of_ne hclosed, Int.add_zero]⟩
    have hsame : Db.Each (Posting.SameLoss a fun _ => 0) ps db :=
      (Db.each_true ps db).mono fun _ _ _ _ _ => Or.inr (by rw [Int.add_zero])
    rw [(hshift.postAccruals hapart hsame).balance, Db.balance_closeAccounts_of_ne hclosed,
      Int.add_zero]

/-! ## Nothing else commutes

The gap after each posting, as far as it has narrowed. A gap that has been
narrowed never widens again, so equal totals say that it never was. -/

/-- A gap has become no wider, and has not changed sides. -/
def Narrowed (gap wider : Int) : Prop := (0 ≤ gap ∧ gap ≤ wider) ∨ (wider ≤ gap ∧ gap ≤ 0)

theorem Narrowed.trans {a b c : Int} (h : Narrowed a b) (h' : Narrowed b c) : Narrowed a c := by
  simp only [Narrowed] at *
  omega

theorem Posting.excess_nonneg (p : Posting) (b : Int) : 0 ≤ p.excess b := by
  simp only [excess]
  cases p.maxBalanceMinutes with
  | none => exact le_refl 0
  | some cap => exact le_max_right _ _

/-- A posting narrows the gap between two balances. -/
theorem Posting.narrowed_over (p : Posting) (b gap : Int) :
    Narrowed (gap - p.excess (b + gap) + p.excess b) gap := by
  simp only [Narrowed]
  rcases le_total 0 gap with h | h
  · obtain ⟨h₁, h₂⟩ := p.excess_le (show b ≤ b + gap by omega)
    omega
  · obtain ⟨h₁, h₂⟩ := p.excess_le (show b + gap ≤ b by omega)
    omega

/-- The postings to an account come in the order of their dates. -/
def InDateOrder (ps : List Posting) : Prop :=
  ps.Pairwise fun p q => p.account = q.account → p.effectiveDate < q.effectiveDate

instance : DecidablePred InDateOrder := fun ps =>
  inferInstanceAs (Decidable (ps.Pairwise _))

/-- What one posting does to the gap: nothing if it is due by the closing, and
otherwise it narrows it. -/
theorem gap_step {gain : Option Date → Int} {off : Int}
    (hlate : ∀ day, periodEnd < day → gain (some day) = gain none)
    (hearly : ∀ day, day ≤ periodEnd → gain (some day) ≤ 0)
    (hloss : Table.Has db'.ledger p.lossKey ↔ Table.Has db.ledger p.lossKey)
    (hdated : db'.ledger.balance p.account (some p.effectiveDate)
      = db.ledger.balance p.account (some p.effectiveDate) + gain (some p.effectiveDate) + off)
    (hoff : off = 0 ∨ periodEnd < p.effectiveDate)
    (hsettled : p.effectiveDate ≤ periodEnd → p.forfeits db.ledger = 0) :
    Narrowed (gain none + (off - p.forfeits db'.ledger + p.forfeits db.ledger)) (gain none + off) ∧
      (off - p.forfeits db'.ledger + p.forfeits db.ledger = 0 ∨ periodEnd < p.effectiveDate) ∧
      (off = 0 → off - p.forfeits db'.ledger + p.forfeits db.ledger = 0 →
        Table.Has db.ledger p.lossKey ∨
          p.excess (db.ledger.balance p.account (some p.effectiveDate)
              + gain (some p.effectiveDate))
            = p.excess (db.ledger.balance p.account (some p.effectiveDate))) := by
  rw [Posting.forfeits_eq] at hsettled
  rw [Posting.forfeits_eq, Posting.forfeits_eq, hdated]
  by_cases htaken : Table.Has db.ledger p.lossKey
  · rw [if_pos htaken, if_pos (hloss.mpr htaken), Int.sub_zero, Int.add_zero]
    refine ⟨?_, hoff, fun _ _ => Or.inl htaken⟩
    simp only [Narrowed]
    omega
  rw [if_neg htaken] at hsettled
  rw [if_neg htaken, if_neg fun h => htaken (hloss.mp h)]
  rcases le_or_gt p.effectiveDate periodEnd with hdue | hlater
  · -- by the year end nothing is lost on the higher side, hence nothing on the lower
    obtain rfl : off = 0 := hoff.resolve_right (not_lt.mpr hdue)
    have hover := hsettled hdue
    have hnonneg := Posting.excess_nonneg p (db.ledger.balance p.account (some p.effectiveDate)
      + gain (some p.effectiveDate))
    have hbelow : db.ledger.balance p.account (some p.effectiveDate) + gain (some p.effectiveDate)
        ≤ db.ledger.balance p.account (some p.effectiveDate) := by
      have hgain := hearly _ hdue
      omega
    have hless := p.excess_le hbelow
    rw [Int.add_zero]
    refine ⟨?_, Or.inl (by omega), fun _ _ => Or.inr (by omega)⟩
    simp only [Narrowed]
    omega
  · -- later, a cap takes more from the higher side, but no more than it is higher
    have hgain := hlate _ hlater
    have hnarrow := Posting.narrowed_over p (db.ledger.balance p.account (some p.effectiveDate))
      (gain none + off)
    rw [hgain, Int.add_assoc (db.ledger.balance p.account (some p.effectiveDate))]
    refine ⟨?_, Or.inr hlater, fun hzero hkept => Or.inr ?_⟩
    · rwa [← Int.add_assoc, ← Int.add_sub_assoc]
    · subst hzero
      rw [Int.add_zero] at hkept
      omega

/-- Two states that are apart by a gain and an offset to it: the same sources are
taken, and once there is an offset, what is still to be posted lies after the
closing. -/
structure Gap (periodEnd : Date) (gain : Option Date → Int) (a : Account) (ps : List Posting)
    (off : Int) (db db' : Db) : Prop where
  credits : ∀ p ∈ ps, p.account = a →
    (Table.Has db'.ledger p.credit.key ↔ Table.Has db.ledger p.credit.key)
  losses : ∀ p ∈ ps, p.account = a →
    (Table.Has db'.ledger p.lossKey ↔ Table.Has db.ledger p.lossKey)
  total : db'.ledger.balance a none = db.ledger.balance a none + gain none + off
  dated : ∀ p ∈ ps, p.account = a → db'.ledger.balance a (some p.effectiveDate)
    = db.ledger.balance a (some p.effectiveDate) + gain (some p.effectiveDate) + off
  late : off = 0 ∨ ∀ p ∈ ps, p.account = a → periodEnd < p.effectiveDate

/-- A shift is a gap without an offset. -/
theorem Db.Shifted.gap {gain : Option Date → Int} {a : Account} (h : db.Shifted ps a gain db') :
    Gap periodEnd gain a ps 0 db db' where
  credits := h.credits
  losses := h.losses
  total := (h.balance none).trans (Int.add_zero _).symm
  dated _ _ _ := (h.balance _).trans (Int.add_zero _).symm
  late := Or.inl rfl

namespace Gap

variable {gain : Option Date → Int} {a : Account} {off : Int}

/-- A posting touches the sources of later ones alike on both sides. -/
theorem sources_postAccrual (h : Gap periodEnd gain a (p :: ps) off db db')
    (horder : InDateOrder (p :: ps)) (hapart : SourcesApart (p :: ps)) {q : Posting} (hq : q ∈ ps)
    (ha : q.account = a) :
    (Table.Has (db'.postAccrual p).ledger q.credit.key ↔
        Table.Has (db.postAccrual p).ledger q.credit.key) ∧
      (Table.Has (db'.postAccrual p).ledger q.lossKey ↔
        Table.Has (db.postAccrual p).ledger q.lossKey) := by
  have hp := List.mem_cons_self (a := p) (l := ps)
  have hq' := List.mem_cons_of_mem p hq
  have hplain := hapart.plain q hq' p hp
  have hown : q.lossKey ≠ p.lossKey := by
    intro hkey
    obtain rfl := hapart.own q hq' p hp hkey
    exact lt_irrefl _ ((List.pairwise_cons.mp horder).1 q hq rfl)
  constructor
  · simp only [Db.has_postAccrual, h.credits q hq' ha, hplain, false_and]
  · simp only [Db.has_postAccrual, h.losses q hq' ha, hown, false_and]

/-- A posting to another account leaves the gap as it is. -/
theorem postAccrual_of_ne (h : Gap periodEnd gain a (p :: ps) off db db')
    (horder : InDateOrder (p :: ps)) (hapart : SourcesApart (p :: ps)) (hpa : p.account ≠ a) :
    Gap periodEnd gain a ps off (db.postAccrual p) (db'.postAccrual p) where
  credits _ hq ha := (h.sources_postAccrual horder hapart hq ha).1
  losses _ hq ha := (h.sources_postAccrual horder hapart hq ha).2
  total := by
    rw [Db.balance_postAccrual_of_ne hpa, Db.balance_postAccrual_of_ne hpa, h.total]
  dated q hq ha := by
    rw [Db.balance_postAccrual_of_ne hpa, Db.balance_postAccrual_of_ne hpa,
      h.dated q (List.mem_cons_of_mem p hq) ha]
  late := h.late.imp_right fun hlate q hq => hlate q (List.mem_cons_of_mem p hq)

/-- A posting to the account changes the offset by the difference of the losses. -/
theorem postAccrual_self (h : Gap periodEnd gain p.account (p :: ps) off db db')
    (horder : InDateOrder (p :: ps)) (hapart : SourcesApart (p :: ps))
    (hlate : off - p.forfeits db'.ledger + p.forfeits db.ledger = 0 ∨
      periodEnd < p.effectiveDate) :
    Gap periodEnd gain p.account ps (off - p.forfeits db'.ledger + p.forfeits db.ledger)
      (db.postAccrual p) (db'.postAccrual p) := by
  have hlater := (List.pairwise_cons.mp horder).1
  have hcredit : p.credits db'.ledger = p.credits db.ledger :=
    if_congr (h.credits p (List.mem_cons_self ..) rfl) rfl rfl
  constructor
  · exact fun q hq ha => (h.sources_postAccrual horder hapart hq ha).1
  · exact fun q hq ha => (h.sources_postAccrual horder hapart hq ha).2
  · rw [Db.total_postAccrual, Db.total_postAccrual, h.total, hcredit]
    omega
  · intro q hq ha
    have hreached : ∀ day ∈ some q.effectiveDate, p.effectiveDate ≤ day := by
      simpa using (hlater q hq ha.symm).le
    rw [Db.balance_postAccrual, Db.balance_postAccrual, if_pos hreached, if_pos hreached,
      h.dated q (List.mem_cons_of_mem p hq) ha, hcredit]
    omega
  · exact hlate.imp_right fun hlt q hq ha => lt_trans hlt (hlater q hq ha.symm)

/-- Postings in the order of their dates only narrow the gap that a closing
makes, so they keep it only if each of them does. -/
theorem postAccruals (h : Gap periodEnd gain a ps off db db')
    (hlate : ∀ day, periodEnd < day → gain (some day) = gain none)
    (hearly : ∀ day, day ≤ periodEnd → gain (some day) ≤ 0)
    (horder : InDateOrder ps) (hapart : SourcesApart ps)
    (hsettled : db.SettledUpTo a periodEnd ps) :
    ∃ off', (db'.postAccruals ps).ledger.balance a none
        = (db.postAccruals ps).ledger.balance a none + gain none + off' ∧
      Narrowed (gain none + off') (gain none + off) ∧
      (off = 0 → off' = 0 → db.Each (Posting.SameLoss a gain) ps) := by
  induction ps generalizing db db' off with
  | nil =>
    refine ⟨off, h.total, ?_, fun _ _ => trivial⟩
    simp only [Narrowed]
    omega
  | cons p ps ih =>
    have hp := List.mem_cons_self (a := p) (l := ps)
    have horder' := (List.pairwise_cons.mp horder).2
    by_cases hpa : p.account = a
    · subst hpa
      obtain ⟨hnarrow, hoff, hsame⟩ := gap_step hlate hearly (h.losses p hp rfl) (h.dated p hp rfl)
        (h.late.imp_right fun hlt => hlt p hp rfl) (hsettled.1 rfl)
      obtain ⟨off', hend, hnarrow', hsame'⟩ :=
        ih (h.postAccrual_self horder hapart hoff) horder' hapart.tail hsettled.2
      refine ⟨off', hend, hnarrow'.trans hnarrow, fun hzero hzero' => ?_⟩
      -- the ends are as far apart as they were, so no posting has narrowed the gap
      have hkept : off - p.forfeits db'.ledger + p.forfeits db.ledger = 0 := by
        simp only [Narrowed] at hnarrow hnarrow'
        omega
      exact ⟨fun _ => hsame hzero hkept, hsame' hkept hzero'⟩
    · obtain ⟨off', hend, hnarrow, hsame⟩ :=
        ih (h.postAccrual_of_ne horder hapart hpa) horder' hapart.tail hsettled.2
      exact ⟨off', hend, hnarrow, fun hzero hzero' => ⟨fun ha => absurd ha hpa, hsame hzero hzero'⟩⟩

end Gap

/-- After the year end, a closing has moved all that it moves. -/
theorem closingGain_late (h : periodEnd < day) :
    db.closingGain periodEnd x (some day) = db.closingGain periodEnd x none := by
  have hexpiration :
      (∀ d ∈ some day, periodEnd ≤ d) ↔ ∀ d ∈ (none : Option Date), periodEnd ≤ d := by
    simp [h.le]
  have hcarryover :
      (∀ d ∈ some day, periodEnd < d) ↔ ∀ d ∈ (none : Option Date), periodEnd < d := by
    simp [h]
  simp only [Db.closingGain, hexpiration, hcarryover]

/-- Up to the year end, it only takes minutes away. -/
theorem closingGain_early (h : day ≤ periodEnd) : db.closingGain periodEnd x (some day) ≤ 0 := by
  have hnotYet : ¬ ∀ d ∈ some day, periodEnd < d := by simp [h]
  unfold Db.closingGain
  split
  · exact le_refl 0
  dsimp only
  split
  · exact le_refl 0
  next hleft =>
  split
  · exact le_refl 0
  · rw [if_pos (Or.inr hnotYet), Int.add_zero]
    split <;> omega

/-- Where a gap makes no difference to what is over the cap, nothing is. -/
theorem Posting.below_of_excess_eq {b gap : Int} (hgap : gap ≠ 0)
    (h : p.excess (b + gap) = p.excess b) :
    p.Below b ∧ p.Below (b + gap) := by
  simp only [excess] at h
  simp only [Below]
  cases hcap : p.maxBalanceMinutes with
  | none => simp
  | some cap =>
    rw [hcap] at h
    simp only [Option.map_some, Option.getD_some] at h
    constructor <;>
    · intro cap' hcap'
      cases hcap'
      omega

/-- If the totals agree in the end, and the old year was settled, no posting was
disturbed. -/
theorem undisturbed_of_commute (hissued : ∀ p ∈ ps, p.sourceType.IsAccrual)
    (hapart : SourcesApart ps)
    (hposted : ∀ p ∈ ps, p.effectiveDate ≤ closingDay asOf → Table.Has db.ledger p.credit.key)
    (horder : InDateOrder ps)
    (hsettled : ∀ x ∈ db.catalog.assignmentsCovering companyId none (closingDay asOf),
      db.SettledUpTo x.account (closingDay asOf) ps)
    (h : ∀ a, ((db.closeAccounts companyId (closingDay asOf)
        (db.catalog.assignmentsCovering companyId none
          (closingDay asOf))).postAccruals ps).ledger.balance a none
      = ((db.postAccruals ps).closeAccounts companyId (closingDay asOf)
        (db.catalog.assignmentsCovering companyId none (closingDay asOf))).ledger.balance a none) :
    db.Undisturbed companyId asOf ps := by
  intro x hx
  have hgain := closingGain_postAccruals x (closingDay asOf) hissued
    (fun p hp _ hdue => hposted p hp hdue) (Or.inr (hsettled x hx))
  have hshift := shifted_closeAccounts companyId (closingDay asOf) db hx hissued
  obtain ⟨off, hend, -, hsame⟩ := hshift.gap.postAccruals (fun _ => closingGain_late)
    (fun _ => closingGain_early) horder hapart (hsettled x hx)
  -- the totals agree, so no posting has narrowed the gap
  have hzero : off = 0 := by
    have htotal := h x.account
    rw [hend, Db.balance_closeAccounts, if_pos ⟨x, hx, rfl⟩, hgain] at htotal
    omega
  refine ((hsame rfl hzero).and (hsettled x hx)).mono fun ledger p _ hp ha => ?_
  -- a posting of the old year loses nothing as things are, and with the gap still less
  have hfits : p.effectiveDate ≤ closingDay asOf → Table.Has ledger p.lossKey ∨
      (p.Below (ledger.balance x.account (some p.effectiveDate)) ∧
        p.Below (ledger.balance x.account (some p.effectiveDate)
          + db.closingGain (closingDay asOf) x (some p.effectiveDate))) := by
    intro hdue
    have hforfeits := hp.2 ha hdue
    rw [Posting.forfeits_eq, ha] at hforfeits
    by_cases htaken : Table.Has ledger p.lossKey
    · exact Or.inl htaken
    rw [if_neg htaken] at hforfeits
    have hbelow : ledger.balance x.account (some p.effectiveDate)
        + db.closingGain (closingDay asOf) x (some p.effectiveDate)
        ≤ ledger.balance x.account (some p.effectiveDate) := by
      have hgain := @closingGain_early db x (closingDay asOf) p.effectiveDate hdue
      omega
    have hless := p.excess_le hbelow
    have hnonneg := Posting.excess_nonneg p (ledger.balance x.account (some p.effectiveDate)
      + db.closingGain (closingDay asOf) x (some p.effectiveDate))
    exact Or.inr ⟨Posting.excess_eq_zero_iff.mp hforfeits, Posting.excess_eq_zero_iff.mp (by omega)⟩
  rcases le_or_gt p.effectiveDate (closingDay asOf) with hdue | hlater
  · exact Or.inr (hfits hdue)
  · -- later postings see the whole gap, and none at all if it is zero
    have hgain := @closingGain_late db x (closingDay asOf) p.effectiveDate hlater
    by_cases hnothing : db.closingGain (closingDay asOf) x none = 0
    · exact Or.inl ⟨hnothing, hgain.trans hnothing⟩
    · exact Or.inr ((hp.1 ha).imp_right (Posting.below_of_excess_eq (by rwa [hgain])))

end commute

/-- The scheduled credits of the year that closes are all in the ledger. -/
def OldYearPosted (dir : Directory) (companyId : String) (asOf : Date) (db : Db) : Prop :=
  (scheduledPlan db.catalog dir companyId asOf).Ensures fun ps =>
    ∀ p ∈ ps, p.effectiveDate ≤ closingDay asOf → Table.Has db.ledger p.credit.key

instance (dir : Directory) (companyId : String) (asOf : Date) (db : Db) :
    Decidable (OldYearPosted dir companyId asOf db) :=
  inferInstanceAs (Decidable (Except.Ensures _ _))

/-- The rollover disturbs no posting of the scheduled job. -/
def JobsApart (dir : Directory) (companyId : String) (asOf : Date) (db : Db) : Prop :=
  (scheduledPlan db.catalog dir companyId asOf).Ensures fun ps => db.Undisturbed companyId asOf ps

instance (dir : Directory) (companyId : String) (asOf : Date) (db : Db) :
    Decidable (JobsApart dir companyId asOf db) :=
  inferInstanceAs (Decidable (Except.Ensures _ _))

/-- The scheduled job posts in the order of dates, and takes nothing back in the
year that closes. -/
def InOrderAndSettled (dir : Directory) (companyId : String) (asOf : Date) (db : Db) : Prop :=
  (scheduledPlan db.catalog dir companyId asOf).Ensures fun ps => InDateOrder ps ∧
    ∀ x ∈ db.catalog.assignmentsCovering companyId none (closingDay asOf),
      db.SettledUpTo x.account (closingDay asOf) ps

/-- **The scheduled job and the rollover commute** once the old year is posted,
if the rollover disturbs no posting of the job; and in no other case, where the
job posts in the order of dates and has settled the old year. -/
theorem jobs_commute {dir : Directory} {companyId : String} {asOf : Date} {db : Db}
    (hposted : OldYearPosted dir companyId asOf db) :
    (JobsApart dir companyId asOf db → JobsCommute dir companyId asOf db) ∧
    (InOrderAndSettled dir companyId asOf db → JobsCommute dir companyId asOf db →
      JobsApart dir companyId asOf db) := by
  cases hplan : scheduledPlan db.catalog dir companyId asOf with
  | error e =>
    constructor
    · -- a run without a plan fails in either order
      intro _ closed closedThenRun run runThenClosed _ _ hrun _ a
      cases effect_of_step hrun with
      | runScheduled hqs =>
        rw [hplan] at hqs
        cases hqs
    · intro _ _
      simp only [JobsApart]
      rw [hplan]
      trivial
  | ok ps =>
    have hpostings : (Op.runScheduled companyId asOf).postings dir db.catalog = .ok ps :=
      hplan
    have hissued : ∀ p ∈ ps, p.sourceType.IsAccrual := fun p hp =>
      (issued_of_postings hpostings hp).sourceType
    have hapart := sourcesApart_of_plan hplan
    have hposted' := Except.ensures_iff.mp hposted ps hplan
    rw [jobsCommute_iff hplan]
    constructor
    · intro h
      exact balance_commute hissued hapart hposted' (Except.ensures_iff.mp h ps hplan)
    · intro h hcommute
      obtain ⟨horder, hsettled⟩ := Except.ensures_iff.mp h ps hplan
      refine Except.ensures_iff.mpr fun qs hqs => ?_
      obtain rfl : ps = qs := Except.ok.inj (hplan.symm.trans hqs)
      exact undisturbed_of_commute hissued hapart hposted' horder hsettled hcommute

namespace Demo

/-- Ada accrues two days at the start of every year, up to `maxBalanceMinutes`,
and loses what is left on New Year's Eve. The job has run for all of 2026. -/
def accruedYear (maxBalanceMinutes : Option Int) : List Op :=
  openPolicy
    { effectiveFrom := ofYmd 2026 1 1, kind := .ACCRUAL, maxBalanceMinutes := maxBalanceMinutes
      expiresAtPeriodEnd := true }
    [{ method := .TIME, amount := 2, unit := .DAY, frequency := some .YEARLY
       accruesAt := some .START_OF_PERIOD, id := ruleId }] ++
  [.runScheduled "cmp_warp_demo" (ofYmd 2026 12 31)]

/-- The two jobs of New Year's Day, in both orders. -/
structure NewYearsDay where
  start : Db
  closed : Db
  closedThenRun : Db
  run : Db
  runThenClosed : Db

/-- They are run from the state that the accrued year has left. -/
def newYearsDay (maxBalanceMinutes : Option Int) : Except Error NewYearsDay := do
  let rollover := Op.rollover "cmp_warp_demo" (ofYmd 2027 1 1)
  let scheduled := Op.runScheduled "cmp_warp_demo" (ofYmd 2027 1 1)
  let (_, start) ← Op.runAll directory (accruedYear maxBalanceMinutes) .empty
  let closed ← rollover.run directory start
  let closedThenRun ← scheduled.run directory closed
  let run ← scheduled.run directory start
  let runThenClosed ← rollover.run directory run
  return ⟨start, closed, closedThenRun, run, runThenClosed⟩

/-- All of them go through. -/
theorem newYearsDay_ok {maxBalanceMinutes : Option Int} {r : NewYearsDay}
    (h : newYearsDay maxBalanceMinutes = .ok r) :
    Reachable directory r.start ∧
      Step directory r.start (.rollover "cmp_warp_demo" (ofYmd 2027 1 1)) r.closed ∧
      Step directory r.closed (.runScheduled "cmp_warp_demo" (ofYmd 2027 1 1)) r.closedThenRun ∧
      Step directory r.start (.runScheduled "cmp_warp_demo" (ofYmd 2027 1 1)) r.run ∧
      Step directory r.run (.rollover "cmp_warp_demo" (ofYmd 2027 1 1)) r.runThenClosed := by
  obtain ⟨⟨l, start⟩, hstart, h⟩ := Except.bind_eq_ok.mp h
  obtain ⟨closed, hclosed, h⟩ := Except.bind_eq_ok.mp h
  obtain ⟨closedThenRun, hclosedRun, h⟩ := Except.bind_eq_ok.mp h
  obtain ⟨run, hrun, h⟩ := Except.bind_eq_ok.mp h
  obtain ⟨runThenClosed, hrunClosed, h⟩ := Except.bind_eq_ok.mp h
  cases h
  exact ⟨⟨l, run_of_runAll hstart⟩, hclosed, hclosedRun, hrun, hrunClosed⟩

end Demo

/-- Ada's account is full on New Year's Eve. The January credit is lost to the
cap if the job runs before the rollover has emptied the account. -/
theorem jobs_conflict :
    ¬ ∀ (dir : Directory) (companyId : String) (asOf : Date) (db : Db), Reachable dir db →
      OldYearPosted dir companyId asOf db → JobsCommute dir companyId asOf db := by
  intro hclaim
  have hrun : (Demo.newYearsDay (some 900)).passes (fun r =>
      OldYearPosted Demo.directory "cmp_warp_demo" (ofYmd 2027 1 1) r.start ∧
      r.closedThenRun.ledger.balance Demo.account none
        ≠ r.runThenClosed.ledger.balance Demo.account none) = true := by
    decide +kernel
  obtain ⟨r, hr, htest⟩ := Except.ok_of_passes hrun
  obtain ⟨hposted, hne⟩ := of_decide_eq_true htest
  obtain ⟨hreach, hclosed, hclosedRun, hrun, hrunClosed⟩ := Demo.newYearsDay_ok hr
  exact hne (hclaim _ _ _ _ hreach hposted _ _ _ _ hclosed hclosedRun hrun hrunClosed _)

/-- Under a cap that leaves room for the January credit before the account is
emptied, the order does not matter. -/
theorem jobs_commute_below_cap :
    ∃ r, Demo.newYearsDay (some 2000) = .ok r ∧ Reachable Demo.directory r.start ∧
      r.start.ledger.balance Demo.account none = 960 ∧
      r.closedThenRun.ledger.balance Demo.account none = 960 ∧
      r.runThenClosed.ledger.balance Demo.account none = 960 ∧
      JobsApart Demo.directory "cmp_warp_demo" (ofYmd 2027 1 1) r.start ∧
      JobsCommute Demo.directory "cmp_warp_demo" (ofYmd 2027 1 1) r.start := by
  have hrun : (Demo.newYearsDay (some 2000)).passes (fun r =>
      OldYearPosted Demo.directory "cmp_warp_demo" (ofYmd 2027 1 1) r.start ∧
      JobsApart Demo.directory "cmp_warp_demo" (ofYmd 2027 1 1) r.start ∧
      r.start.ledger.balance Demo.account none = 960 ∧
      r.closedThenRun.ledger.balance Demo.account none = 960) = true := by
    decide +kernel
  obtain ⟨r, hr, htest⟩ := Except.ok_of_passes hrun
  obtain ⟨hposted, hapart, hstart, hafter⟩ := of_decide_eq_true htest
  obtain ⟨hreach, hclosed, hclosedRun, hrun, hrunClosed⟩ := Demo.newYearsDay_ok hr
  have hcommute := (jobs_commute hposted).1 hapart
  have hsame := hcommute _ _ _ _ hclosed hclosedRun hrun hrunClosed Demo.account
  exact ⟨r, hr, hreach, hstart, hafter, hsame.symm.trans hafter, hapart, hcommute⟩

end TimeOff
