import TimeOff.Requests.NetEffect

/-!
# What postings do to balances

A posting looks at the balance up to its own date, and knows nothing of what is
dated later (`Ledger.later`). What it does to the total of its account is
`total_postAccrual`; who gains and who loses by it depends on the later entries.

Two numbers describe a posting on the ledger it meets: what it `credits`, which
is nothing when its source is taken, and what it `forfeits` by its cap, worked
out from the balance and the amount whether or not the credit is new. The
balance up to a day changes by the difference if the posting is dated by then
(`balance_postAccrual`), and every other account stays as it is.
-/

namespace TimeOff

open Gregorian

/-- The minutes of an account that are dated after a day. -/
def Ledger.later (ledger : Ledger) (a : Account) (day : Date) : Int :=
  ledger.balance a none - ledger.balance a (some day)

/-- The minutes a posting takes back because of its cap. -/
def Posting.forfeits (ledger : Ledger) (p : Posting) : Int :=
  if Table.Has ledger p.lossKey then 0
  else (p.maxBalanceMinutes.map fun cap =>
    max (ledger.balance p.account (some p.effectiveDate) + p.amount - cap) 0).getD 0

/-- The minutes a posting credits: none when its source is taken. -/
def Posting.credits (ledger : Ledger) (p : Posting) : Int :=
  if Table.Has ledger p.credit.key then 0 else p.amount

/-- Caps take, they do not give. -/
theorem Posting.forfeits_nonneg (ledger : Ledger) (p : Posting) : 0 ≤ p.forfeits ledger := by
  simp only [forfeits]
  split
  · exact le_refl 0
  · cases p.maxBalanceMinutes with
    | none => exact le_refl 0
    | some cap => exact le_max_right _ _

namespace Db

variable {db : Db} {e : LedgerEntry} {a : Account} {asOf : Option Date} {p : Posting}
  {ps : List Posting}

/-- A new entry counts in the balances it is part of. -/
theorem balance_post :
    (db.post e).ledger.balance a asOf
      = db.ledger.balance a asOf
        + if Table.Has db.ledger e.key then 0 else Ledger.part a asOf e :=
  sum_post

/-- Entries of other accounts do not. -/
theorem balance_post_of_ne (h : e.account ≠ a) :
    (db.post e).ledger.balance a asOf = db.ledger.balance a asOf := by
  rw [balance_post, Ledger.part_of_ne h]
  split <;> exact Int.add_zero _

theorem balance_posts_of_ne {es : List LedgerEntry} (h : ∀ e ∈ es, e.account ≠ a) :
    (db.posts es).ledger.balance a asOf = db.ledger.balance a asOf :=
  sum_posts_eq fun e he => Ledger.part_of_ne (h e he)

/-- A posting adds its credit on its date, and takes its cap loss there. -/
theorem balance_postAccrual (asOf : Option Date) :
    (db.postAccrual p).ledger.balance p.account asOf
      = db.ledger.balance p.account asOf
        + if ∀ day ∈ asOf, p.effectiveDate ≤ day then p.credits db.ledger - p.forfeits db.ledger
          else 0 := by
  have hpart : ∀ e : LedgerEntry, e.account = p.account → e.effectiveDate = p.effectiveDate →
      Ledger.part p.account asOf e
        = if ∀ day ∈ asOf, p.effectiveDate ≤ day then e.amountMinutes else 0 := by
    intro e haccount hdate
    simp only [Ledger.part]
    simp only [haccount, hdate, true_and]
  have hcredit : (db.post p.credit).ledger.balance p.account asOf
      = db.ledger.balance p.account asOf
        + if ∀ day ∈ asOf, p.effectiveDate ≤ day then p.credits db.ledger else 0 := by
    have hamount : Ledger.part p.account asOf p.credit
        = if ∀ day ∈ asOf, p.effectiveDate ≤ day then p.amount else 0 := hpart p.credit rfl rfl
    rw [balance_post, hamount]
    simp only [Posting.credits]
    split <;> simp
  simp only [postAccrual, Posting.forfeits]
  cases hloss : p.loss (db.ledger.balance p.account (some p.effectiveDate)) with
  | none =>
    show (db.post p.credit).ledger.balance p.account asOf = _
    have hfits := Posting.loss_eq_none_iff.mp hloss
    have hzero : (p.maxBalanceMinutes.map fun cap =>
        max (db.ledger.balance p.account (some p.effectiveDate) + p.amount - cap) 0).getD 0
          = 0 := by
      cases hcap : p.maxBalanceMinutes with
      | none => rfl
      | some cap =>
        have hle := hfits cap hcap
        show max (_ + p.amount - cap) 0 = 0
        omega
    rw [hcredit, hzero, ite_self, Int.sub_zero]
  | some e =>
    obtain ⟨cap, hcap, hlt, rfl⟩ := Posting.loss_eq_some hloss
    have hcap : p.maxBalanceMinutes = some cap := hcap
    have hamount : Ledger.part p.account asOf (p.forfeiture cap
        (db.ledger.balance p.account (some p.effectiveDate) + p.amount - cap))
        = if ∀ day ∈ asOf, p.effectiveDate ≤ day
          then -(db.ledger.balance p.account (some p.effectiveDate) + p.amount - cap) else 0 :=
      hpart (p.forfeiture cap _) rfl rfl
    show ((db.post p.credit).post (p.forfeiture cap _)).ledger.balance p.account asOf = _
    rw [balance_post, hcredit, hamount, hcap]
    -- the credit does not take the source of the loss
    have hhas : Table.Has (db.post p.credit).ledger (p.forfeiture cap
        (db.ledger.balance p.account (some p.effectiveDate) + p.amount - cap)).key ↔
        Table.Has db.ledger p.lossKey := by
      rw [post_ledger, Table.has_insertNew]
      exact or_iff_left p.lossKey_ne
    simp only [hhas]
    rw [Option.map_some, Option.getD_some]
    by_cases hday : ∀ day ∈ asOf, p.effectiveDate ≤ day
    · simp only [if_pos hday]
      split <;> omega
    · simp only [if_neg hday, ite_self, Int.add_zero]

/-- What a posting does to the total of its account. -/
theorem total_postAccrual :
    (db.postAccrual p).ledger.balance p.account none
      = db.ledger.balance p.account none + p.credits db.ledger - p.forfeits db.ledger := by
  rw [balance_postAccrual, if_pos fun day hday => absurd hday (Option.not_mem_none day)]
  omega

/-- Nor do postings to them. -/
theorem balance_postAccrual_of_ne (h : p.account ≠ a) :
    (db.postAccrual p).ledger.balance a asOf = db.ledger.balance a asOf := by
  rw [postAccrual_eq_posts]
  refine balance_posts_of_ne fun e he => ?_
  rw [(p.posts_of_mem he).account]
  exact h

/-! ## Requests -/

section requests

variable {r : TimeOffRequest} {v : PolicyVersion} {u : RequestUpdate} {approve : Bool}

/-- An approval under a version with balances takes the cost of the request. -/
theorem balance_afterDecide (hlegs : LegsPosted db) (hwf : RequestsWellFormed db)
    (hr : r ∈ db.requests.rows) (hpending : r.status = .PENDING) :
    (db.afterDecide r approve v.kind u).ledger.balance a none
      = db.ledger.balance a none
        - if (approve = true ∧ v.kind ≠ .UNLIMITED) ∧ r.account = a then r.totalMinutes else 0 := by
  refine (sum_afterDecide (w := Ledger.part a none) hlegs hr hpending).trans ?_
  by_cases ha : r.account = a
  · have hsum : (r.debits.map (Ledger.part a none)).sum = -r.totalMinutes :=
      r.sum_debits (fun leg => Ledger.part_self ha) (hwf r hr).total_eq
    rw [hsum]
    simp only [ha, and_true]
    split
    · exact (Int.sub_eq_add_neg).symm
    · exact (Int.add_zero _).trans (Int.sub_zero _).symm
  · have hsum : (r.debits.map (Ledger.part a none)).sum = 0 := by
      refine List.sum_eq_zero fun x hx => ?_
      obtain ⟨e, he, rfl⟩ := List.mem_map.mp hx
      obtain ⟨leg, -, rfl⟩ := List.mem_map.mp he
      exact Ledger.part_of_ne ha
    rw [hsum, ite_self, Int.add_zero, if_neg fun h => ha h.2, Int.sub_zero]
    rfl

/-- A cancellation gives it back, if the request was approved. -/
theorem balance_afterCancel (hlegs : LegsPosted db) (hwf : RequestsWellFormed db)
    (hr : r ∈ db.requests.rows) (hlive : r.status.LIVE = true) :
    (db.afterCancel r u).ledger.balance a none
      = db.ledger.balance a none
        + if r.status = .APPROVED ∧ r.account = a then r.totalMinutes else 0 := by
  refine (sum_afterCancel (w := Ledger.part a none) hlegs hr hlive).trans ?_
  by_cases ha : r.account = a
  · have hsum : (r.reversals.map (Ledger.part a none)).sum = r.totalMinutes :=
      r.sum_reversals (fun leg => Ledger.part_self ha) (hwf r hr).total_eq
    rw [hsum]
    simp only [ha, and_true]
    rfl
  · have hsum : (r.reversals.map (Ledger.part a none)).sum = 0 := by
      refine List.sum_eq_zero fun x hx => ?_
      obtain ⟨e, he, rfl⟩ := List.mem_map.mp hx
      obtain ⟨leg, -, rfl⟩ := List.mem_map.mp he
      exact Ledger.part_of_ne ha
    rw [hsum, ite_self, Int.add_zero, if_neg fun h => ha h.2, Int.add_zero]
    rfl

end requests

end Db

end TimeOff
