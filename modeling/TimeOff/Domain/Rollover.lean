import TimeOff.Domain.Enums
import TimeOff.Lib.Gregorian

/-!
# Year-end carryover and expiration

`plan` closes a positive balance: it expires all of it on the last day of the
year and carries the allowed part into the next. A policy whose minutes expire
carries nothing over, one with a carryover cap carries at most the cap, and one
with neither closes nothing. The two entries differ in date, type and in the
suffix of their source, so that a replay recognises each by itself.
-/

namespace TimeOff

open Gregorian

/-- An entry of a closing, before the account and the source are known. -/
structure RolloverEntry where
  entryType : EntryType
  amountMinutes : Int
  effectiveDate : Date
  sourceSuffix : String
  note : String
deriving DecidableEq, Repr

/-- The minutes carried over when a positive balance is closed; `none` when the
policy closes nothing. -/
def carriedMinutes (balanceMinutes : Int) (carryoverCapMinutes : Option Int)
    (expiresAtPeriodEnd : Bool) : Option Int :=
  if expiresAtPeriodEnd then some 0
  else carryoverCapMinutes.map fun cap => min balanceMinutes cap

/-- The whole balance, taken on the last day of the year. -/
def expirationEntry (balanceMinutes : Int) (periodEnd : Date) : RolloverEntry where
  entryType := .EXPIRATION
  amountMinutes := -balanceMinutes
  effectiveDate := periodEnd
  sourceSuffix := "expiration"
  note := s!"Closed policy year with {balanceMinutes} minutes"

/-- The carried part, given on the first day of the next. -/
def carryoverEntry (carried : Int) (periodEnd : Date) : RolloverEntry where
  entryType := .CARRYOVER
  amountMinutes := carried
  effectiveDate := periodEnd.addDays 1
  sourceSuffix := "carryover"
  note := s!"Carried {carried} minutes into the next policy year"

/-- The entries of a closing: none for a balance that is not positive, or where
nothing is closed; no carryover of zero minutes. -/
def plan (balanceMinutes : Int) (periodEnd : Date) (carryoverCapMinutes : Option Int)
    (expiresAtPeriodEnd : Bool) : List RolloverEntry :=
  if balanceMinutes ≤ 0 then []
  else
    match carriedMinutes balanceMinutes carryoverCapMinutes expiresAtPeriodEnd with
    | none => []
    | some carried =>
      expirationEntry balanceMinutes periodEnd ::
        if carried ≠ 0 then [carryoverEntry carried periodEnd] else []

end TimeOff
