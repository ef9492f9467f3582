import TimeOff.Accrual.Cap
import TimeOff.Accrual.Carryover
import TimeOff.Accrual.CatchUp
import TimeOff.Accrual.Closing
import TimeOff.Accrual.Commute
import TimeOff.Accrual.Credits
import TimeOff.Accrual.Edits
import TimeOff.Accrual.Entries
import TimeOff.Accrual.Floor
import TimeOff.Accrual.JobRuns
import TimeOff.Accrual.OrderFree
import TimeOff.Accrual.Payroll
import TimeOff.Accrual.Recredit
import TimeOff.Accrual.Replay
import TimeOff.Accrual.Sources
import TimeOff.Books.Preview
import TimeOff.Concurrency.Deadlock
import TimeOff.Concurrency.History
import TimeOff.Concurrency.Overlap
import TimeOff.Concurrency.Snapshot
import TimeOff.Concurrency.Spending
import TimeOff.Domain.Calendar
import TimeOff.Domain.Rounding
import TimeOff.Eligibility.Audience
import TimeOff.Eligibility.History
import TimeOff.Eligibility.Listing
import TimeOff.Eligibility.Moves
import TimeOff.Isolation.Answers
import TimeOff.Policies.Editor
import TimeOff.Policies.History
import TimeOff.Policies.Storage
import TimeOff.Requests.Approvable
import TimeOff.Requests.Available
import TimeOff.Requests.ByDate
import TimeOff.Requests.Expansion
import TimeOff.Requests.Holds
import TimeOff.Requests.NetEffect
import TimeOff.Requests.Repeats
