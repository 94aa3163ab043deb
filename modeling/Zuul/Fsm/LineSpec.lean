import Zuul.Lib.Waitlist
import Zuul.Fsm.Commands

/-! The purpose of the lock service as lines of clients: the head of a line holds
the key, the tail waits in order. This is a specification, not a reading of the code. -/
namespace Zuul.Fsm
open Lib

abbrev Lines := Waitlist Str Str

/-- What a command must be answered. The token is prescribed for a repeated grant only. -/
structure Answer where
  outcome : Outcome
  position : Nat := 0
  holder : Str := []
  token : Option Nat := none

/-- What the lines do not record: the token of each hold and which leases are past due. -/
structure Clock where
  token : Str → Nat
  due : Str → Int64 → Prop

namespace Lines
open Classical

noncomputable def acquire (a : Lines) (clock : Clock) (k c : Str) (tryLock : Bool) : Lines × Answer :=
  if c ∉ a.members then (a,{ outcome := .noLease })
  else match a.line k with
    | [] => (a.put k [c],{ outcome := .granted })
    | head :: tail =>
      if head = c then (a,{ outcome := .granted, token := some (clock.token k) })
      else if tryLock then (a,{ outcome := .notAcquired, holder := head })
      else if c ∈ tail then (a,{ outcome := .queued, position := tail.idxOf c + 1 })
      else (a.put k (head :: tail ++ [c]),{ outcome := .queued, position := tail.length + 1 })

/-- The head leaves when it shows its token; a wrong client or token changes nothing. -/
noncomputable def holder (a : Lines) (clock : Clock) (k c : Str) (t : Nat) (next : Lines) (done : Outcome) :
    Lines × Answer :=
  if (a.line k).head? ≠ some c then (a,{ outcome := .notHolder })
  else if clock.token k ≠ t then (a,{ outcome := .staleToken })
  else (next,{ outcome := done })

noncomputable def leave (a : Lines) (c : Str) (done : Outcome) : Lines × Answer :=
  if c ∈ a.members then (a.withdraw c,{ outcome := done }) else (a,{ outcome := .notFound })

noncomputable def step (a : Lines) (clock : Clock) : Command → Lines × Answer
  | .acquireLock k c tryLock => a.acquire clock k c tryLock
  | .campaign k c _ => a.acquire clock k c false
  | .releaseLock k c t => a.holder clock k c t (a.put k (a.line k).tail) .released
  | .resign k c t => a.holder clock k c t (a.put k (a.line k).tail) .released
  | .proclaim k c t _ => a.holder clock k c t a .valueUpdated
  | .cancelWait k c =>
    match a.line k with
    | [] => (a,{ outcome := .noop })
    | head :: tail =>
      if c ∈ tail then (a.put k (head :: tail.erase c),{ outcome := .released }) else (a,{ outcome := .noop })
  | .leaseGrant c _ _ => (a.enrol c,{ outcome := .leaseGranted })
  | .leaseKeepAlive c _ =>
    if c ∈ a.members then (a,{ outcome := .leaseRenewed }) else (a,{ outcome := .notFound })
  | .leaseRevoke c => a.leave c .leaseRevoked
  | .leaseExpire c now =>
    if c ∈ a.members ∧ ¬ clock.due c now then (a,{ outcome := .noop }) else a.leave c .leaseExpired

end Lines

/-- The lines of a shard state: the holder heads its queue, and members have a lease. -/
def FSM.lines (f : FSM) : Lines where
  line := f.line
  members := { c | c ∈ f.leases }

/-- What a shard state records beside its lines. -/
def FSM.clock (f : FSM) : Clock where
  token k := ((f.hold k).map Prod.snd).getD 0
  due c now := ∃ ls, f.leases.lookup c = some ls ∧ ¬ now < ls.expireAt

/-- A result that carries what was prescribed, the position in its uint32 field. -/
structure CommandResult.Carries (r : CommandResult) (a : Answer) : Prop where
  outcome : r.outcome = a.outcome
  position : r.queuePosition = uint32 a.position
  holder : r.currentHolder = a.holder
  token : ∀ t, a.token = some t → r.fencingToken = t

/-- The key and client of the two acquiring commands. -/
def Command.asks : Command → Option (Str × Str)
  | .acquireLock k c _ => some (k,c)
  | .campaign k c _ => some (k,c)
  | _ => none

end Zuul.Fsm
