import Mathlib.Data.List.Defs

/-! Commands, results and events of one shard's replicated state machine. -/
namespace Zuul.Fsm

/-- A byte string. Go strings are byte strings, compared byte by byte. -/
abbrev Str := List UInt8

/-- The bytes of a literal. -/
def str (s : String) : Str := s.toUTF8.data.toList

/-- A byte slice; nil and the empty slice differ. -/
abbrev Bytes := Option (List UInt8)

/-- One log entry with its oneof set. -/
inductive Command where
  | acquireLock (name clientID : Str) (tryLock : Bool)
  | releaseLock (name clientID : Str) (fencingToken : Nat)
  | cancelWait (name clientID : Str)
  | leaseGrant (clientID : Str) (ttlMS now : Int64)
  | leaseKeepAlive (clientID : Str) (now : Int64)
  | leaseRevoke (clientID : Str)
  | leaseExpire (clientID : Str) (now : Int64)
  | campaign (name clientID : Str) (value : Bytes)
  | proclaim (name clientID : Str) (fencingToken : Nat) (value : Bytes)
  | resign (name clientID : Str) (fencingToken : Nat)
  deriving DecidableEq, Repr

namespace Command

def clientID : Command → Str
  | acquireLock _ c _ | releaseLock _ c _ | cancelWait _ c | leaseGrant c _ _ | leaseKeepAlive c _
  | leaseRevoke c | leaseExpire c _ | campaign _ c _ | proclaim _ c _ _ | resign _ c _ => c

/-- The bytes field of the commands that have one. -/
def value : Command → Bytes
  | campaign _ _ v | proclaim _ _ _ v => v
  | _ => none

/-- What the callers promise: the server rejects an empty client id. -/
def Named (cmd : Command) : Prop := cmd.clientID ≠ []

/-- A decoded bytes field is nil when it was absent, and absent when it was empty. -/
def Decoded (cmd : Command) : Prop := cmd.value ≠ some []

instance (cmd : Command) : Decidable cmd.Named := inferInstanceAs (Decidable (_ ≠ _))
instance (cmd : Command) : Decidable cmd.Decoded := inferInstanceAs (Decidable (_ ≠ _))

end Command

/-- A command pointer as Apply receives it: nil, an unset oneof, or one of the commands. -/
inductive Message where
  | nil
  | unset
  | set (cmd : Command)
  deriving DecidableEq, Repr

inductive Outcome where
  | unknown | granted | queued | notAcquired | released | notHolder | staleToken | noLease
  | leaseGranted | leaseRenewed | leaseRevoked | leaseExpired | valueUpdated | notFound | noop
  deriving DecidableEq, Repr

structure CommandResult where
  outcome : Outcome
  revision : Nat
  fencingToken : Nat := 0
  lockKey : Str := []
  queuePosition : Nat := 0
  currentHolder : Str := []
  leaseDeadline : Int64 := 0
  value : Bytes := none
  deriving DecidableEq, Repr

/-- A change in ownership of a key, as published to the notifier. -/
structure Event where
  key : Str
  holder : Str
  token : Nat
  value : Bytes
  revision : Nat
  deriving DecidableEq, Repr

/-- The conversion of a length to uint32. -/
def uint32 (n : Nat) : Nat := n % UInt32.size

end Zuul.Fsm
