import Zuul.Lib.KeyedMap
import Zuul.Fsm.Message

/-! Locks, waiters, leases and the shard state.
A pointer stored in a map is modelled by the key it is stored under. -/
namespace Zuul.Fsm
open Lib

structure Waiter where
  clientID : Str
  seq : Nat
  value : Bytes
  deriving DecidableEq, Repr

structure Lock where
  name : Str
  holder : Str := []
  token : Nat := 0
  value : Bytes := none
  queue : List Waiter := []
  deriving DecidableEq, Repr

/-- A set of keys is a map to the empty struct. -/
abbrev KeySet := KeyedMap Str Unit

structure Lease where
  clientID : Str
  ttlMS : Int64 := 0
  expireAt : Int64 := 0
  held : KeySet := ∅
  waiting : KeySet := ∅

/-- One shard's state machine. The uint64 counters only count up from zero; the
notifier is kept as whether there is one. -/
structure FSM where
  locks : KeyedMap Str Lock := ∅
  leases : KeyedMap Str Lease := ∅
  seq : Nat := 0
  revision : Nat := 0
  notifier : Bool

def new (notifier : Bool) : FSM := { notifier }

/-- Members of a set in ascending order. -/
def sortedSet (m : KeySet) : List Str := m.sortedKeys

/-- What a command leaves behind: the next state, its answer and the published events. -/
structure Applied where
  fsm : FSM
  result : CommandResult
  events : List Event

namespace FSM

def result (f : FSM) (o : Outcome) : CommandResult := { outcome := o, revision := f.revision }

def resultKey (f : FSM) (o : Outcome) (key : Str) : CommandResult := { f.result o with lockKey := key }

/-- The events one call publishes: none without a notifier. -/
def emit (f : FSM) (key holder : Str) (token : Nat) (value : Bytes) : List Event :=
  if f.notifier then [⟨key,holder,token,value,f.revision⟩] else []

/-- Write back through a lock pointer. -/
def setLock (f : FSM) (ptr : Str) (lk : Lock) : FSM := { f with locks := f.locks.insert ptr lk }

/-- Write back through a lease pointer. -/
def setLease (f : FSM) (ptr : Str) (ls : Lease) : FSM := { f with leases := f.leases.insert ptr ls }

end FSM

/-- Wrapping int64 arithmetic, as the source computes it. -/
def leaseDeadline (now ttlMS : Int64) : Int64 := now + ttlMS * 1000000

end Zuul.Fsm
