import Zuul.Fsm.Apply

/-! The snapshot message, taking one and restoring from one. -/
namespace Zuul.Fsm
open Lib

structure WaiterState where
  clientID : Str
  enqueueSeq : Nat
  value : Bytes
  deriving DecidableEq, Repr

/-- The persisted lock; the owner message is unset when there is no holder. -/
structure LockState where
  name : Str
  holder : Option Str
  token : Nat
  value : Bytes
  queue : List WaiterState
  deriving DecidableEq, Repr

structure LeaseState where
  clientID : Str
  ttlMS : Int64
  expireAt : Int64
  heldKeys : List Str
  deriving DecidableEq

structure Snapshot where
  seq : Nat
  revision : Nat
  locks : List LockState
  leases : List LeaseState
  deriving DecidableEq

/-- A bytes field comes back from the wire: the empty slice is not written at all. -/
def decodeBytes : Bytes → Bytes
  | some [] => none
  | v => v

def WaiterState.mapValue (φ : Bytes → Bytes) (w : WaiterState) : WaiterState := { w with value := φ w.value }

def LockState.mapValue (φ : Bytes → Bytes) (l : LockState) : LockState :=
  { l with value := φ l.value, queue := l.queue.map (·.mapValue φ) }

def Snapshot.mapValue (φ : Bytes → Bytes) (s : Snapshot) : Snapshot :=
  { s with locks := s.locks.map (·.mapValue φ) }

/-- Marshalled by SaveSnapshot and unmarshalled by RecoverFromSnapshot. -/
def Snapshot.wire (s : Snapshot) : Snapshot := s.mapValue decodeBytes

def Waiter.state (w : Waiter) : WaiterState := ⟨w.clientID,w.seq,w.value⟩

def Lock.state (name : Str) (lk : Lock) : LockState where
  name := name
  holder := if lk.holder ≠ [] then some lk.holder else none
  token := lk.token
  value := lk.value
  queue := lk.queue.map Waiter.state

def Lease.state (clientID : Str) (l : Lease) : LeaseState :=
  ⟨clientID,l.ttlMS,l.expireAt,sortedSet l.held⟩

/-- Locks and leases are written in key order. -/
def FSM.snapshot (f : FSM) : Snapshot where
  seq := f.seq
  revision := f.revision
  locks := f.locks.dump Lock.state
  leases := f.leases.dump Lease.state

def WaiterState.waiter (w : WaiterState) : Waiter := ⟨w.clientID,w.enqueueSeq,w.value⟩

def LockState.lock (l : LockState) : Lock where
  name := l.name
  holder := l.holder.getD []
  token := l.token
  value := l.value
  queue := l.queue.map WaiterState.waiter

/-- The held keys of the message are not used: the indexes start empty. -/
def LeaseState.lease (l : LeaseState) : Lease := { clientID := l.clientID, ttlMS := l.ttlMS, expireAt := l.expireAt }

abbrev Leases := KeyedMap Str Lease

def indexHolder (m : Leases) (lk : Lock) : Leases :=
  if lk.holder ≠ [] then
    match m.lookup lk.holder with
    | none => m
    | some l => m.insert lk.holder { l with held := l.held.insert lk.name () }
  else m

def indexWaiter (name : Str) (m : Leases) (w : Waiter) : Leases :=
  match m.lookup w.clientID with
  | none => m
  | some l => m.insert w.clientID { l with waiting := l.waiting.insert name () }

/-- One round of the index loop of Restore, for one lock. -/
def indexLock (m : Leases) (lk : Lock) : Leases := lk.queue.foldl (indexWaiter lk.name) (indexHolder m lk)

/-- Restore replaces all state and publishes nothing. The indexes are rebuilt in
whatever order the new lock map enumerates. -/
def FSM.restore (f : FSM) (snap : Snapshot) : FSM × List Event :=
  let leases := KeyedMap.fill LeaseState.clientID LeaseState.lease snap.leases ∅
  let locks := KeyedMap.fill LockState.name LockState.lock snap.locks ∅
  ({ f with
      seq := snap.seq
      revision := snap.revision
      locks := locks
      leases := (locks.entries.map Sigma.snd).foldl indexLock leases }, [])

end Zuul.Fsm
