import Zuul.Fsm.Extensional
import Zuul.Auth.Keypath

/-! The reads of a shard. Each of them walks a map in key order or looks one key up. -/
namespace Zuul.Fsm
open Lib

/-- The answer to a lease query. -/
structure LeaseInfo where
  present : Bool := false
  ttlMillis : Int64 := 0
  expireAtUnixNano : Int64 := 0
  heldKeys : List Str := []
  revision : Nat
  deriving DecidableEq

/-- One row of a lock listing. -/
structure LockSummary where
  name : Str
  held : Bool
  holder : Str
  token : Nat
  hasValue : Bool
  queueDepth : Nat
  deriving DecidableEq, Repr

structure LockSummaries where
  locks : List LockSummary
  revision : Nat
  deriving DecidableEq, Repr

structure WaiterInfo where
  clientID : Str
  seq : Nat
  position : Nat
  deriving DecidableEq, Repr

/-- The holder of a key and the clients behind it. -/
structure Waiters where
  held : Bool := false
  holder : Str := []
  token : Nat := 0
  value : Bytes := none
  entries : List WaiterInfo := []
  revision : Nat
  deriving DecidableEq, Repr

namespace FSM

def leaseInfo (f : FSM) (clientID : Str) : LeaseInfo :=
  match f.leases.lookup clientID with
  | none => { revision := f.revision }
  | some ls =>
    { present := true, ttlMillis := ls.ttlMS, expireAtUnixNano := ls.expireAt
      heldKeys := sortedSet ls.held, revision := f.revision }

/-- The clients whose deadline is at or before now, in ascending order. -/
def dueLeases (f : FSM) (now : Int64) : List Str :=
  f.leases.sortedKeys.filter (fun c => (f.leases.lookup c).any (fun ls => ls.expireAt ≤ now))

/-- The row of a held key under the prefix. -/
def summary (pre name : Str) (lk : Lock) : Option LockSummary :=
  if lk.holder = [] ∨ Auth.Keypath.hasPrefix pre name = false then none
  else some
    { name := name, held := true, holder := lk.holder, token := lk.token
      hasValue := lk.value.isSome, queueDepth := uint32 lk.queue.length }

/-- The held keys under the prefix, in ascending order. -/
def listLocks (f : FSM) (pre : Str) : LockSummaries where
  locks := f.locks.sortedKeys.filterMap (fun name => (f.locks.lookup name).bind (summary pre name))
  revision := f.revision

def waiters (f : FSM) (name : Str) : Waiters :=
  match f.locks.lookup name with
  | none => { revision := f.revision }
  | some lk =>
    if lk.holder = [] then { revision := f.revision }
    else
      { held := true, holder := lk.holder, token := lk.token, value := lk.value
        entries := lk.queue.mapIdx (fun i w => ⟨w.clientID,w.seq,uint32 (i + 1)⟩), revision := f.revision }

end FSM

/-- The five kinds of query; anything else is an error of the caller's. -/
inductive Query where
  | status (name : Str)
  | lease (clientID : Str)
  | dueLeases (now : Int64)
  | listLocks (pre : Str)
  | waiters (name : Str)
  deriving DecidableEq

inductive QueryResult where
  | status (s : Status)
  | lease (l : LeaseInfo)
  | dueLeases (clients : List Str)
  | listLocks (s : LockSummaries)
  | waiters (w : Waiters)
  deriving DecidableEq

def FSM.query (f : FSM) : Query → QueryResult
  | .status name => .status (f.status name)
  | .lease c => .lease (f.leaseInfo c)
  | .dueLeases now => .dueLeases (f.dueLeases now)
  | .listLocks pre => .listLocks (f.listLocks pre)
  | .waiters name => .waiters (f.waiters name)

section Same
variable {f g : FSM}

private theorem leaseInfo_same (h : f.Same g) (c : Str) : f.leaseInfo c = g.leaseInfo c := by
  rcases h.lease_cases c with ⟨hf,hg⟩ | ⟨a,b,hf,hg,hab⟩
  · simp only [FSM.leaseInfo,hf,hg,h.revision]
  · simp only [FSM.leaseInfo,hf,hg,h.revision,hab.ttlMS,hab.expireAt,hab.sortedHeld]

private theorem dueLeases_same (h : f.Same g) (now : Int64) : f.dueLeases now = g.dueLeases now := by
  rw [FSM.dueLeases,FSM.dueLeases,KeyedMap.sortedKeys_congr f.leases g.leases h.mem_leases]
  congr 1
  funext c
  rcases h.lease_cases c with ⟨hf,hg⟩ | ⟨a,b,hf,hg,hab⟩
  · rw [hf,hg]
  · rw [hf,hg,Option.any_some,Option.any_some,hab.expireAt]

private theorem listLocks_same (h : f.Same g) (pre : Str) : f.listLocks pre = g.listLocks pre := by
  rw [FSM.listLocks,FSM.listLocks,KeyedMap.sortedKeys_congr f.locks g.locks h.mem_locks,h.revision]
  simp only [h.locks]

/-- No query tells apart two states that are equal as maps. -/
theorem query_same (h : f.Same g) (q : Query) : f.query q = g.query q := by
  cases q with
  | status name => simp only [FSM.query,FSM.status,h.locks,h.revision]
  | lease c => rw [FSM.query,FSM.query,leaseInfo_same h]
  | dueLeases now => rw [FSM.query,FSM.query,dueLeases_same h]
  | listLocks pre => rw [FSM.query,FSM.query,listLocks_same h]
  | waiters name => simp only [FSM.query,FSM.waiters,h.locks,h.revision]

end Same
end Zuul.Fsm
