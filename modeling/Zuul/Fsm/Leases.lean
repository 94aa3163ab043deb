import Zuul.Fsm.Locks

/-! The lease commands and the release of everything a dropped lease held. -/
namespace Zuul.Fsm.FSM
open Lib

def leaseGrant (f : FSM) (clientID : Str) (ttlMS now : Int64) : Applied :=
  let ls := (f.leases.lookup clientID).getD { clientID := clientID }
  let ls := { ls with ttlMS := ttlMS, expireAt := leaseDeadline now ttlMS }
  let f := f.setLease clientID ls
  ⟨f, { f.result .leaseGranted with leaseDeadline := ls.expireAt }, []⟩

def leaseKeepAlive (f : FSM) (clientID : Str) (now : Int64) : Applied :=
  match f.leases.lookup clientID with
  | none => ⟨f, f.result .notFound, []⟩
  | some ls =>
    let ls := { ls with expireAt := leaseDeadline now ls.ttlMS }
    let f := f.setLease clientID ls
    ⟨f, { f.result .leaseRenewed with leaseDeadline := ls.expireAt }, []⟩

/-- One round of the held loop: promote on a key the dropped client holds. -/
def dropHeld (clientID : Str) (out : FSM × List Event) (name : Str) : FSM × List Event :=
  match out.1.locks.lookup name with
  | none => out
  | some lk =>
    if lk.holder ≠ clientID then out
    else
      let next := out.1.promote name lk
      (next.1, out.2 ++ next.2)

/-- One round of the waiting loop: cut the dropped client out of a queue. -/
def dropWaiting (clientID : Str) (f : FSM) (name : Str) : FSM :=
  match f.locks.lookup name with
  | none => f
  | some lk => f.setLock name (lk.dequeue clientID)

/-- Both indexes are walked in sorted order. The waiting index is read through
the lease pointer after the held loop. -/
def dropLease (f : FSM) (ptr : Str) (ls : Lease) : FSM × List Event :=
  let out := (sortedSet ls.held).foldl (dropHeld ls.clientID) (f, [])
  let ls := (out.1.leases.lookup ptr).getD ls
  let f := (sortedSet ls.waiting).foldl (dropWaiting ls.clientID) out.1
  ({ f with leases := f.leases.erase ls.clientID }, out.2)

def leaseRevoke (f : FSM) (clientID : Str) : Applied :=
  match f.leases.lookup clientID with
  | none => ⟨f, f.result .notFound, []⟩
  | some ls =>
    let out := f.dropLease clientID ls
    ⟨out.1, out.1.result .leaseRevoked, out.2⟩

/-- The deadline is checked again when the expiry is applied. -/
def leaseExpire (f : FSM) (clientID : Str) (now : Int64) : Applied :=
  match f.leases.lookup clientID with
  | none => ⟨f, f.result .notFound, []⟩
  | some ls =>
    if now < ls.expireAt then ⟨f, f.result .noop, []⟩
    else
      let out := f.dropLease clientID ls
      ⟨out.1, out.1.result .leaseExpired, out.2⟩

end Zuul.Fsm.FSM
