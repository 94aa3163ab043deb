import Zuul.Fsm.State

/-! The lock commands: acquire, release, cancel a wait and proclaim.
Lock and Campaign share acquire; Unlock and Resign share release. -/
namespace Zuul.Fsm
open Lib

/-- The 1-based position of the client in the queue, or 0. -/
def queuePos (lk : Lock) (clientID : Str) : Nat :=
  match lk.queue.findIdx? (fun w => w.clientID == clientID) with
  | some i => uint32 (i + 1)
  | none => 0

/-- Cut the client's first entry out of the queue. -/
def Lock.dequeue (lk : Lock) (clientID : Str) : Lock :=
  { lk with queue := lk.queue.eraseP (fun w => w.clientID == clientID) }

namespace FSM

/-- Give a free key to the lease owner with a fresh token. -/
def grant (f : FSM) (name ptr : Str) (ls : Lease) (value : Bytes) : Applied :=
  let lk := (f.locks.lookup name).getD { name := name }
  let f := { f with seq := f.seq + 1 }
  let lk := { lk with holder := ls.clientID, token := f.seq, value := value }
  let ls := { ls with held := ls.held.insert name (), waiting := ls.waiting.erase name }
  let f := (f.setLock name lk).setLease ptr ls
  { fsm := f
    result := { f.resultKey .granted name with fencingToken := lk.token, value := lk.value }
    events := f.emit name lk.holder lk.token lk.value }

/-- Append the client to the queue of a held key. -/
def enqueue (f : FSM) (name clientID : Str) (lk : Lock) (ls : Lease) (value : Bytes) : Applied :=
  let f := { f with seq := f.seq + 1 }
  let lk := { lk with queue := lk.queue ++ [⟨clientID,f.seq,value⟩] }
  let ls := { ls with waiting := ls.waiting.insert name () }
  let f := (f.setLock name lk).setLease clientID ls
  ⟨f, { f.resultKey .queued name with queuePosition := uint32 lk.queue.length }, []⟩

def acquire (f : FSM) (name clientID : Str) (value : Bytes) (tryLock : Bool) : Applied :=
  match f.leases.lookup clientID with
  | none => ⟨f, f.resultKey .noLease name, []⟩
  | some ls =>
    match f.locks.lookup name with
    | none => f.grant name clientID ls value
    | some lk =>
      if lk.holder = [] then f.grant name clientID ls value
      else if lk.holder = clientID then
        ⟨f, { f.resultKey .granted name with fencingToken := lk.token, value := lk.value }, []⟩
      else if tryLock then
        ⟨f, { f.resultKey .notAcquired name with currentHolder := lk.holder }, []⟩
      else if name ∈ ls.waiting then
        ⟨f, { f.resultKey .queued name with queuePosition := queuePos lk clientID }, []⟩
      else f.enqueue name clientID lk ls value

/-- The loop of promote over the remaining queue. A waiter without a lease is
skipped; an exhausted queue removes the key. -/
def promoteFrom (ptr : Str) (lk : Lock) : List Waiter → FSM → FSM × List Event
  | [], f =>
    let f := { f with locks := f.locks.erase lk.name }
    (f, f.emit lk.name [] 0 none)
  | w :: queue, f =>
    match f.leases.lookup w.clientID with
    | none => promoteFrom ptr lk queue f
    | some ls =>
      let f := { f with seq := f.seq + 1 }
      let lk := { lk with holder := w.clientID, token := f.seq, value := w.value, queue := queue }
      let ls := { ls with waiting := ls.waiting.erase lk.name, held := ls.held.insert lk.name () }
      let f := (f.setLock ptr lk).setLease w.clientID ls
      (f, f.emit lk.name lk.holder lk.token lk.value)

/-- Hand a released key to the next waiter, or remove it. -/
def promote (f : FSM) (ptr : Str) (lk : Lock) : FSM × List Event := promoteFrom ptr lk lk.queue f

/-- Drop a key from the client's held index, if the client has a lease. -/
def unhold (f : FSM) (clientID name : Str) : FSM :=
  match f.leases.lookup clientID with
  | none => f
  | some ls => f.setLease clientID { ls with held := ls.held.erase name }

/-- Drop a key from the client's waiting index, if the client has a lease. -/
def unwait (f : FSM) (clientID name : Str) : FSM :=
  match f.leases.lookup clientID with
  | none => f
  | some ls => f.setLease clientID { ls with waiting := ls.waiting.erase name }

def release (f : FSM) (name clientID : Str) (token : Nat) : Applied :=
  match f.locks.lookup name with
  | none => ⟨f, f.resultKey .notHolder name, []⟩
  | some lk =>
    if lk.holder = [] ∨ lk.holder ≠ clientID then ⟨f, f.resultKey .notHolder name, []⟩
    else if lk.token ≠ token then ⟨f, f.resultKey .staleToken name, []⟩
    else
      let out := (f.unhold clientID name).promote name lk
      ⟨out.1, out.1.resultKey .released name, out.2⟩

def cancelWait (f : FSM) (name clientID : Str) : Applied :=
  match f.locks.lookup name with
  | none => ⟨f, f.resultKey .noop name, []⟩
  | some lk =>
    if lk.queue.any (fun w => w.clientID == clientID) then
      let f := (f.setLock name (lk.dequeue clientID)).unwait clientID name
      ⟨f, f.resultKey .released name, []⟩
    else ⟨f, f.resultKey .noop name, []⟩

def proclaim (f : FSM) (name clientID : Str) (token : Nat) (value : Bytes) : Applied :=
  match f.locks.lookup name with
  | none => ⟨f, f.resultKey .notHolder name, []⟩
  | some lk =>
    if lk.holder = [] ∨ lk.holder ≠ clientID then ⟨f, f.resultKey .notHolder name, []⟩
    else if lk.token ≠ token then ⟨f, f.resultKey .staleToken name, []⟩
    else
      let lk := { lk with value := value }
      let f := f.setLock name lk
      { fsm := f
        result := { f.resultKey .valueUpdated name with fencingToken := lk.token, value := value }
        events := f.emit name lk.holder lk.token lk.value }

end FSM
end Zuul.Fsm
