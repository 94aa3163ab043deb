import Zuul.Lib.KeyedMap

/-! What a leader keeps of the other nodes: how far their logs are known to go, and who has
confirmed it for the reads that wait. None is where the code panics. -/
namespace Zuul.Dragonboat
open Lib

inductive RemoteState where
  | retry
  | wait
  | replicate
  | snapshot
  deriving DecidableEq, Repr

structure SnapshotAck where
  ctick : Nat := 0
  rejected : Bool := false
  deriving DecidableEq, Repr

/-- Count down, and whether this was the last tick. -/
def SnapshotAck.tick (a : SnapshotAck) : SnapshotAck × Bool :=
  if 0 < a.ctick then ({ a with ctick := a.ctick - 1 },a.ctick - 1 == 0) else (a,false)

/-- The field match of the code is matched here. -/
structure Remote where
  matched : Nat := 0
  next : Nat
  snapshotIndex : Nat := 0
  state : RemoteState := .retry
  active : Bool := false
  delayed : SnapshotAck := {}
  deriving DecidableEq, Repr

namespace Remote
variable (r : Remote)

def clearSnapshotAck : Remote := { r with delayed := {} }

def setSnapshotAck (tick : Nat) (rejected : Bool) : Option Remote :=
  if r.state = .snapshot then some { r with delayed := ⟨tick,rejected⟩ } else none

def becomeRetry : Remote :=
  { r with
    next := if r.state = .snapshot then max (r.matched + 1) (r.snapshotIndex + 1) else r.matched + 1
    snapshotIndex := 0
    state := .retry }

def retryToWait : Remote := if r.state = .retry then { r with state := .wait } else r

def waitToRetry : Remote := if r.state = .wait then { r with state := .retry } else r

def becomeWait : Remote := r.clearSnapshotAck.becomeRetry.retryToWait

def becomeReplicate : Remote := { r with next := r.matched + 1, snapshotIndex := 0, state := .replicate }

def becomeSnapshot (index : Nat) : Remote := { r with snapshotIndex := index, state := .snapshot }

def clearPendingSnapshot : Remote := { r with snapshotIndex := 0 }

def tryUpdate (index : Nat) : Remote × Bool :=
  let r := if r.next < index + 1 then { r with next := index + 1 } else r
  if r.matched < index then ({ r.waitToRetry with matched := index },true) else (r,false)

def progress (lastIndex : Nat) : Option Remote :=
  match r.state with
  | .replicate => some { r with next := lastIndex + 1 }
  | .retry => some r.retryToWait
  | _ => none

def respondedTo : Remote :=
  match r.state with
  | .retry => r.becomeReplicate
  | .snapshot => if r.snapshotIndex ≤ r.matched then r.becomeRetry else r
  | _ => r

def decreaseTo (rejected last : Nat) : Remote × Bool :=
  if r.state = .replicate then
    if rejected ≤ r.matched then (r,false) else ({ r with next := r.matched + 1 },true)
  else if r.next - 1 ≠ rejected then (r,false)
  else ({ r.waitToRetry with next := max 1 (min rejected (last + 1)) },true)

def isPaused : Bool :=
  match r.state with
  | .retry => false
  | .wait => true
  | .replicate => false
  | .snapshot => true

/-- What a report about a snapshot does to a node that was sent one. -/
def snapshotDone (reject : Bool) : Remote := (if reject then r.clearPendingSnapshot else r).becomeWait

/-- One tick for a node that was sent a snapshot, and whether its report is still out. -/
def checkAck : Remote × Bool :=
  if r.state = .snapshot then
    let (ack,fired) := r.delayed.tick
    let r := { r with delayed := ack }
    if fired then ((r.snapshotDone ack.rejected).clearSnapshotAck,false) else (r,true)
  else (r,false)

end Remote

structure SystemCtx where
  low : Nat := 0
  high : Nat := 0
  deriving DecidableEq, Repr

structure ReadStatus where
  index : Nat
  sender : Nat
  ctx : SystemCtx
  confirmed : KeyedMap Nat Unit := ∅

/-- The reads for which the leadership has not been confirmed yet, oldest first. -/
structure ReadIndex where
  pending : KeyedMap SystemCtx ReadStatus := ∅
  queue : List SystemCtx := []

namespace ReadIndex
variable (r : ReadIndex)

def addRequest (index : Nat) (ctx : SystemCtx) (sender : Nat) : Option ReadIndex :=
  let added : ReadIndex := ⟨r.pending.insert ctx { index, sender, ctx },r.queue ++ [ctx]⟩
  if ctx ∈ r.pending then some r
  else match r.queue.getLast? with
    | none => some added
    | some peep => (r.pending.lookup peep).bind (fun p => if index < p.index then none else some added)

/-- The requests up to ctx are done, with the index of the one for ctx. -/
def release (ctx : SystemCtx) : List ReadStatus → List SystemCtx → Option (ReadIndex × List ReadStatus)
  | _, [] => some (r,[])
  | cs, pctx :: rest =>
    match r.pending.lookup pctx with
    | none => none
    | some s =>
      let cs := cs ++ [s]
      if pctx = ctx then
        let pending := cs.foldl (fun m v => m.erase v.ctx) r.pending
        if cs.any (fun v => decide (s.index < v.index)) ∨ rest.length ≠ pending.keys.length then none
        else some (⟨pending,rest⟩,cs.map (fun v => { v with index := s.index }))
      else release ctx cs rest

def confirm (ctx : SystemCtx) (sender quorum : Nat) : Option (ReadIndex × List ReadStatus) :=
  match r.pending.lookup ctx with
  | none => some (r,[])
  | some p =>
    let p := { p with confirmed := p.confirmed.insert sender () }
    let r := { r with pending := r.pending.insert ctx p }
    if p.confirmed.keys.length + 1 < quorum then some (r,[]) else r.release ctx [] r.queue

end ReadIndex
end Zuul.Dragonboat
