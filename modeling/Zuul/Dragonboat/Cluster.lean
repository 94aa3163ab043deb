import Zuul.Dragonboat.Raft
import Zuul.Lib.Runs

/-! The nodes of one raft group over a network that loses, repeats and reorders messages. -/
namespace Zuul.Dragonboat
open Lib

/-- All nodes, and all messages ever sent. -/
structure Sys where
  nodes : Nat → Raft
  net : List Message := []

/-- One step. Entries are processed when they are given to the state machine, applied when
it is done with them; a snapshot is of what was applied. -/
inductive Act where
  | deliver (k : Nat)
  | tick (i : Nat)
  | propose (i : Nat) (entries : List Entry)
  | read (i : Nat) (ctx : SystemCtx)
  | transfer (i target : Nat)
  | unreachable (i j : Nat)
  | snapshotStatus (i j ticks : Nat) (reject : Bool)
  | applyConfigChange (i j : Nat)
  | rejectConfigChange (i : Nat)
  | restoreRemotes (i : Nat)
  | process (i n : Nat)
  | applied (i n : Nat)
  | createSnapshot (i n : Nat)
  | compact (i n : Nat)

namespace Sys
variable (members : List Nat) (s : Sys)

/-- One node makes a move, and what it sends is on its way. -/
def run (i : Nat) (f : Raft → Option Raft) : Option Sys :=
  (f (s.nodes i)).map (fun r =>
    { nodes := Function.update s.nodes i r.commitUpdate
      net := s.net ++ r.msgs })

/-- When a step is possible. The members stay those the group was started with. -/
def enabled : Act → Prop
  | .deliver k => ∃ m ∈ s.net[k]?, m.dest ∈ members
  | .tick i => i ∈ members
  | .propose i entries => i ∈ members ∧ ∀ e ∈ entries, e.type ≠ .configChange
  | .read i _ => i ∈ members
  | .transfer i target => i ∈ members ∧ target ≠ noNode
  | .unreachable i _ => i ∈ members
  | .snapshotStatus i _ _ _ => i ∈ members
  | .applyConfigChange i j => i ∈ members ∧ j ∈ members
  | .rejectConfigChange i => i ∈ members
  | .restoreRemotes i => i ∈ members
  | .process i n => i ∈ members ∧ (s.nodes i).log.processed ≤ n ∧ n ≤ (s.nodes i).log.committed
  | .applied i n => i ∈ members ∧ (s.nodes i).applied ≤ n ∧ n ≤ (s.nodes i).log.processed
  | .createSnapshot i n => i ∈ members ∧ (s.nodes i).log.snapshot.index < n ∧ n ≤ (s.nodes i).applied ∧
      (s.nodes i).log.markerIndex ≤ n
  | .compact i n => i ∈ members ∧ (s.nodes i).log.markerIndex ≤ n ∧ n ≤ (s.nodes i).log.snapshot.index

instance : (a : Act) → Decidable (s.enabled members a)
  | .deliver k => inferInstanceAs (Decidable (∃ m ∈ s.net[k]?, m.dest ∈ members))
  | .tick i | .read i _ | .unreachable i _ | .snapshotStatus i _ _ _ | .rejectConfigChange i | .restoreRemotes i =>
    inferInstanceAs (Decidable (i ∈ members))
  | .propose i entries => inferInstanceAs (Decidable (i ∈ members ∧ ∀ e ∈ entries, e.type ≠ .configChange))
  | .transfer i target => inferInstanceAs (Decidable (i ∈ members ∧ target ≠ noNode))
  | .applyConfigChange i j => inferInstanceAs (Decidable (i ∈ members ∧ j ∈ members))
  | .process i n => inferInstanceAs (Decidable (i ∈ members ∧ (s.nodes i).log.processed ≤ n ∧ n ≤ (s.nodes i).log.committed))
  | .applied i n => inferInstanceAs (Decidable (i ∈ members ∧ (s.nodes i).applied ≤ n ∧ n ≤ (s.nodes i).log.processed))
  | .createSnapshot i n => inferInstanceAs (Decidable (i ∈ members ∧ (s.nodes i).log.snapshot.index < n ∧
      n ≤ (s.nodes i).applied ∧ (s.nodes i).log.markerIndex ≤ n))
  | .compact i n =>
    inferInstanceAs (Decidable (i ∈ members ∧ (s.nodes i).log.markerIndex ≤ n ∧ n ≤ (s.nodes i).log.snapshot.index))

/-- None is a node's panic. -/
def step : Act → Option Sys
  | .deliver k => (s.net[k]?).bind (fun m => s.run m.dest (fun r => r.peerHandle m))
  | .tick i => s.run i (fun r => r.handle { type := .localTick })
  | .propose i entries => s.run i (fun r => r.handle { type := .propose, sender := i, entries })
  | .read i ctx => s.run i (fun r => r.handle { type := .readIndex, hint := ctx.low, hintHigh := ctx.high })
  | .transfer i target => s.run i (fun r => r.handle { type := .leaderTransfer, dest := i, hint := target })
  | .unreachable i j => s.run i (fun r => r.handle { type := .unreachable, sender := j })
  | .snapshotStatus i j ticks reject =>
    s.run i (fun r => r.handle { type := .snapshotStatus, sender := j, hint := ticks, reject })
  | .applyConfigChange i j => s.run i (fun r => r.handle { type := .configChangeEvent, hint := j })
  | .rejectConfigChange i => s.run i (fun r => r.handle { type := .configChangeEvent, reject := true })
  | .restoreRemotes i => s.run i (fun r => some (r.restoreRemotes members))
  | .process i n => s.run i (fun r => some { r with log := { r.log with processed := n } })
  | .applied i n => s.run i (fun r => some { r with applied := n })
  | .createSnapshot i n => s.run i (fun r => some { r with log := { r.log with snapshot := ⟨n,r.log.term n⟩ } })
  | .compact i n => s.run i (fun r => some { r with log := r.log.compact n })

end Sys

/-- A new group: every node is launched with the same addresses. -/
def initial (rand : Nat → Nat → Nat) (addresses : List Raft.PeerAddress) : Sys where
  nodes i := (Raft.launch i (rand i) addresses).getD { nodeID := i }

end Zuul.Dragonboat
