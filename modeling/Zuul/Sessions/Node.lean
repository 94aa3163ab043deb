import Zuul.Lib.Runs
import Zuul.Fsm.Places
import Zuul.Sessions.Manager

/-! The manager of one node with the calls made for one client, and the shards
they propose to. Any number of calls is in progress at a time. -/
namespace Zuul.Sessions
open Lib Fsm

structure Node where
  manager : Manager := {}
  shards : Nat → FSM := fun _ => new true
  calls : List Call := []

inductive NodeAction where
  /-- A call is made. -/
  | make (call : Call)
  /-- One of the calls takes a step. -/
  | move (n : Nat) (ch : Choice)
  /-- Anyone else gets a command committed. -/
  | commit (shardID : Nat) (cmd : Command)

namespace Node

/-- The shards after a command was committed, if one was. -/
def after (s : Node) : Option (Nat × Command) → Nat → FSM
  | none => s.shards
  | some (shardID,cmd) => Function.update s.shards shardID ((s.shards shardID).step cmd).fsm

def next (client : Str) (s : Node) : NodeAction → Option Node
  | .make call => if call.starts then some { s with calls := s.calls ++ [call] } else none
  | .move n ch => s.calls[n]?.bind (fun call =>
      (call.step client s.manager s.shards ch).map (fun r =>
        { manager := r.manager, shards := s.after r.commit, calls := s.calls.set n r.call }))
  | .commit shardID cmd => some { s with shards := s.after (some (shardID,cmd)) }

/-- The command that the action gets committed. -/
def committed (client : Str) (s : Node) : NodeAction → Option (Nat × Command)
  | .make _ => none
  | .move n ch => s.calls[n]?.bind (fun call => (call.step client s.manager s.shards ch).bind Moved.commit)
  | .commit shardID cmd => some (shardID,cmd)

/-- No call is in progress. -/
def idle (s : Node) : Bool := s.calls.all Call.finished

end Node

/-- Commands of others name their client. -/
def NodeEnv (_ : Node) : NodeAction → Prop
  | .commit _ cmd => cmd.Named
  | _ => True

instance (s : Node) (a : NodeAction) : Decidable (NodeEnv s a) :=
  match a with
  | .commit _ cmd => inferInstanceAs (Decidable cmd.Named)
  | .make _ | .move _ _ => .isTrue trivial

section Steps
variable {c : Str} {s s' : Node} {a : NodeAction} {n k : Nat} {ch : Choice} {cmd : Command}

/-- A committed command moves its shard only. -/
theorem after_shards (s : Node) (k j : Nat) (cmd : Command) :
    s.after (some (k,cmd)) j = if j = k then ((s.shards k).step cmd).fsm else s.shards j := Function.update_apply ..

/-- A new call is put behind the others. -/
theorem make_inversion {call : Call} (h : s.next c (.make call) = some s') :
    call.starts = true ∧ s' = { s with calls := s.calls ++ [call] } := by
  rw [Node.next] at h
  split at h
  · cases h
    exact ⟨‹_›,rfl⟩
  · cases h

/-- A move is a step of one call, with its manager, its commit and itself moved on. -/
theorem move_inversion (h : s.next c (.move n ch) = some s') : ∃ call r, s.calls[n]? = some call ∧
    CallStep c s.manager s.shards ch call r ∧ s.committed c (.move n ch) = r.commit ∧
    s' = { manager := r.manager, shards := s.after r.commit, calls := s.calls.set n r.call } := by
  obtain ⟨call,hc,h⟩ := Option.bind_eq_some_iff.mp h
  obtain ⟨r,hr,rfl⟩ := Option.map_eq_some_iff.mp h
  refine ⟨call,r,hc,step_call hr,?_,rfl⟩
  rw [Node.committed,hc,Option.bind_some,hr,Option.bind_some]

/-- The shards only move by the committed command. -/
theorem next_shards (h : s.next c a = some s') : s'.shards = s.after (s.committed c a) := by
  cases a with
  | make call =>
    obtain ⟨_,rfl⟩ := make_inversion h
    rfl
  | move n ch =>
    obtain ⟨call,r,_,_,hr,rfl⟩ := move_inversion h
    rw [hr]
  | commit k cmd =>
    cases h
    rfl

/-- Calls speak for their own client, and the others for named ones. -/
theorem committed_named (hc : c ≠ []) (ha : NodeEnv s a) (h : s.next c a = some s')
    (hr : s.committed c a = some (k,cmd)) : cmd.Named := by
  cases a with
  | make call => cases hr
  | move n ch =>
    obtain ⟨call,r,_,hs,hcom,_⟩ := move_inversion h
    rw [Command.Named,hs.client (hcom ▸ hr)]
    exact hc
  | commit k' cmd' =>
    cases hr
    exact ha

/-- Each shard stays as it is or takes the step of a named client's command. -/
theorem next_shard (hc : c ≠ []) (ha : NodeEnv s a) (h : s.next c a = some s') (j : Nat) :
    (s'.shards j = s.shards j ∧ ∀ cmd, s.committed c a ≠ some (j,cmd)) ∨
    ∃ cmd, cmd.Named ∧ s.committed c a = some (j,cmd) ∧ s'.shards j = ((s.shards j).step cmd).fsm := by
  rw [next_shards h]
  cases hr : s.committed c a with
  | none => exact .inl ⟨rfl,fun _ hx => by cases hx⟩
  | some kc =>
    obtain ⟨k,cmd⟩ := kc
    rw [after_shards]
    by_cases hj : j = k
    · subst hj
      exact .inr ⟨cmd,committed_named hc ha h hr,rfl,if_pos rfl⟩
    · refine .inl ⟨if_neg hj,fun cmd' hx => ?_⟩
      cases hx
      exact hj rfl

/-- Every step keeps the shards well formed. -/
theorem next_inv (hc : c ≠ []) (hi : ∀ k, Inv (s.shards k)) (ha : NodeEnv s a) (h : s.next c a = some s') (k : Nat) :
    Inv (s'.shards k) := by
  rcases next_shard hc ha h k with ⟨he,_⟩ | ⟨cmd,hn,_,he⟩
  · rw [he]
    exact hi k
  · rw [he]
    exact step_inv (hi k) hn

end Steps

section Store
variable {m : Manager} {p q k : Nat}

/-- A write through a dangling pointer has no effect. -/
theorem deref_store (m : Manager) (p q : Nat) (x : Session) :
    (m.store p x).deref q = if q = p ∧ p < m.heap.length then x else m.deref q := by
  rw [Manager.deref,Manager.store,List.getD_eq_getElem?_getD,List.getElem?_set,Manager.deref,
    List.getD_eq_getElem?_getD]
  by_cases hq : q = p
  · subst hq
    by_cases hl : q < m.heap.length
    · simp [hl]
    · simp [hl]
  · simp [hq,Ne.symm hq]

/-- A pointer to nothing reads as an empty session. -/
theorem deref_dangling (h : ¬ p < m.heap.length) : m.deref p = {} := by
  rw [Manager.deref,List.getD_eq_getElem?_getD,List.getElem?_eq_none (Nat.not_lt.mp h)]
  rfl

/-- The shard is deleted from the session it is deleted from. -/
theorem deref_deleteShard (m : Manager) (p k : Nat) :
    (m.deleteShard p k).deref p = { m.deref p with shards := (m.deref p).shards.erase k } := by
  rw [Manager.deleteShard,deref_store]
  split
  · rfl
  · rename_i h
    rw [deref_dangling (fun hl => h ⟨rfl,hl⟩)]
    rfl

end Store
end Zuul.Sessions
