import Zuul.Fsm.Events

/-! One shard as a node sees it: the committed log, the part the local replica
has applied, and the events its last Apply still has to notify. -/
namespace Zuul.Server
open Lib Fsm

/-- The state after the first j entries of a log. -/
def stateAt (log : List Command) (j : Nat) : FSM := (new true).run (log.take j)

/-- More entries do not change the state after the first ones. -/
theorem stateAt_append {log : List Command} {j : Nat} (h : j ≤ log.length) (more : List Command) :
    stateAt (log ++ more) j = stateAt log j := by
  rw [stateAt,stateAt,List.take_append_of_le_length h]

/-- The state after one entry more. -/
theorem stateAt_succ {log : List Command} {j : Nat} {cmd : Command} (h : log[j]? = some cmd) :
    stateAt log (j + 1) = ((stateAt log j).step cmd).fsm := by
  rw [stateAt,stateAt,List.take_add_one,h,Option.toList_some,FSM.run_concat]

structure Replica where
  log : List Command := []
  applied : Nat := 0
  outbox : List Event := []
  deriving DecidableEq

namespace Replica
variable {r r' : Replica} {cmd : Command} {k : Str} {j : Nat}

def upTo (r : Replica) (j : Nat) : FSM := stateAt r.log j

/-- What the leader answers from. -/
def full (r : Replica) : FSM := r.upTo r.log.length

def commit (r : Replica) (cmd : Command) : Replica := { r with log := r.log ++ [cmd] }

/-- The local replica applies the next entry. An Apply notifies its events before
it returns, so the next one has to wait for them. -/
def apply (r : Replica) : Option Replica :=
  match r.outbox, r.log[r.applied]? with
  | [], some cmd => some { r with applied := r.applied + 1, outbox := ((r.upTo r.applied).step cmd).events }
  | _, _ => none

/-- One event is notified. -/
def pop (r : Replica) : Replica := { r with outbox := r.outbox.tail }

/-- Named commands only, a real part of the log applied, and only the event that
describes a key after the current Apply still to be notified about it. -/
structure Sound (r : Replica) : Prop where
  named : ∀ cmd ∈ r.log, cmd.Named
  applied : r.applied ≤ r.log.length
  outbox : ∀ k, about k r.outbox = [] ∨ about k r.outbox = [(r.upTo r.applied).report k]

/-- A new replica is sound. -/
theorem sound_init : ({} : Replica).Sound := ⟨nofun,Nat.le_refl 0,fun _ => .inl rfl⟩

/-- A commit does not change the state after the entries before it. -/
theorem upTo_commit (h : j ≤ r.log.length) : (r.commit cmd).upTo j = r.upTo j := stateAt_append h _

/-- The next entry takes the state one command on. -/
theorem upTo_succ (h : r.log[j]? = some cmd) : r.upTo (j + 1) = ((r.upTo j).step cmd).fsm := stateAt_succ h

private theorem Sound.named_take (h : r.Sound) (j : Nat) : ∀ cmd ∈ r.log.take j, cmd.Named :=
  fun cmd hm => h.named cmd (List.mem_of_mem_take hm)

private theorem Sound.named_get (h : r.Sound) (hj : r.log[j]? = some cmd) :
    cmd.Named := h.named cmd (List.mem_of_getElem? hj)

/-- Every state along the log satisfies the invariant of the state machine. -/
theorem Sound.inv (h : r.Sound) (j : Nat) : Inv (r.upTo j) := run_inv (inv_new true) (h.named_take j)

private theorem Sound.notifier (h : r.Sound) (j : Nat) : (r.upTo j).notifier = true :=
  run_notifier (inv_new true) (h.named_take j)

private theorem run_revision {f : FSM} (h : Inv f) {log : List Command} (hl : ∀ cmd ∈ log, cmd.Named) :
    (f.run log).revision = f.revision + log.length := by
  induction log generalizing f with
  | nil => rfl
  | cons cmd log ih =>
    have hc := hl cmd List.mem_cons_self
    rw [FSM.run_cons,ih (step_inv h hc) (fun a ha => hl a (List.mem_cons_of_mem _ ha)),(step_revision h hc).1,
      List.length_cons]
    omega

/-- Revisions count the applied entries. -/
theorem Sound.revision (h : r.Sound) (hj : j ≤ r.log.length) : (r.upTo j).revision = j := by
  have hr := run_revision (inv_new true) (h.named_take j)
  rw [List.length_take_of_le hj] at hr
  exact hr.trans (Nat.zero_add j)

/-- A commit of a named command keeps the replica sound. -/
theorem commit_sound (h : r.Sound) (hn : cmd.Named) : (r.commit cmd).Sound where
  named a ha := by
    rcases List.mem_append.mp ha with ha | ha
    · exact h.named a ha
    · rw [List.mem_singleton.mp ha]
      exact hn
  applied := by
    have hl : (r.commit cmd).log.length = r.log.length + 1 := List.length_append
    have ha := h.applied
    change r.applied ≤ _
    omega
  outbox k := by
    have hu : (r.commit cmd).upTo (r.commit cmd).applied = r.upTo r.applied := upTo_commit h.applied
    rw [hu]
    exact h.outbox k

/-- What an Apply of the local replica is. -/
theorem apply_eq (h : r.apply = some r') : ∃ cmd, r.outbox = [] ∧ r.log[r.applied]? = some cmd ∧
    r' = { r with applied := r.applied + 1, outbox := ((r.upTo r.applied).step cmd).events } := by
  rw [apply] at h
  split at h
  · rename_i cmd ho hc
    exact ⟨cmd,ho,hc,(Option.some.inj h).symm⟩
  · cases h

/-- After an Apply of the next entry: the key was announced and is about to be
notified, or its owner is as before. -/
theorem apply_sound (h : r.Sound) (ha : r.apply = some r') :
    r'.Sound ∧ r'.log = r.log ∧ r'.applied = r.applied + 1 ∧
      ∀ k, about k r'.outbox = [] → (r'.upTo r'.applied).owner k = (r.upTo r.applied).owner k := by
  obtain ⟨cmd,_,hc,rfl⟩ := apply_eq ha
  have hev := step_events (h.inv r.applied) (h.notifier r.applied) (h.named_get hc)
  have hu := upTo_succ hc
  refine ⟨⟨h.named,?_,fun k => ?_⟩,rfl,rfl,fun k hk => ?_⟩
  · obtain ⟨hlt,_⟩ := List.getElem?_eq_some_iff.mp hc
    exact hlt
  · change _ ∨ _ = [(r.upTo (r.applied + 1)).report k]
    rw [hu]
    rcases hev k with ⟨he,_⟩ | he
    · exact .inl he
    · exact .inr he
  · change (r.upTo (r.applied + 1)).owner k = _
    rw [hu]
    rcases hev k with ⟨_,ho⟩ | he
    · exact ho
    · cases hk.symm.trans he

/-- Notifying an event leaves at most the others; about its own key none is left. -/
theorem pop_about {e : Event} {rest : List Event} (h : r.Sound) (ho : r.outbox = e :: rest) (k : Str) :
    about k r.pop.outbox = if e.key = k then [] else about k r.outbox := by
  have hr : r.pop.outbox = rest := by rw [pop,ho]; rfl
  rw [hr,ho]
  by_cases hk : e.key = k
  · have hcons : about k (e :: rest) = e :: about k rest := List.filter_cons_of_pos (decide_eq_true hk)
    rcases h.outbox k with hn | hn
    · rw [ho,hcons] at hn
      cases hn
    · rw [ho,hcons] at hn
      rw [if_pos hk]
      exact (List.cons.inj hn).2
  · have hcons : about k (e :: rest) = about k rest := List.filter_cons_of_neg (by simpa using hk)
    rw [if_neg hk,hcons]

/-- Notifying an event keeps the replica sound. -/
theorem pop_sound (h : r.Sound) : r.pop.Sound where
  named := h.named
  applied := h.applied
  outbox k := by
    cases ho : r.outbox with
    | nil => exact .inl (by rw [pop,ho]; rfl)
    | cons e rest =>
      rw [pop_about h ho k]
      split
      · exact .inl rfl
      · exact h.outbox k

/-- The event at the head describes its key as the local replica has it. -/
theorem head_report {e : Event} {rest : List Event} (h : r.Sound) (ho : r.outbox = e :: rest) :
    e = (r.upTo r.applied).report e.key := by
  have hm : e ∈ about e.key r.outbox := by
    rw [ho]
    exact (ChangeLog.mem_about _).mpr ⟨List.mem_cons_self,rfl⟩
  rcases h.outbox e.key with hn | hn
  · rw [hn] at hm
    cases hm
  · rw [hn] at hm
    exact List.mem_singleton.mp hm

end Replica
end Zuul.Server
