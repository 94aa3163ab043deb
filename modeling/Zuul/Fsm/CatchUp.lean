import Zuul.Fsm.Reachable

/-! Catching up by snapshot: on a log of decoded commands no value is the empty
slice, so the wire changes nothing and the restored replica equals the source. -/
namespace Zuul.Fsm
open Lib
variable {f g r s : FSM} {k : Str} {v : Bytes}

/-- No empty slice among the published values of a lock and its queue. -/
structure Lock.Clean (lk : Lock) : Prop where
  value : lk.value ≠ some []
  queue : ∀ w ∈ lk.queue, w.value ≠ some []

def FSM.Clean (f : FSM) : Prop := ∀ {k lk}, f.locks.lookup k = some lk → lk.Clean

private theorem next_clean {lk lk' : Lock} {n : Nat} (h : lk.Clean) (hn : lk.next n = some lk') : lk'.Clean := by
  cases hq : lk.queue with
  | nil => rw [Lock.next,hq] at hn; cases hn
  | cons w queue =>
    rw [Lock.next,hq] at hn
    cases hn
    have hm : ∀ x ∈ w :: queue, x.value ≠ some [] := hq ▸ h.queue
    exact ⟨hm w List.mem_cons_self,fun x hx => hm x (List.mem_cons_of_mem _ hx)⟩

private theorem turn_clean {lo hi : Nat} {o o' : Option Lock} {told : Bool} (ht : Turn lo hi v k o o' told)
    (hv : v ≠ some []) (h : ∀ {lk}, o = some lk → lk.Clean) {lk' : Lock} (ho : o' = some lk') : lk'.Clean := by
  cases ht with
  | same => exact h ho
  | granted c => cases ho; exact ⟨hv,by simp [Lock.granted]⟩
  | joined lk c n =>
    cases ho
    refine ⟨(h rfl).value,fun w hw => ?_⟩
    rcases List.mem_append.mp hw with hw | hw
    · exact (h rfl).queue w hw
    · rw [List.mem_singleton.mp hw]
      exact hv
  | handed lk => exact next_clean (h rfl) ho
  | left lk c =>
    cases ho
    exact ⟨(h rfl).value,fun w hw => (h rfl).queue w ((dequeue_sublist lk c).subset hw)⟩
  | published lk => cases ho; exact ⟨hv,(h rfl).queue⟩

private theorem step_clean (h : Inv f) (hc : f.Clean) {cmd : Command} (hn : cmd.Named) (hd : cmd.Decoded) :
    (f.step cmd).fsm.Clean := by
  intro k lk hk
  obtain ⟨told,ht,_⟩ := step_turn h hn k
  exact turn_clean ht hd (fun ho => hc ho) hk

private theorem decodeBytes_eq (hv : v ≠ some []) : decodeBytes v = v := by
  match v with
  | none => rfl
  | some [] => exact (hv rfl).elim
  | some (b :: bs) => rfl

/-- No decoded value is empty but present. -/
theorem decodeBytes_clean (v : Bytes) : decodeBytes v ≠ some [] := by
  match v with
  | none => exact nofun
  | some [] => exact nofun
  | some (b :: bs) => simp [decodeBytes]

/-- A clean state goes over the wire unchanged. -/
theorem Carried.same (hc : Carried decodeBytes g r) (h : r.Clean) :
    g.Same { r with notifier := g.notifier } where
  locks k := by
    rw [hc.locks k]
    cases hk : r.locks.lookup k with
    | none => rfl
    | some lk =>
      have hcl := h hk
      rw [Option.map_some,mapValue_eq_self (decodeBytes_eq hcl.value) (fun w hw => decodeBytes_eq (hcl.queue w hw))]
  leases := hc.leases
  seq := hc.seq
  revision := hc.revision
  notifier := rfl

private theorem restore_clean (h : Inv r) (hc : r.Clean) (f : FSM) {snap : Snapshot} (hs : r.snapshot.Read snap) :
    (f.restore snap).1.Clean := by
  intro k lk hk
  have hcl : ∀ {φ : Bytes → Bytes}, (∀ v, v ≠ some [] → φ v ≠ some []) → Carried φ (f.restore snap).1 r → lk.Clean := by
    intro φ hφ hx
    obtain ⟨old,ho,rfl⟩ := hx.lookup_back hk
    refine ⟨hφ _ (hc ho).value,fun w hw => ?_⟩
    obtain ⟨w',hw',rfl⟩ := List.mem_map.mp hw
    exact hφ _ ((hc ho).queue w' hw')
  cases hs with
  | memory =>
    refine hcl (φ := id) (fun _ hv => hv) ?_
    have hx := restore_carried (φ := id) h f
    rwa [snapshot_mapValue_id] at hx
  | wire => exact hcl (fun v _ => decodeBytes_clean v) (restore_carried h f)

/-- What the consensus layer hands to Apply: named clients, decoded values. -/
def Command.FromWire (cmd : Command) : Prop := cmd.Named ∧ cmd.Decoded

instance (cmd : Command) : Decidable cmd.FromWire := inferInstanceAs (Decidable (_ ∧ _))

/-- States reached by decoded commands have no empty values. -/
theorem reachable_clean (h : Reachable Command.FromWire f) : Inv f ∧ f.Clean := by
  refine h.rule (I := fun f => Inv f ∧ f.Clean) ?_ ?_ ?_ ?_
  · exact fun notifier => ⟨inv_new notifier,fun hk => by cases hk⟩
  · exact fun f hf => ⟨hf.1.bump,hf.2⟩
  · exact fun f cmd hp hf => ⟨step_inv hf.1 hp.1,step_clean hf.1 hf.2 hp.1 hp.2⟩
  · exact fun f r snap hs _ hr => ⟨restore_inv hr.1 f hs,restore_clean hr.1 hr.2 f hs⟩

/-- Restoring the decoded snapshot of a reachable state gives that state in every
field, whatever the receiving replica was; only the receiver's own notifier
stays. Both then answer, publish and snapshot alike on every further log. -/
theorem restore_indistinguishable (h : Reachable Command.FromWire s) (g : FSM) :
    let t := (g.restore s.snapshot.wire).1
    let s' := { s with notifier := g.notifier }
    t.Same s' ∧ ∀ log : List Command, t.runResults log = s'.runResults log ∧ t.runEvents log = s'.runEvents log ∧
      (t.run log).Same (s'.run log) ∧ (t.run log).snapshot = (s'.run log).snapshot := by
  intro t s'
  obtain ⟨hi,hc⟩ := reachable_clean h
  have hs : t.Same s' := (restore_carried (φ := decodeBytes) hi g).same hc
  refine ⟨hs,fun log => ?_⟩
  have hrun := run_same hs log
  exact ⟨runResults_same hs log,runEvents_same hs log,hrun,snapshot_same hrun⟩

/-- A queued client, restored from a snapshot, takes the key over as without the restore. -/
theorem promotion_after_restore :
    let log : List Command := [.leaseGrant (str "a") 5 0,.leaseGrant (str "b") 5 0,
      .campaign (str "k") (str "a") (some [1]),.campaign (str "k") (str "b") (some [2])]
    let s := (new true).run log
    let t := ((new true).restore s.snapshot.wire).1
    t.runEvents [.leaseRevoke (str "a")] = s.runEvents [.leaseRevoke (str "a")] ∧
    s.runEvents [.leaseRevoke (str "a")] = [⟨str "k",str "b",3,some [2],5⟩] := by
  intro log s t
  have hr : Reachable Command.FromWire s := (Reachable.start true).run (by decide)
  exact ⟨((restore_indistinguishable hr (new true)).2 _).2.1,by decide⟩

end Zuul.Fsm
