import Zuul.Fsm.Restore
import Zuul.Fsm.Turns

/-! The states a replica can be in, and the representation invariant they all satisfy. -/
namespace Zuul.Fsm
open Lib
variable {P : Command → Prop} {f g : FSM} {k c : Str} {ls : Lease}

/-- States of a replica whose log only holds commands with the property P. A
snapshot of any other such replica may be restored at any time. -/
inductive Reachable (P : Command → Prop) : FSM → Prop where
  | start (notifier : Bool) : Reachable P (new notifier)
  | apply {f : FSM} (hf : Reachable P f) (msg : Message) (hm : ∀ cmd, msg = .set cmd → P cmd) :
      Reachable P (f.apply msg).1
  | restore {f r : FSM} {snap : Snapshot} (hf : Reachable P f) (hr : Reachable P r) (hs : r.snapshot.Read snap) :
      Reachable P (f.restore snap).1

/-- What every kind of move preserves holds in every reachable state. -/
theorem Reachable.rule {I : FSM → Prop} (h : Reachable P f) (hnew : ∀ notifier, I (new notifier))
    (hbump : ∀ f, I f → I f.bump) (hstep : ∀ f cmd, P cmd → I f → I (f.step cmd).fsm)
    (hrestore : ∀ f r snap, r.snapshot.Read snap → I f → I r → I (f.restore snap).1) : I f := by
  induction h with
  | start notifier => exact hnew notifier
  | @apply f _ msg hm ih =>
    cases msg with
    | nil => exact ih
    | unset => exact hbump f ih
    | set cmd => exact hstep f cmd (hm cmd rfl) ih
  | @restore f r snap _ _ hs ihf ihr => exact hrestore f r snap hs ihf ihr

private theorem Reachable.step (h : Reachable P f) {cmd : Command} (hp : P cmd) : Reachable P (f.step cmd).fsm :=
  h.apply (.set cmd) (fun _ he => by cases he; exact hp)

/-- A log leads from a reachable state to a reachable one. -/
theorem Reachable.run (h : Reachable P f) {log : List Command} (hl : ∀ cmd ∈ log, P cmd) : Reachable P (f.run log) := by
  induction log generalizing f with
  | nil => exact h
  | cons cmd log ih =>
    exact ih (h.step (hl cmd List.mem_cons_self)) (fun a ha => hl a (List.mem_cons_of_mem _ ha))

/-- A restored state satisfies the invariant if the one it was taken from does. -/
theorem restore_inv {r : FSM} (h : Inv r) (f : FSM) {snap : Snapshot} (hs : r.snapshot.Read snap) :
    Inv (f.restore snap).1 := by
  obtain ⟨φ,hc⟩ := read_carried h f hs
  exact hc.inv h

/-- Every reachable state satisfies the invariant. -/
theorem reachable_inv (h : Reachable Command.Named f) : Inv f :=
  h.rule inv_new (fun _ hf => hf.bump) (fun _ _ hn hf => step_inv hf hn) (fun f _ _ hs _ hr => restore_inv hr f hs)

section Skips

private theorem held_round (h : Inv f) (hc : f.leases.lookup c = some ls) {done rest : List Str}
    (hd : sortedSet ls.held = done ++ k :: rest) :
    ∃ lk, (done.foldl (FSM.dropHeld c) (f,[])).1.locks.lookup k = some lk ∧ lk.holder = c ∧
      ∀ w ∈ lk.queue, w.clientID ∈ (done.foldl (FSM.dropHeld c) (f,[])).1.leases := by
  -- the key is held by the dropped client, and every waiter of it has a lease
  have hn : (done ++ k :: rest).Nodup := hd ▸ KeyedMap.sortedKeys_nodup _
  have hh : ∀ a ∈ done ++ k :: rest, ∃ lk, f.locks.lookup a = some lk ∧ lk.holder = c := by
    intro a ha
    rw [← hd,sortedSet,KeyedMap.mem_sortedKeys] at ha
    exact (h.held id hc).mp ha
  obtain ⟨lk,hk,hlc⟩ := hh k (by simp)
  have hdrop : InvBut (Dropping c) f := h.weaken (fun _ _ hx => hx.elim)
  obtain ⟨hl,_⟩ := heldLoop done hdrop (List.nodup_append.mp hn).1
    (fun a ha => hh a (List.mem_append_left _ ha)) []
  have hkd : k ∉ done := fun hm => (List.nodup_append.mp hn).2.2 k hm k List.mem_cons_self rfl
  have hk' := (hl.other hkd).trans hk
  refine ⟨lk,hk',hlc,fun w hw => ?_⟩
  exact (hl.inv.locks hk').leased (List.mem_cons_of_mem _ (List.mem_map_of_mem hw))

private theorem release_round (h : Inv f) {lk : Lock} (hk : f.locks.lookup k = some lk) (c : Str) :
    ∀ w ∈ lk.queue, w.clientID ∈ (f.unhold c k).leases := by
  -- a release drops the index entry of its own client only, so the waiters that promote
  -- looks at still have their leases
  intro w hw
  have hm := (h.locks hk).leased (List.mem_cons_of_mem _ (List.mem_map_of_mem hw))
  cases hc : f.leases.lookup c with
  | none => rwa [FSM.unhold,hc]
  | some ls => exact ((unhold_edit hc).mem_leases _).mpr hm

end Skips

/-- The representation invariant of every reachable state, written out: locks and
queues, the two indexes, and the numbers drawn from the shared counter. The last
two parts say that promote and the held loop of a lease drop find every waiter
leased and every held key held, so they skip nothing. -/
theorem reachable_wellFormed (h : Reachable Command.Named f) :
    (∀ k lk, f.locks.lookup k = some lk → lk.name = k ∧ lk.holder ≠ [] ∧ lk.holder ∈ f.leases ∧
      (lk.holder :: lk.queue.map Waiter.clientID).Nodup ∧ (∀ w ∈ lk.queue, w.clientID ∈ f.leases) ∧
      (lk.queue.map Waiter.seq).Pairwise (· < ·)) ∧
    (∀ c ls, f.leases.lookup c = some ls → ∀ k,
      (k ∈ ls.held ↔ ∃ lk, f.locks.lookup k = some lk ∧ lk.holder = c) ∧
      (k ∈ ls.waiting ↔ ∃ lk, f.locks.lookup k = some lk ∧ c ∈ lk.queue.map Waiter.clientID)) ∧
    (∀ k lk, f.locks.lookup k = some lk → lk.stamps.Nodup ∧ (∀ n ∈ lk.stamps, 0 < n ∧ n ≤ f.seq) ∧
      ∀ k' lk', f.locks.lookup k' = some lk' → k ≠ k' → ∀ n ∈ lk.stamps, n ∉ lk'.stamps) ∧
    (∀ k lk c, f.locks.lookup k = some lk → ∀ w ∈ lk.queue, w.clientID ∈ (f.unhold c k).leases) ∧
    (∀ c ls, f.leases.lookup c = some ls → ls.clientID = c ∧
      ∀ done k rest, sortedSet ls.held = done ++ k :: rest →
        let mid := (done.foldl (FSM.dropHeld c) (f,[])).1
        ∃ lk, mid.locks.lookup k = some lk ∧ lk.holder = c ∧ ∀ w ∈ lk.queue, w.clientID ∈ mid.leases) := by
  have hi := reachable_inv h
  refine ⟨?_,?_,?_,?_,?_⟩
  · intro k lk hk
    have ho := hi.locks hk
    exact ⟨ho.named,hi.holder_ne hk,ho.leased List.mem_cons_self,ho.distinct,
      fun w hw => ho.leased (List.mem_cons_of_mem _ (List.mem_map_of_mem hw)),ho.ordered⟩
  · intro c ls hc k
    exact ⟨hi.held id hc,hi.waiting id hc⟩
  · intro k lk hk
    have ho := hi.locks hk
    exact ⟨ho.fresh,fun n hn => ho.bounded hn,fun k' lk' hk' hne n hn hn' => hne (hi.apart hk hk' hn hn')⟩
  · intro k lk c hk
    exact release_round hi hk c
  · intro c ls hc
    exact ⟨(hi.owned hc).1,fun done k rest hd => held_round hi hc hd⟩

/-- Two clients, one promoted by a revocation on a replica that restored a snapshot. -/
theorem promoted_after_restore_wellFormed :
    let log : List Command := [.leaseGrant (str "a") 5 0,.leaseGrant (str "b") 5 0,
      .acquireLock (str "k") (str "a") false,.acquireLock (str "k") (str "b") false]
    let f := (((new true).restore ((new false).run log).snapshot.wire).1.step (.leaseRevoke (str "a"))).fsm
    f.hold (str "k") = some (str "b",3) ∧
    ∀ k lk, f.locks.lookup k = some lk → lk.holder ∈ f.leases := by
  intro log f
  have hr : Reachable Command.Named f :=
    (((Reachable.start true).restore ((Reachable.start false).run (by decide)) .wire).step (by decide))
  exact ⟨by decide,fun k lk hk => ((reachable_wellFormed hr).1 k lk hk).2.2.1⟩

end Zuul.Fsm
