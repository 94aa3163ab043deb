import Zuul.Fsm.Queries
import Zuul.Fsm.Restore

/-! Replicas that enumerate their maps differently. Every loop over a map is free
to see any order, and nothing that leaves a replica depends on it. -/
namespace Zuul.Fsm
open Lib
variable {f g f' g' : FSM} {log : List Command} {rs rs' : List CommandResult} {evs evs' : List Event}

private theorem Lease.Same.symm {a b : Lease} (h : a.Same b) : b.Same a :=
  ⟨h.clientID.symm,h.ttlMS.symm,h.expireAt.symm,fun k => (h.held k).symm,fun k => (h.waiting k).symm⟩

private theorem Lease.Same.trans {a b c : Lease} (h : a.Same b) (j : b.Same c) : a.Same c :=
  ⟨h.clientID.trans j.clientID,h.ttlMS.trans j.ttlMS,h.expireAt.trans j.expireAt,
    fun k => (h.held k).trans (j.held k),fun k => (h.waiting k).trans (j.waiting k)⟩

namespace FSM.Same

theorem symm (h : f.Same g) : g.Same f where
  locks k := (h.locks k).symm
  leases c := by
    rcases h.lease_cases c with ⟨hf,hg⟩ | ⟨a,b,hf,hg,hab⟩
    · rw [hf,hg]; exact .none
    · rw [hf,hg]; exact .some hab.symm
  seq := h.seq.symm
  revision := h.revision.symm
  notifier := h.notifier.symm

theorem trans (h : f.Same g) (j : g.Same f') : f.Same f' where
  locks k := (h.locks k).trans (j.locks k)
  leases c := KeyedMap.rel_trans (h.leases c) (j.leases c) (fun _ _ _ => Lease.Same.trans)
  seq := h.seq.trans j.seq
  revision := h.revision.trans j.revision
  notifier := h.notifier.trans j.notifier

end FSM.Same

/-- A run with the answers and events it gives. Before each command, and at the
end, the maps and sets may be enumerated anew in any order. -/
inductive Shuffled : FSM → List Command → List CommandResult → List Event → FSM → Prop where
  | nil {f g : FSM} (h : f.Same g) : Shuffled f [] [] [] g
  | cons {f f' g : FSM} {cmd : Command} {log : List Command} {rs : List CommandResult} {evs : List Event}
      (h : f.Same f') (hr : Shuffled (f'.step cmd).fsm log rs evs g) :
      Shuffled f (cmd :: log) ((f'.step cmd).result :: rs) ((f'.step cmd).events ++ evs) g

/-- The shuffling cannot be seen: the run gives what the plain run gives. -/
theorem Shuffled.plain (h : Shuffled f log rs evs g) :
    rs = f.runResults log ∧ evs = f.runEvents log ∧ (f.run log).Same g := by
  induction h with
  | nil h => exact ⟨rfl,rfl,h⟩
  | @cons f f' g cmd log rs evs h hr ih =>
    have hs := step_same h cmd
    obtain ⟨hres,hev,hrun⟩ := ih
    refine ⟨?_,?_,(run_same hs.fsm log).trans hrun⟩
    · rw [FSM.runResults,hs.result,runResults_same hs.fsm,hres]
    · rw [FSM.runEvents,hs.events,runEvents_same hs.fsm,hev]

/-- The plain run is one of them. -/
theorem Shuffled.of_run (f : FSM) (log : List Command) :
    Shuffled f log (f.runResults log) (f.runEvents log) (f.run log) := by
  induction log generalizing f with
  | nil => exact .nil (.refl f)
  | cons cmd log ih => exact .cons (.refl f) (ih (f.step cmd).fsm)

section Restoring

/-- The lock map Restore builds before it indexes. -/
def Snapshot.lockMap (snap : Snapshot) : KeyedMap Str Lock := KeyedMap.fill LockState.name LockState.lock snap.locks ∅

def Snapshot.leaseMap (snap : Snapshot) : Leases := KeyedMap.fill LeaseState.clientID LeaseState.lease snap.leases ∅

/-- Restore with the locks enumerated in the given order by its index loop. -/
def FSM.restoreIn (f : FSM) (snap : Snapshot) (order : List Lock) : FSM :=
  { f with
    seq := snap.seq
    revision := snap.revision
    locks := snap.lockMap
    leases := order.foldl indexLock snap.leaseMap }

private theorem restore_eq_restoreIn (f : FSM) (snap : Snapshot) :
    (f.restore snap).1 = f.restoreIn snap (snap.lockMap.entries.map Sigma.snd) := rfl

private theorem gains_same {held waiting : Str → Prop} {a b c : Lease} (hb : a.Gains held waiting b)
    (hc : a.Gains held waiting c) : b.Same c where
  clientID := hb.clientID.trans hc.clientID.symm
  ttlMS := hb.ttlMS.trans hc.ttlMS.symm
  expireAt := hb.expireAt.trans hc.expireAt.symm
  held k := (hb.held k).trans (hc.held k).symm
  waiting k := (hb.waiting k).trans (hc.waiting k).symm

/-- The index loop only collects, so it may take the locks in any order. -/
theorem restoreIn_same (hn : f.notifier = g.notifier) (snap : Snapshot) {o o' : List Lock} (hp : o.Perm o') :
    (f.restoreIn snap o).Same (g.restoreIn snap o') where
  locks _ := rfl
  leases c := by
    have ho := Indexed.foldl indexLock_indexed o snap.leaseMap
    have ho' := Indexed.foldl indexLock_indexed o' snap.leaseMap
    simp only [← hp.mem_iff] at ho'
    exact KeyedMap.rel_join (ho c) (ho' c) (fun _ _ _ => gains_same)
  seq := rfl
  revision := rfl
  notifier := hn

end Restoring

/-- Two replicas in equal states that apply the same log answer, notify and end
alike whatever orders they enumerate. Any two replicas that restore the same
snapshot, whatever they held before, are then in equal states, in whatever orders
their index loops took the locks; Restore takes one such order. -/
theorem replicas_agree (h : f.Same g) (hf : Shuffled f log rs evs f') (hg : Shuffled g log rs' evs' g') :
    rs = rs' ∧ evs = evs' ∧ f'.Same g' ∧ f'.snapshot = g'.snapshot ∧ (∀ q, f'.query q = g'.query q) ∧
    (∀ x y : FSM, x.notifier = y.notifier → ∀ snap o o', o.Perm (snap.lockMap.entries.map Sigma.snd) →
      o'.Perm (snap.lockMap.entries.map Sigma.snd) → (x.restoreIn snap o).Same (y.restoreIn snap o')) ∧
    ∀ (x : FSM) snap, ∃ o : List Lock, o.Perm (snap.lockMap.entries.map Sigma.snd) ∧
      (x.restore snap).1 = x.restoreIn snap o := by
  obtain ⟨hrf,hef,hsf⟩ := hf.plain
  obtain ⟨hrg,heg,hsg⟩ := hg.plain
  have hs : f'.Same g' := (hsf.symm.trans (run_same h log)).trans hsg
  refine ⟨?_,?_,hs,snapshot_same hs,query_same hs,?_,?_⟩
  · rw [hrf,hrg,runResults_same h]
  · rw [hef,heg,runEvents_same h]
  · intro x y hn snap o o' ho ho'
    exact restoreIn_same hn snap (ho.trans ho'.symm)
  · intro x snap
    exact ⟨_,.refl _,restore_eq_restoreIn x snap⟩

/-- Two leases granted in either order, then two keys that one revocation hands over.
The snapshot is restored by a new replica and by one that still has both leases,
with the two locks indexed in opposite orders. -/
theorem revocation_agrees :
    let a := Command.leaseGrant (str "a") 5 0
    let b := Command.leaseGrant (str "b") 5 0
    let f := (new true).run [a,b]
    let g := (new true).run [b,a]
    let log : List Command := [.acquireLock (str "j") (str "a") false,.acquireLock (str "k") (str "a") false,
      .acquireLock (str "k") (str "b") false,.acquireLock (str "j") (str "b") false,.leaseRevoke (str "a")]
    let snap := (f.run log).snapshot
    let order := snap.lockMap.entries.map Sigma.snd
    f.leases.keys ≠ g.leases.keys ∧ (f.run log).hold (str "j") = some (str "b",5) ∧
    f.runResults log = g.runResults log ∧ f.runEvents log = g.runEvents log ∧
    (f.run log).snapshot = (g.run log).snapshot ∧
    order.map Lock.name ≠ order.reverse.map Lock.name ∧
    ((new true).restoreIn snap order).Same (g.restoreIn snap order.reverse) ∧
    (g.restoreIn snap order.reverse).hold (str "j") = some (str "b",5) := by
  intro a b f g log snap order
  have h : f.Same g := by
    refine ⟨fun _ => rfl,fun c => ?_,rfl,rfl,rfl⟩
    have hl : f.leases.lookup c = g.leases.lookup c := by
      let ls (c : Str) : Lease := { clientID := c, ttlMS := 5, expireAt := leaseDeadline 0 5 }
      change (((∅ : Leases).insert (str "a") (ls (str "a"))).insert (str "b") (ls (str "b"))).lookup c =
        (((∅ : Leases).insert (str "b") (ls (str "b"))).insert (str "a") (ls (str "a"))).lookup c
      have hne : str "a" ≠ str "b" := by decide
      exact AList.perm_lookup (AList.insert_insert_of_ne _ hne)
    rw [hl]
    exact KeyedMap.rel_refl .refl _
  obtain ⟨hr,he,_,hs,_,hrestore,_⟩ := replicas_agree h (.of_run f log) (.of_run g log)
  refine ⟨by decide,by decide +kernel,hr,he,hs,by decide +kernel,?_,by decide +kernel⟩
  exact hrestore (new true) g rfl snap order order.reverse (.refl _) order.reverse_perm

end Zuul.Fsm
