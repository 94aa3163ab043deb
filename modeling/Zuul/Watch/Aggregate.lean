import Zuul.Cluster.Records
import Zuul.Raft.Membership
import Zuul.Watch.Coalescing

/-! The watchers of a key over the whole cluster: every node is asked for those of its
own hub, and what comes back in time is put together. -/
namespace Zuul.Watch
open Lib
open Fsm (Str str)
open Cluster (Observer ObserverSet)
open Raft (Member)
variable {stripe : Str → Fin numStripes}

/-- A node with its hub, as it is when it is asked. -/
structure Node (stripe : Str → Fin numStripes) where
  replicaID : Nat
  hub : Sys
  reachable : Reachable stripe hub

/-- ListObservers of the forwarder, with the id of the node that answers. -/
def Node.listObservers (n : Node stripe) (key : Str) : List Observer :=
  (n.hub.observers stripe key).map (fun o => ⟨o.identity,n.replicaID⟩)

/-- What becomes of the request to one peer. If the deadline has passed before it gets
to run, it is dropped, and the error of the group is not looked at. Where Submit drops
the job, the group never counts it as done, and its Wait does not return. -/
inductive Leg (stripe : Str → Fin numStripes) where
  | notRun
  | failed
  | answered (n : Node stripe)

/-- The peers that are asked: with an address, and not the node itself. -/
def asked (selfID : Nat) (members : List Member) : List Member :=
  members.filter (fun m => m.replicaID ≠ selfID ∧ m.zuulGrpcAddress ≠ [])

def Leg.run (key : Str) (out : ObserverSet) : Leg stripe → ObserverSet
  | notRun => out
  | failed => { out with isPartial := true }
  | answered n => { out with observers := out.observers ++ n.listObservers key }

/-- Observers of the aggregator. The members may not be readable; the requests to the
peers come back in some order. -/
def aggregate (self : Node stripe) (members : Option (List Member)) (legs : Member → Leg stripe) (order : List Member)
    (key : Str) : ObserverSet :=
  match members with
  | none => ⟨self.listObservers key,true⟩
  | some _ => order.foldl (fun out m => (legs m).run key out) ⟨self.listObservers key,false⟩

/-- Somebody with this identity watches the key on this node. -/
def Watches (n : Node stripe) (key : Str) (o : Observer) : Prop :=
  o.replicaID = n.replicaID ∧ ∃ (i : Nat) (sub : Sub), n.hub.subs[i]? = some sub ∧ (key = [] ∨ sub.key = key) ∧
    sub.till = none ∧ sub.track = true ∧ sub.identity = o.identity

private theorem mem_listObservers (n : Node stripe) (key : Str) (o : Observer) :
    o ∈ n.listObservers key ↔ Watches n key o := by
  rw [Node.listObservers,List.mem_map]
  constructor
  · rintro ⟨obs,hobs,rfl⟩
    obtain ⟨hk,i,sub,hs,hkey,ht,htrack,hid⟩ := (mem_observers n.reachable key obs).mp hobs
    exact ⟨rfl,i,sub,hs,hkey ▸ hk,ht,htrack,hid⟩
  · rintro ⟨hr,i,sub,hs,hk,ht,htrack,hid⟩
    exact ⟨⟨sub.key,sub.identity⟩,(mem_observers n.reachable key _).mpr ⟨hk,i,sub,hs,rfl,ht,htrack,rfl⟩,by
      rw [hid,← hr]⟩

section Fold
variable {legs : Member → Leg stripe} {key : Str} {order : List Member}

private def Leg.found (key : Str) : Leg stripe → List Observer
  | answered n => n.listObservers key
  | _ => []

private def Leg.lost : Leg stripe → Bool
  | failed => true
  | _ => false

private theorem foldl_legs (out : ObserverSet) : order.foldl (fun out m => (legs m).run key out) out =
    ⟨out.observers ++ order.flatMap (fun m => (legs m).found key),out.isPartial || order.any (fun m => (legs m).lost)⟩ := by
  induction order generalizing out with
  | nil => simp
  | cons m order ih =>
    rw [List.foldl_cons,ih,List.flatMap_cons,List.any_cons]
    cases legs m with
    | notRun => simp [Leg.run,Leg.found,Leg.lost]
    | failed => simp [Leg.run,Leg.found,Leg.lost]
    | answered n => simp [Leg.run,Leg.found,Leg.lost]

private theorem aggregate_some (self : Node stripe) (ms : List Member) : aggregate self (some ms) legs order key =
    ⟨self.listObservers key ++ order.flatMap (fun m => (legs m).found key),order.any (fun m => (legs m).lost)⟩ :=
  foldl_legs _

private theorem mem_found (leg : Leg stripe) (o : Observer) :
    o ∈ leg.found key ↔ ∃ n, leg = .answered n ∧ Watches n key o := by
  cases leg with
  | answered n => simp [Leg.found,mem_listObservers]
  | _ => simp [Leg.found]

private theorem lost_iff (leg : Leg stripe) : leg.lost = true ↔ leg = .failed := by
  cases leg <;> simp [Leg.lost]

end Fold

/-- In whatever order the peers answer, just the watchers on this node and on those that
answered are reported, and the result is partial just if the members could not be read or
a request failed. What it may leave out without saying so are members without an address
and requests that did not get to run. -/
theorem observers_aggregated (self : Node stripe) (members : Option (List Member)) (legs : Member → Leg stripe)
    {order : List Member} (hp : ∀ ms ∈ members, order.Perm (asked self.replicaID ms)) (key : Str) :
    let set := aggregate self members legs order key
    (∀ o, o ∈ set.observers ↔ Watches self key o ∨
      ∃ ms ∈ members, ∃ m ∈ asked self.replicaID ms, ∃ n, legs m = .answered n ∧ Watches n key o) ∧
    (set.isPartial = true ↔ members = none ∨ ∃ ms ∈ members, ∃ m ∈ asked self.replicaID ms, legs m = .failed) ∧
    (set.isPartial = false → ∀ ms ∈ members, ∀ m ∈ ms, m.replicaID = self.replicaID ∨ m.zuulGrpcAddress = [] ∨
      legs m = .notRun ∨ ∃ n, legs m = .answered n ∧ ∀ o, Watches n key o → o ∈ set.observers) ∧
    ∀ order', order'.Perm order → (aggregate self members legs order' key).observers.Perm set.observers ∧
      (aggregate self members legs order' key).isPartial = set.isPartial := by
  intro set
  cases members with
  | none =>
    refine ⟨fun o => ?_,⟨fun _ => .inl rfl,fun _ => rfl⟩,fun _ _ h => (by cases h),fun _ _ => ⟨.refl _,rfl⟩⟩
    change o ∈ self.listObservers key ↔ _
    simp [mem_listObservers]
  | some ms =>
    have hmem : ∀ m, m ∈ order ↔ m ∈ asked self.replicaID ms := fun m => (hp ms rfl).mem_iff
    have hset : set = _ := aggregate_some self ms
    have hobs : ∀ o, o ∈ set.observers ↔ Watches self key o ∨
        ∃ m ∈ asked self.replicaID ms, ∃ n, legs m = .answered n ∧ Watches n key o := by
      intro o
      rw [hset,List.mem_append,mem_listObservers,List.mem_flatMap]
      simp only [mem_found,hmem]
    have hpart : set.isPartial = true ↔ ∃ m ∈ asked self.replicaID ms, legs m = .failed := by
      rw [hset,List.any_eq_true]
      simp only [lost_iff,hmem]
    refine ⟨fun o => by simpa using hobs o,by simpa using hpart,?_,fun order' hp' => ?_⟩
    · intro hfull ms' hms m hm
      cases hms
      by_cases hself : m.replicaID = self.replicaID
      · exact .inl hself
      by_cases haddr : m.zuulGrpcAddress = []
      · exact .inr (.inl haddr)
      have hasked : m ∈ asked self.replicaID ms := List.mem_filter.mpr ⟨hm,decide_eq_true ⟨hself,haddr⟩⟩
      cases hleg : legs m with
      | notRun => exact .inr (.inr (.inl rfl))
      | failed => exact absurd (hpart.mpr ⟨m,hasked,hleg⟩) (by rw [hfull]; exact Bool.false_ne_true)
      | answered n => exact .inr (.inr (.inr ⟨n,rfl,fun o ho => (hobs o).mpr (.inr ⟨m,hasked,n,hleg,ho⟩)⟩))
    · rw [hset,aggregate_some]
      refine ⟨(hp'.flatMap_right _).append_left _,?_⟩
      rw [Bool.eq_iff_iff,List.any_eq_true,List.any_eq_true]
      simp only [hp'.mem_iff]

private def firstStripe (_ : Str) : Fin numStripes := ⟨0,Nat.zero_lt_succ 15⟩

/-- A node with one watcher of the key. -/
private def watched (replicaID : Nat) (identity : Str) : Node firstStripe where
  replicaID := replicaID
  hub := Sys.subscribe firstStripe {} { key := str "/a/x", identity, track := true }
  reachable := exec_reaches .init (show exec (Sys.next firstStripe) (fun _ _ => True) {}
    [.subscribe { key := str "/a/x", identity, track := true }] = some _ from rfl)

/-- One peer answers, and the request to another does not get to run. The result does not
say that the watcher there is missing. -/
theorem unasked_peer_missing :
    let near := watched 2 (str "eve")
    let far := watched 3 (str "bob")
    let members : List Member := [⟨1,[],str "n1",[]⟩,⟨2,[],str "n2",[]⟩,⟨3,[],str "n3",[]⟩]
    let legs : Member → Leg firstStripe := fun m => if m.replicaID = 2 then .answered near else .notRun
    let set := aggregate (watched 1 (str "ann")) (some members) legs (asked 1 members) (str "/a/x")
    set.isPartial = false ∧ Watches far (str "/a/x") ⟨str "bob",3⟩ ∧ ⟨str "bob",3⟩ ∉ set.observers := by
  intro near far members legs set
  have hp : ∀ ms ∈ some members, (asked 1 members).Perm (asked 1 ms) := by
    intro ms hms
    cases hms
    exact .refl _
  have hagg := observers_aggregated (watched 1 (str "ann")) (some members) legs hp (str "/a/x")
  refine ⟨by decide +kernel,⟨rfl,0,_,rfl,.inr rfl,rfl,rfl,rfl⟩,fun hbob => ?_⟩
  obtain h | ⟨_,-,m,-,n,hleg,h⟩ := (hagg.1 _).mp hbob
  · exact absurd h.1 (by decide)
  · have hn : n = near := by
      by_cases hm : m.replicaID = 2
      · rw [show legs m = .answered near from if_pos hm] at hleg
        exact (Leg.answered.inj hleg).symm
      · rw [show legs m = .notRun from if_neg hm] at hleg
        cases hleg
    exact absurd (hn ▸ h.1) (by decide)

end Zuul.Watch
