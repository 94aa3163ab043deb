import Zuul.Auth.Gate
import Zuul.Lib.Proposals

/-! Changes of the cluster's membership: every shard's Raft group and the topology
kept in the meta shard. A change whose caller has given up may still be made later. -/
namespace Zuul.Raft
open Lib
open Auth (trimSpace equalFold)
open Fsm (Str str)
variable {σ κ : Type}

section Dispatch

/-- What becomes of a proposal while its caller waits: it commits, or the caller gives up
and the proposal stays in flight or is gone. -/
inductive Request where
  | committed
  | failed (inFlight : Bool)

/-- What one try of the dispatcher meets, and what commits late before the next one. -/
inductive Attempt where
  -- no leader is known, it has no address yet, or the node reached does not lead
  | noRoute
  | undialable
  -- the leader's membership read may fail, proposals in flight may commit before its own
  -- does, and its answer may be lost on the way back
  | reached (memberRead : Bool) (meanwhile : List Nat) (request : Request) (answered : Bool)
  | late (k : Nat)

/-- A change as the leader of a group makes it. Nothing is proposed where the membership
read shows that it was made. -/
structure Change (σ κ : Type) where
  apply : σ → κ → σ × Bool
  made : σ → Bool
  cmd : κ

namespace Change
variable {c : Change σ κ} {g : Proposals σ κ} {H : κ → Prop} {P Q : σ → Prop}

/-- What the leader does, and whether it returns without an error. -/
def handle (c : Change σ κ) (g : Proposals σ κ) (memberRead : Bool) (meanwhile : List Nat) (request : Request) :
    Proposals σ κ × Bool :=
  if memberRead && c.made g.state then (g,true)
  else
    let g := g.commitAll c.apply meanwhile
    match request with
    | .committed => ({ g with state := (c.apply g.state c.cmd).1 },(c.apply g.state c.cmd).2)
    | .failed inFlight => (if inFlight then g.propose c.cmd else g,false)

/-- The retry loop of the dispatcher, up to its deadline, and whether it succeeded.
Only a peer that cannot be dialed ends it early. -/
def retry (c : Change σ κ) : Proposals σ κ → List Attempt → Proposals σ κ × Bool
  | g, [] => (g,false)
  | g, .noRoute :: ts => c.retry g ts
  | g, .undialable :: _ => (g,false)
  | g, .late k :: ts => c.retry (g.commit c.apply k) ts
  | g, .reached memberRead meanwhile request answered :: ts =>
    match c.handle g memberRead meanwhile request with
    | (g,true) => if answered then (g,true) else c.retry g ts
    | (g,false) => c.retry g ts

/-- What a change needs for the loop: its own proposal and what else is in flight are
harmless, so they keep P, and under P it is made when the leader returns without an error. -/
structure Sound (c : Change σ κ) (H : κ → Prop) (P Q : σ → Prop) : Prop where
  own : H c.cmd
  keeps : ∀ s cmd, P s → H cmd → P (c.apply s cmd).1
  read : ∀ s, P s → c.made s = true → Q s
  done : ∀ s, P s → (c.apply s c.cmd).2 = true → Q (c.apply s c.cmd).1

private theorem handle_calm (hc : c.Sound H P Q) (hg : g.Calm H P) (r : Bool) (ks : List Nat) (q : Request) :
    (c.handle g r ks q).1.Calm H P ∧ ((c.handle g r ks q).2 = true → (c.handle g r ks q).1.Calm H Q) := by
  have hlate := hg.commitAll hc.keeps ks
  unfold handle
  split
  case isTrue hr => exact ⟨hg,fun _ => hg.mono (fun hs => hc.read _ hs (Bool.and_eq_true_iff.mp hr).2)⟩
  case isFalse =>
    cases q with
    | committed =>
      exact ⟨⟨hc.keeps _ _ hlate.state hc.own,hlate.inFlight⟩,fun ha => ⟨hc.done _ hlate.state ha,hlate.inFlight⟩⟩
    | failed inFlight =>
      refine ⟨?_,fun ha => (by cases ha)⟩
      cases inFlight with
      | false => exact hlate
      | true => exact hlate.propose hc.own

/-- However the tries go and whatever commits late, P is kept, and when the loop succeeds
the change is made. -/
theorem retry_calm (hc : c.Sound H P Q) (hg : g.Calm H P) (ts : List Attempt) :
    (c.retry g ts).1.Calm H P ∧ ((c.retry g ts).2 = true → (c.retry g ts).1.Calm H Q) := by
  induction ts generalizing g with
  | nil => exact ⟨hg,fun h => (by cases h)⟩
  | cons t ts ih =>
    cases t with
    | noRoute => exact ih hg
    | undialable => exact ⟨hg,fun h => (by cases h)⟩
    | late k => exact ih (hg.commit hc.keeps k)
    | reached r ks q answered =>
      obtain ⟨hkeep,hdone⟩ := handle_calm hc hg r ks q
      rw [retry]
      generalize c.handle g r ks q = out at hkeep hdone
      obtain ⟨g',ok⟩ := out
      cases ok with
      | false => exact ih hkeep
      | true =>
        cases answered with
        | false => exact ih hkeep
        | true => exact ⟨hkeep,fun _ => hdone rfl⟩

private theorem retry_made (h : c.made g.state = true) : c.retry g [.reached true [] .committed true] = (g,true) := by
  rw [retry,handle,h]
  rfl

end Change
end Dispatch

section Groups

/-- The replicas of one shard's Raft group with their addresses, and those that were
removed. There are no observers and no witnesses. -/
structure Membership where
  nodes : KeyedMap Nat Str := ∅
  removed : KeyedMap Nat Unit := ∅

inductive ConfigChange where
  | addNode (nodeID : Nat) (address : Str)
  | removeNode (nodeID : Nat)

def addressEqual (addr1 addr2 : Str) : Bool := equalFold (trimSpace addr1) (trimSpace addr2)

namespace Membership

def isAddRemovedNode (m : Membership) : ConfigChange → Bool
  | .addNode nodeID _ => decide (nodeID ∈ m.removed)
  | .removeNode _ => false

def isAddExistingMember (m : Membership) : ConfigChange → Bool
  | .addNode nodeID address => decide (nodeID ∈ m.nodes) || m.nodes.entries.any (fun e => addressEqual e.2 address)
  | .removeNode _ => false

def isDeleteOnlyNode (m : Membership) : ConfigChange → Bool
  | .addNode _ _ => false
  | .removeNode nodeID => m.nodes.entries.length == 1 && decide (nodeID ∈ m.nodes)

def apply (m : Membership) : ConfigChange → Membership
  | .addNode nodeID address => { m with nodes := m.nodes.insert nodeID address }
  | .removeNode nodeID => { nodes := m.nodes.erase nodeID, removed := m.removed.insert nodeID () }

/-- A committed change is applied or refused. Changes are not ordered by an id. -/
def handleConfigChange (m : Membership) (cc : ConfigChange) : Membership × Bool :=
  if !m.isAddRemovedNode cc && !m.isAddExistingMember cc && !m.isDeleteOnlyNode cc then (m.apply cc,true) else (m,false)

end Membership

/-- AddReplicaShard: nothing is done if the replica is a member already. -/
def addReplicaShard (replicaID : Nat) (raftAddr : Str) : Change Membership ConfigChange where
  apply := Membership.handleConfigChange
  made m := decide (replicaID ∈ m.nodes)
  cmd := .addNode replicaID raftAddr

/-- RemoveReplicaShard: nothing is done if the replica is no member. -/
def removeReplicaShard (replicaID : Nat) : Change Membership ConfigChange where
  apply := Membership.handleConfigChange
  made m := decide (replicaID ∉ m.nodes)
  cmd := .removeNode replicaID

/-- A node as the topology records it. -/
structure Member where
  replicaID : Nat
  raftAddress : Str
  zuulGrpcAddress : Str := []
  nodeHostID : Str := []
  deriving DecidableEq, Repr

inductive MetaCommand where
  | put (m : Member)
  | delete (replicaID : Nat)

/-- The state of the meta shard. -/
structure Store where
  members : KeyedMap Nat Member := ∅
  revision : Nat := 0

/-- Apply on a command with its oneof set. -/
def Store.apply (s : Store) : MetaCommand → Store
  | .put m => { members := s.members.insert m.replicaID m, revision := s.revision + 1 }
  | .delete replicaID => { members := s.members.erase replicaID, revision := s.revision + 1 }

/-- Propose on the meta shard; there is nothing to skip. -/
def proposeMeta (cmd : MetaCommand) : Change Store MetaCommand where
  apply s cmd := (s.apply cmd,true)
  made _ := false
  cmd := cmd

end Groups

/-- The Raft groups of all shards and the topology. -/
structure Cluster where
  hosted : List Nat
  groups : Nat → Proposals Membership ConfigChange := fun _ => { state := {} }
  topology : Proposals Store MetaCommand := { state := {} }

def Cluster.membership (c : Cluster) (s : Nat) : KeyedMap Nat Str := (c.groups s).state.nodes

/-- What the tries of one call meet, for every shard and for the write to the meta shard,
and what commits in each of them after its part is done and before the call returns. -/
structure Tries where
  shard : Nat → List Attempt
  topology : List Attempt
  lateShard : Nat → List Nat := fun _ => []
  lateTopology : List Nat := []

structure ClusterConfig where
  -- whether a membership changer is configured
  members : Bool
  -- whether the authorizer lets the identity administer the cluster
  authorizer : Str → Bool

inductive ClusterError where
  | unauthorized (identity : Str)
  | membershipDisabled
  | badRequest (text : String)
  | unavailable
  deriving DecidableEq, Repr

/-- What both calls check before they touch a shard. -/
def ClusterConfig.refuses (cfg : ClusterConfig) (identity : Str) (incomplete : Bool) (text : String) :
    Option ClusterError :=
  if cfg.authorizer identity = false then some (.unauthorized identity)
  else if cfg.members = false then some .membershipDisabled
  else if incomplete then some (.badRequest text)
  else none

/-- The fan-out over the hosted shards, each change on its own shard's group, and the
write to the topology once all of them have succeeded. -/
def Cluster.change (c : Cluster) (shard : Change Membership ConfigChange) (cmd : MetaCommand) (tries : Tries) :
    Cluster × Except ClusterError Unit :=
  let after s := shard.retry (c.groups s) (tries.shard s)
  let c := { c with groups := fun s =>
    if s ∈ c.hosted then (after s).1.commitAll shard.apply (tries.lateShard s) else c.groups s }
  if c.hosted.all (fun s => (after s).2) then
    let written := (proposeMeta cmd).retry c.topology tries.topology
    ({ c with topology := written.1.commitAll (proposeMeta cmd).apply tries.lateTopology },
      if written.2 then .ok () else .error .unavailable)
  else (c,.error .unavailable)

def Cluster.addNode (cfg : ClusterConfig) (c : Cluster) (identity : Str) (req : Member) (tries : Tries) :
    Cluster × Except ClusterError Unit :=
  match cfg.refuses identity (req.replicaID == 0 || req.raftAddress == [])
    "replica_id and raft_address are required" with
  | some err => (c,.error err)
  | none => c.change (addReplicaShard req.replicaID req.raftAddress) (.put req) tries

def Cluster.removeNode (cfg : ClusterConfig) (c : Cluster) (identity : Str) (replicaID : Nat) (tries : Tries) :
    Cluster × Except ClusterError Unit :=
  match cfg.refuses identity (replicaID == 0) "replica_id is required" with
  | some err => (c,.error err)
  | none => c.change (removeReplicaShard replicaID) (.delete replicaID) tries

section Harmless

/-- A change that leaves a replica at the address, if it is about this replica at all. -/
def ConfigChange.Keeps (replicaID : Nat) (raftAddr : Str) : ConfigChange → Prop
  | .addNode nodeID address => nodeID = replicaID → address = raftAddr
  | .removeNode nodeID => nodeID ≠ replicaID

def ConfigChange.Adds (replicaID : Nat) : ConfigChange → Prop
  | .addNode nodeID _ => nodeID = replicaID
  | .removeNode _ => False

def MetaCommand.Keeps (replicaID : Nat) (raftAddr : Str) : MetaCommand → Prop
  | .put m => m.replicaID = replicaID → m.raftAddress = raftAddr
  | .delete id => id ≠ replicaID

def MetaCommand.Puts (replicaID : Nat) : MetaCommand → Prop
  | .put m => m.replicaID = replicaID
  | .delete _ => False

/-- Nothing in flight takes the replica from the address: neither in the group of a hosted
shard nor in the meta shard. -/
structure Cluster.Steady (c : Cluster) (replicaID : Nat) (raftAddr : Str) : Prop where
  shards : ∀ s ∈ c.hosted, ∀ cc ∈ (c.groups s).inFlight, cc.Keeps replicaID raftAddr
  topology : ∀ cmd ∈ c.topology.inFlight, cmd.Keeps replicaID raftAddr

/-- Nothing in flight adds the replica. -/
structure Cluster.Barred (c : Cluster) (replicaID : Nat) : Prop where
  shards : ∀ s ∈ c.hosted, ∀ cc ∈ (c.groups s).inFlight, ¬cc.Adds replicaID
  topology : ∀ cmd ∈ c.topology.inFlight, ¬cmd.Puts replicaID

variable {replicaID : Nat} {raftAddr : Str} {m : Membership} {cc : ConfigChange}

private theorem handled_cases (m : Membership) (cc : ConfigChange) :
    (m.handleConfigChange cc).1 = m ∨ (m.handleConfigChange cc).1 = m.apply cc := by
  rw [Membership.handleConfigChange]
  split_ifs
  · exact .inr rfl
  · exact .inl rfl

private theorem handled_accepted (h : (m.handleConfigChange cc).2 = true) :
    (m.handleConfigChange cc).1 = m.apply cc := by
  rw [Membership.handleConfigChange] at h ⊢
  split_ifs at h ⊢
  rfl

private theorem lookup_handled (m : Membership) (hc : cc.Keeps replicaID raftAddr) :
    (m.handleConfigChange cc).1.nodes.lookup replicaID = some raftAddr ∨
      (m.handleConfigChange cc).1.nodes.lookup replicaID = m.nodes.lookup replicaID := by
  rcases handled_cases m cc with h | h
  · exact .inr (by rw [h])
  · rw [h]
    cases cc with
    | addNode nodeID address =>
      rw [Membership.apply,KeyedMap.lookup_insert_eq]
      split_ifs with h
      · exact .inl (by rw [hc h.symm])
      · exact .inr rfl
    | removeNode nodeID =>
      rw [Membership.apply,KeyedMap.lookup_erase_eq,if_neg (Ne.symm hc)]
      exact .inr rfl

private theorem stays_free (m : Membership) (cc : ConfigChange)
    (hm : ∀ addr ∈ m.nodes.lookup replicaID, addr = raftAddr) (hc : cc.Keeps replicaID raftAddr) :
    ∀ addr ∈ (m.handleConfigChange cc).1.nodes.lookup replicaID, addr = raftAddr := by
  rcases lookup_handled m hc with h | h
  · rw [h]
    intro addr ha
    exact (Option.some.inj ha).symm
  · rw [h]
    exact hm

private theorem addReplicaShard_sound (replicaID : Nat) (raftAddr : Str) :
    (addReplicaShard replicaID raftAddr).Sound (ConfigChange.Keeps replicaID raftAddr)
      (fun m => ∀ addr ∈ m.nodes.lookup replicaID, addr = raftAddr)
      (fun m => m.nodes.lookup replicaID = some raftAddr) where
  own := fun _ => rfl
  keeps := stays_free
  read m hm hmade := by
    obtain ⟨addr,ha⟩ := (KeyedMap.mem_iff_lookup m.nodes replicaID).mp (of_decide_eq_true hmade)
    rw [ha,hm addr ha]
  done m _ ha := by
    change (m.handleConfigChange _).1.nodes.lookup replicaID = _
    rw [handled_accepted ha]
    exact AList.lookup_insert _

private theorem stays_at (m : Membership) (cc : ConfigChange) (hm : m.nodes.lookup replicaID = some raftAddr)
    (hc : cc.Keeps replicaID raftAddr) : (m.handleConfigChange cc).1.nodes.lookup replicaID = some raftAddr := by
  rcases lookup_handled m hc with h | h
  · exact h
  · exact h.trans hm

private theorem stays_out (m : Membership) (cc : ConfigChange) (hm : replicaID ∉ m.nodes) (hc : ¬cc.Adds replicaID) :
    replicaID ∉ (m.handleConfigChange cc).1.nodes := by
  rcases handled_cases m cc with h | h
  · rw [h]
    exact hm
  · rw [h]
    cases cc with
    | addNode nodeID address =>
      rw [Membership.apply,AList.mem_insert]
      rintro (he | he)
      · exact hc he.symm
      · exact hm he
    | removeNode nodeID =>
      rw [Membership.apply,AList.mem_erase]
      exact fun he => hm he.2

private theorem removeReplicaShard_sound (replicaID : Nat) :
    (removeReplicaShard replicaID).Sound (fun cc => ¬cc.Adds replicaID) (fun _ => True)
      (fun m => replicaID ∉ m.nodes) where
  own := fun h => h
  keeps _ _ _ _ := trivial
  read _ _ hmade := of_decide_eq_true hmade
  done m _ ha := by
    change replicaID ∉ (m.handleConfigChange _).1.nodes
    rw [handled_accepted ha,removeReplicaShard,Membership.apply,AList.mem_erase]
    exact fun he => he.1 rfl

/-- The topology records the replica at the address. -/
private def Recorded (replicaID : Nat) (raftAddr : Str) (s : Store) : Prop :=
  ∃ m, s.members.lookup replicaID = some m ∧ m.raftAddress = raftAddr

private theorem stays_recorded (s : Store) (cmd : MetaCommand) (hs : Recorded replicaID raftAddr s)
    (hc : cmd.Keeps replicaID raftAddr) : Recorded replicaID raftAddr (s.apply cmd) := by
  cases cmd with
  | put m =>
    rw [Recorded,Store.apply,KeyedMap.lookup_insert_eq]
    split_ifs with h
    · exact ⟨m,rfl,hc h.symm⟩
    · exact hs
  | delete id =>
    rw [Recorded,Store.apply,KeyedMap.lookup_erase_eq,if_neg (Ne.symm hc)]
    exact hs

private theorem put_sound (req : Member) :
    (proposeMeta (.put req)).Sound (MetaCommand.Keeps req.replicaID req.raftAddress) (fun _ => True)
      (Recorded req.replicaID req.raftAddress) where
  own := fun _ => rfl
  keeps _ _ _ _ := trivial
  read _ _ hmade := by cases hmade
  done _ _ _ := ⟨req,AList.lookup_insert _,rfl⟩

private theorem stays_absent (s : Store) (cmd : MetaCommand) (hs : replicaID ∉ s.members) (hc : ¬cmd.Puts replicaID) :
    replicaID ∉ (s.apply cmd).members := by
  cases cmd with
  | put m =>
    rw [Store.apply,AList.mem_insert]
    rintro (he | he)
    · exact hc he.symm
    · exact hs he
  | delete id =>
    rw [Store.apply,AList.mem_erase]
    exact fun he => hs he.2

private theorem delete_sound (replicaID : Nat) :
    (proposeMeta (.delete replicaID)).Sound (fun cmd => ¬cmd.Puts replicaID) (fun _ => True)
      (fun s => replicaID ∉ s.members) where
  own := fun h => h
  keeps _ _ _ _ := trivial
  read _ _ hmade := by cases hmade
  done s _ _ := by
    change replicaID ∉ s.members.erase replicaID
    rw [AList.mem_erase]
    exact fun he => he.1 rfl

end Harmless

section Agreement
variable {cfg : ClusterConfig} {c c' : Cluster} {identity : Str} {tries : Tries}

private theorem change_state (c : Cluster) (shard : Change Membership ConfigChange) (cmd : MetaCommand)
    (tries : Tries) :
    (c.change shard cmd tries).1.hosted = c.hosted ∧
    (∀ s ∈ c.hosted, (c.change shard cmd tries).1.groups s =
      (shard.retry (c.groups s) (tries.shard s)).1.commitAll shard.apply (tries.lateShard s)) ∧
    ((c.change shard cmd tries).1.topology = c.topology ∨
      (c.change shard cmd tries).1.topology = ((proposeMeta cmd).retry c.topology tries.topology).1.commitAll
        (proposeMeta cmd).apply tries.lateTopology) := by
  unfold Cluster.change
  dsimp only
  split
  · exact ⟨rfl,fun s hs => if_pos hs,.inr rfl⟩
  · exact ⟨rfl,fun s hs => if_pos hs,.inl rfl⟩

private theorem change_ok {shard : Change Membership ConfigChange} {cmd : MetaCommand}
    (h : c.change shard cmd tries = (c',.ok ())) :
    (∀ s ∈ c.hosted, (shard.retry (c.groups s) (tries.shard s)).2 = true ∧
      c'.groups s = (shard.retry (c.groups s) (tries.shard s)).1.commitAll shard.apply (tries.lateShard s)) ∧
    ((proposeMeta cmd).retry c.topology tries.topology).2 = true ∧
    c'.topology = ((proposeMeta cmd).retry c.topology tries.topology).1.commitAll (proposeMeta cmd).apply
      tries.lateTopology := by
  unfold Cluster.change at h
  dsimp only at h
  split at h
  case isFalse => cases h
  case isTrue hall =>
    rw [List.all_eq_true] at hall
    split at h
    case isFalse => cases h
    case isTrue hw =>
      cases h
      exact ⟨fun s hs => ⟨hall s hs,if_pos hs⟩,hw,rfl⟩

private theorem change_made {shard : Change Membership ConfigChange} {cmd : MetaCommand}
    {H : ConfigChange → Prop} {P Q : Membership → Prop} {H' : MetaCommand → Prop} {Q' : Store → Prop}
    (hshard : shard.Sound H P Q) (hQ : ∀ m cc, Q m → H cc → Q (shard.apply m cc).1)
    (hmeta : (proposeMeta cmd).Sound H' (fun _ => True) Q') (hQ' : ∀ s cmd, Q' s → H' cmd → Q' (s.apply cmd))
    (hgroups : ∀ s ∈ c.hosted, (c.groups s).Calm H P) (htop : ∀ cmd ∈ c.topology.inFlight, H' cmd)
    (h : c.change shard cmd tries = (c',.ok ())) :
    (∀ s ∈ c.hosted, Q (c'.groups s).state) ∧ Q' c'.topology.state := by
  obtain ⟨hshards,hok,htopology⟩ := change_ok h
  refine ⟨fun s hs => ?_,?_⟩
  · have hcalm := (Change.retry_calm hshard (hgroups s hs) (tries.shard s)).2 (hshards s hs).1
    rw [(hshards s hs).2]
    exact (hcalm.commitAll hQ (tries.lateShard s)).state
  · have hcalm := (Change.retry_calm hmeta ⟨trivial,htop⟩ tries.topology).2 hok
    rw [htopology]
    exact (hcalm.commitAll hQ' tries.lateTopology).state

private theorem change_ok_of {shard : Change Membership ConfigChange} {cmd : MetaCommand}
    (hs : ∀ s ∈ c.hosted, (shard.retry (c.groups s) (tries.shard s)).2 = true)
    (ht : ((proposeMeta cmd).retry c.topology tries.topology).2 = true) :
    ∃ c', c.change shard cmd tries = (c',.ok ()) := by
  unfold Cluster.change
  dsimp only
  rw [if_pos (List.all_eq_true.mpr hs),ht]
  exact ⟨_,rfl⟩

private theorem refuses_eq_none {incomplete : Bool} {text : String} : cfg.refuses identity incomplete text = none ↔
    cfg.authorizer identity = true ∧ cfg.members = true ∧ incomplete = false := by
  unfold ClusterConfig.refuses
  split_ifs <;> simp_all

private theorem addNode_eq {req : Member} (ha : cfg.authorizer identity = true) (hm : cfg.members = true)
    (hr : req.replicaID ≠ 0) (hd : req.raftAddress ≠ []) : c.addNode cfg identity req tries =
      c.change (addReplicaShard req.replicaID req.raftAddress) (.put req) tries := by
  have := @refuses_eq_none cfg identity (req.replicaID == 0 || req.raftAddress == [])
    "replica_id and raft_address are required"
  rw [Cluster.addNode,this.mpr ⟨ha,hm,by simp [hr,hd]⟩]

section Calls

/-- The replica is at the address or nowhere, and nothing in flight changes that. -/
structure Cluster.Reserved (c : Cluster) (replicaID : Nat) (raftAddr : Str) : Prop
    extends c.Steady replicaID raftAddr where
  free : ∀ s ∈ c.hosted, ∀ addr ∈ (c.membership s).lookup replicaID, addr = raftAddr

inductive Call where
  | addNode (identity : Str) (req : Member) (tries : Tries)
  | removeNode (identity : Str) (replicaID : Nat) (tries : Tries)

def Cluster.call (cfg : ClusterConfig) (c : Cluster) : Call → Cluster × Except ClusterError Unit
  | .addNode identity req tries => c.addNode cfg identity req tries
  | .removeNode identity replicaID tries => c.removeNode cfg identity replicaID tries

/-- A call about another replica, or one that adds this one at the address. -/
def Call.Keeps (replicaID : Nat) (raftAddr : Str) : Call → Prop
  | .addNode _ req _ => req.replicaID = replicaID → req.raftAddress = raftAddr
  | .removeNode _ id _ => id ≠ replicaID

variable {replicaID : Nat} {raftAddr : Str}

private theorem Cluster.Reserved.change (h : c.Reserved replicaID raftAddr) (shard : Change Membership ConfigChange)
    (ha : shard.apply = Membership.handleConfigChange) (hs : shard.cmd.Keeps replicaID raftAddr) (cmd : MetaCommand)
    (hc : cmd.Keeps replicaID raftAddr) : (c.change shard cmd tries).1.Reserved replicaID raftAddr := by
  have hshard : shard.Sound (ConfigChange.Keeps replicaID raftAddr)
      (fun m => ∀ addr ∈ m.nodes.lookup replicaID, addr = raftAddr) (fun _ => True) :=
    ⟨hs,ha ▸ stays_free,fun _ _ _ => trivial,fun _ _ _ => trivial⟩
  have hmeta : (proposeMeta cmd).Sound (MetaCommand.Keeps replicaID raftAddr) (fun _ => True) (fun _ => True) :=
    ⟨hc,fun _ _ _ _ => trivial,fun _ _ _ => trivial,fun _ _ _ => trivial⟩
  have hgroups : ∀ s ∈ c.hosted, ((shard.retry (c.groups s) (tries.shard s)).1.commitAll shard.apply
      (tries.lateShard s)).Calm (ConfigChange.Keeps replicaID raftAddr)
      (fun m => ∀ addr ∈ m.nodes.lookup replicaID, addr = raftAddr) := fun s hs =>
    (Change.retry_calm hshard ⟨h.free s hs,h.shards s hs⟩ (tries.shard s)).1.commitAll hshard.keeps _
  have htop : (((proposeMeta cmd).retry c.topology tries.topology).1.commitAll (proposeMeta cmd).apply
      tries.lateTopology).Calm (MetaCommand.Keeps replicaID raftAddr) (fun _ => True) :=
    (Change.retry_calm hmeta ⟨trivial,h.topology⟩ tries.topology).1.commitAll hmeta.keeps _
  obtain ⟨hh,hg,ht⟩ := change_state c shard cmd tries
  refine ⟨⟨fun s hs => ?_,?_⟩,fun s hs => ?_⟩
  · rw [hh] at hs
    rw [hg s hs]
    exact (hgroups s hs).inFlight
  · rcases ht with ht | ht
    · rw [ht]
      exact h.topology
    · rw [ht]
      exact htop.inFlight
  · rw [hh] at hs
    rw [Cluster.membership,hg s hs]
    exact (hgroups s hs).state

private theorem Cluster.Reserved.call (h : c.Reserved replicaID raftAddr) {call : Call}
    (hk : call.Keeps replicaID raftAddr) : (c.call cfg call).1.Reserved replicaID raftAddr := by
  cases call with
  | addNode identity req tries =>
    rw [Cluster.call,Cluster.addNode]
    split
    · exact h
    · exact h.change (addReplicaShard req.replicaID req.raftAddress) rfl hk (.put req) hk
  | removeNode identity id tries =>
    rw [Cluster.call,Cluster.removeNode]
    split
    · exact h
    · exact h.change (removeReplicaShard id) rfl hk (.delete id) hk

/-- While every call about a replica adds it at one address, however the calls end, it is
at no other one and nothing in flight brings it to another. -/
theorem calls_keep_reserved (h : c.Reserved replicaID raftAddr) {calls : List Call}
    (hk : ∀ call ∈ calls, call.Keeps replicaID raftAddr) :
    (calls.foldl (fun c call => (c.call cfg call).1) c).Reserved replicaID raftAddr := by
  induction calls generalizing c with
  | nil => exact h
  | cons call calls ih =>
    exact ih (h.call (hk call List.mem_cons_self)) (fun d hd => hk d (List.mem_cons_of_mem _ hd))

end Calls

private theorem shortcut {req : Member} {s : Nat} (hmem : req.replicaID ∈ c.membership s)
    (h : c.change (addReplicaShard req.replicaID req.raftAddress) (.put req) tries = (c',.ok ())) :
    ∃ tries' c'', c.change (addReplicaShard req.replicaID req.raftAddress) (.put req) tries' = (c'',.ok ()) ∧
      (s ∈ c.hosted → c''.groups s = c.groups s) := by
  -- a shard that has the replica answers at once and keeps it where it is
  obtain ⟨hshards,htop,-⟩ := change_ok h
  have hmade : (addReplicaShard req.replicaID req.raftAddress).made (c.groups s).state = true := decide_eq_true hmem
  let tries' : Tries :=
    { shard := Function.update tries.shard s [.reached true [] .committed true], topology := tries.topology }
  have hall : ∀ t ∈ c.hosted,
      ((addReplicaShard req.replicaID req.raftAddress).retry (c.groups t) (tries'.shard t)).2 = true := by
    intro t ht
    change (Change.retry _ (c.groups t) (Function.update tries.shard s _ t)).2 = true
    rcases eq_or_ne t s with rfl | hne
    · rw [Function.update_self,Change.retry_made hmade]
    · rw [Function.update_of_ne hne]
      exact (hshards t ht).1
  obtain ⟨c'',hc⟩ := change_ok_of hall htop
  refine ⟨tries',c'',hc,fun hs => ?_⟩
  rw [((change_ok hc).1 s hs).2,show tries'.shard s = [.reached true [] .committed true] from Function.update_self ..,
    Change.retry_made hmade]
  rfl

/-- An accepted AddNode that succeeds makes every Raft group and the topology agree,
however its tries go and whatever commits late, exactly if no hosted shard already has
the replica at another address (or the call cannot succeed at all). This is so while
nothing in flight takes the replica from the address. After a RemoveNode that succeeds
the replica is nowhere, while nothing in flight adds it. -/
theorem addNode_agrees_iff {req : Member} (ha : cfg.authorizer identity = true) (hm : cfg.members = true)
    (hr : req.replicaID ≠ 0) (hd : req.raftAddress ≠ []) :
    (c.Steady req.replicaID req.raftAddress →
      ((∀ tries c', c.addNode cfg identity req tries = (c',.ok ()) →
          (∀ s ∈ c.hosted, (c'.membership s).lookup req.replicaID = some req.raftAddress) ∧
          ∃ m, c'.topology.state.members.lookup req.replicaID = some m ∧ m.raftAddress = req.raftAddress) ↔
        (∀ s ∈ c.hosted, ∀ addr ∈ (c.membership s).lookup req.replicaID, addr = req.raftAddress) ∨
          ∀ tries c', c.addNode cfg identity req tries ≠ (c',.ok ()))) ∧
    ∀ replicaID, c.Barred replicaID → ∀ tries c', c.removeNode cfg identity replicaID tries = (c',.ok ()) →
      (∀ s ∈ c.hosted, replicaID ∉ c'.membership s) ∧ replicaID ∉ c'.topology.state.members := by
  simp only [addNode_eq ha hm hr hd]
  refine ⟨fun hsteady => ⟨fun h => ?_,?_⟩,fun replicaID hbarred tries c' hc => ?_⟩
  · rw [or_iff_not_imp_right]
    intro hcan s hs addr haddr
    simp only [ne_eq,not_forall,not_not] at hcan
    obtain ⟨tries,c',hc⟩ := hcan
    have hin : req.replicaID ∈ c.membership s := (KeyedMap.mem_iff_lookup _ _).mpr ⟨addr,haddr⟩
    obtain ⟨tries',c'',hc',hsame⟩ := shortcut hin hc
    have hagree := (h tries' c'' hc').1 s hs
    rw [Cluster.membership,hsame hs] at hagree
    exact Option.some.inj (haddr.symm.trans hagree)
  · rintro (hfree | hnone) tries c' hc
    · exact change_made (addReplicaShard_sound req.replicaID req.raftAddress) stays_at (put_sound req) stays_recorded
        (fun s hs => ⟨hfree s hs,hsteady.shards s hs⟩) hsteady.topology hc
    · exact absurd hc (hnone tries c')
  · unfold Cluster.removeNode at hc
    split at hc
    · cases hc
    · exact change_made (removeReplicaShard_sound replicaID) stays_out (delete_sound replicaID) stays_absent
        (fun s hs => ⟨trivial,hbarred.shards s hs⟩) hbarred.topology hc

private theorem ends_with {x : Cluster × Except ClusterError Unit} {r : Except ClusterError Unit} (h : x.2 = r) :
    x = (x.1,r) := Prod.ext rfl h

private def openCluster : ClusterConfig := ⟨true,fun _ => true⟩

/-- A cluster of one node. -/
private def oneNode : Cluster :=
  { hosted := [1,9], groups := fun _ => { state := { nodes := AList.singleton 1 (str "host:0") } } }

private def smooth : Tries where
  shard := fun _ => [.reached true [] .committed true]
  topology := [.reached true [] .committed true]

/-- The request to shard 1 times out. -/
private def timedOut : Tries where
  shard := fun s => if s = 9 then [.reached true [] .committed true] else [.reached true [] (.failed true) true]
  topology := []

/-- The next one is dropped because of the one in flight, which then commits. -/
private def lateCommit : Tries :=
  { shard := fun _ => [.noRoute,.reached true [] (.failed false) true,.late 0,.reached true [] .committed true],
    topology := [.reached true [] .committed true] }

/-- A retry after a call that got through to one shard of two; its change in the other
commits late. -/
theorem retried_addNode_agrees :
    let node : Member := ⟨3,str "host:1",[],[]⟩
    let c := (oneNode.addNode openCluster (str "op") node timedOut).1
    (c.groups 1).inFlight.length = 1 ∧ ∃ c', c.addNode openCluster (str "op") node lateCommit = (c',.ok ()) ∧
      ∀ s ∈ [1,9], (c'.membership s).lookup 3 = some (str "host:1") := by
  intro node c
  have hstart : oneNode.Reserved 3 (str "host:1") :=
    ⟨⟨fun _ _ _ hcc => (by cases hcc),fun _ hcmd => (by cases hcmd)⟩,by decide⟩
  have hc : c.Reserved 3 (str "host:1") :=
    @calls_keep_reserved openCluster oneNode 3 (str "host:1") hstart [.addNode (str "op") node timedOut]
      (fun call hcall => by rw [List.mem_singleton.mp hcall]; exact fun _ => rfl)
  have hok : (c.addNode openCluster (str "op") node lateCommit).2 = .ok () := by decide +kernel
  have h := (@addNode_agrees_iff openCluster c (str "op") node rfl rfl (by decide) (by decide)).1 hc.toSteady
  exact ⟨by decide +kernel,_,ends_with hok,(h.mpr (.inl hc.free) lateCommit _ (ends_with hok)).1⟩

/-- A node added again with a new address: the Raft group keeps the old one, the
topology has the new one, and the call succeeds. The same with a change of the first
call that commits only during the second. One that commits after a RemoveNode undoes it. -/
theorem readded_node_keeps_old_address :
    let old : Member := ⟨3,str "host:1",[],[]⟩
    let new : Member := ⟨3,str "host:2",[],[]⟩
    (∃ c c', oneNode.addNode openCluster (str "op") old smooth = (c,.ok ()) ∧
      c.addNode openCluster (str "op") new smooth = (c',.ok ()) ∧
      (c'.membership 1).lookup 3 = some (str "host:1") ∧
      (c'.topology.state.members.lookup 3).map Member.raftAddress = some (str "host:2")) ∧
    (∃ c c', Cluster.addNode openCluster { oneNode with hosted := [1] } (str "op") old timedOut =
        (c,.error .unavailable) ∧ 3 ∉ c.membership 1 ∧
      c.addNode openCluster (str "op") new lateCommit = (c',.ok ()) ∧
      (c'.membership 1).lookup 3 = some (str "host:1") ∧
      (c'.topology.state.members.lookup 3).map Member.raftAddress = some (str "host:2")) ∧
    ∃ c c', Cluster.addNode openCluster { oneNode with hosted := [1] } (str "op") old timedOut =
        (c,.error .unavailable) ∧
      c.removeNode openCluster (str "op") 3 { smooth with lateShard := fun _ => [0] } = (c',.ok ()) ∧
      (c'.membership 1).lookup 3 = some (str "host:1") := by
  intro old new
  refine ⟨⟨_,_,ends_with ?_,ends_with ?_,?_,?_⟩,⟨_,_,ends_with ?_,?_,ends_with ?_,?_,?_⟩,
    _,_,ends_with ?_,ends_with ?_,?_⟩
  all_goals decide +kernel

end Agreement
end Zuul.Raft
