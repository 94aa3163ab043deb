import Zuul.Dragonboat.Handlers

/-! The group as a whole: no order of steps makes a node panic, and what nodes commit is
one sequence. -/
namespace Zuul.Dragonboat
open Lib Lib.LeaderLog

variable {members : List Nat} {boot i j : Nat} {p p' : History} {r : Raft} {s s' : Sys} {a : Act}

/-- Every node and every message stands to the history as it should. -/
structure Sys.Ok (members : List Nat) (boot : Nat) (p : History) (s : Sys) : Prop where
  world : World members boot p
  nodes : ∀ i ∈ members, At members boot p i (s.nodes i)
  net : ∀ m ∈ s.net, Sent members p m

/-- One step of the group, with what it adds to the history. No node takes back a commit. -/
def Sys.Goes (members : List Nat) (boot : Nat) (p : History) (s : Sys) (x : Option Sys) : Prop :=
  ∃ s' p', x = some s' ∧ Grows p p' ∧ s'.Ok members boot p' ∧
    ∀ i ∈ members, (s.nodes i).log.committed ≤ (s'.nodes i).log.committed

section Step

private theorem At.commitUpdate (h : At members boot p i r) : At members boot p i r.commitUpdate :=
  ⟨h.world,{ h.node with msgs := fun _ hm => (by cases hm) },h.self⟩

/-- All that is said of a node with the entries up to boot committed holds with more. -/
theorem At.raise (h : At members boot p i r) : At members r.log.committed p i r where
  world := { h.world with
    shaped := fun hL => ⟨(h.world.shaped hL).numbered,fun e he ht =>
      Nat.le_trans ((h.world.shaped hL).changes e he ht) h.node.boot⟩ }
  node := { h.node with boot := Nat.le_refl _ }
  self := h.self

private theorem Sys.Ok.run {f : Raft → Option Raft} (h : s.Ok members boot p) (hi : i ∈ members)
    (hf : ∀ {low}, At members low p i (s.nodes i) → Does members low p i (f (s.nodes i)) (fun _ => True)) :
    Goes members boot p s (s.run i f) := by
  obtain ⟨r,p',he,hm,ha,-⟩ := hf (h.nodes i hi)
  obtain ⟨r',p'',he',-,ha',-⟩ := hf (h.nodes i hi).raise
  cases he.symm.trans he'
  have hg := (h.world.grows hm).2
  rw [Sys.run,he]
  refine ⟨_,p',rfl,hg,⟨ha.world,fun j hj => ?_,fun m hm' => ?_⟩,fun j hj => ?_⟩
  · change At members boot p' j (Function.update s.nodes i r.commitUpdate j)
    rcases eq_or_ne j i with rfl | hne
    · rw [Function.update_self]
      exact ha.commitUpdate
    · rw [Function.update_of_ne hne]
      have hj' := h.nodes j hj
      exact ⟨ha.world,hj'.node.other hm hg (by rw [hj'.self]; exact hne),hj'.self⟩
  · rcases List.mem_append.mp hm' with hm' | hm'
    · exact (h.net m hm').grows hg
    · exact ha.node.msgs m hm'
  · change (s.nodes j).log.committed ≤ (Function.update s.nodes i r.commitUpdate j).log.committed
    rcases eq_or_ne j i with rfl | hne
    · rw [Function.update_self]
      exact ha'.node.boot
    · rw [Function.update_of_ne hne]

private theorem At.restoreRemotes (h : At members boot p i r) :
    Does members boot p i (some (r.restoreRemotes members)) (fun _ => True) := by
  obtain rfl := h.self
  have hlookup : ∀ j, (KeyedMap.fill id (fun id : Nat =>
      ({ next := r.log.lastIndex + 1, matched := if id = r.nodeID then r.log.lastIndex else 0 } : Remote)) members ∅).lookup j =
      if j ∈ members then some { next := r.log.lastIndex + 1, matched := if j = r.nodeID then r.log.lastIndex else 0 }
      else none := by
    intro j
    by_cases hj : j ∈ members
    · rw [if_pos hj]
      exact KeyedMap.fill_lookup_mem id _ members ∅ (by rw [List.map_id]; exact h.world.nodup) j hj
    · rw [if_neg hj]
      exact KeyedMap.fill_lookup_other id _ members ∅ j (fun k hk he => hj (he ▸ hk))
  have ha : At members boot p r.nodeID { r with remotes := KeyedMap.fill id (fun id : Nat =>
      ({ next := r.log.lastIndex + 1, matched := if id = r.nodeID then r.log.lastIndex else 0 } : Remote)) members ∅ } := by
    refine h.setRemotes (fun j => ?_) (fun hl j rm hj => ?_)
    · rw [KeyedMap.mem_iff_lookup,hlookup]
      split_ifs with hj <;> simp [hj]
    · rw [hlookup] at hj
      obtain ⟨-,hj⟩ := Option.ite_none_right_eq_some.mp hj
      cases hj
      refine remoteOk_fresh (fun hself => ?_)
      rw [hself,h.node.shows.lastIndex]
      exact (h.node.leader hl).2.2.2.1
  rw [Raft.restoreRemotes]
  dsimp only
  split_ifs
  · exact (ha.becomeFollower (Nat.le_refl _) noLeader).mono (fun _ _ => trivial)
  · exact ha.does trivial

private theorem At.unreachable (h : At members boot p i r) (j : Nat) :
    Does members boot p i (r.handle { type := .unreachable, sender := j }) (fun _ => True) := by
  rw [handle_of_term_zero _ rfl,Raft.defaultHandle]
  cases hs : r.state with
  | follower => exact h.does trivial
  | candidate => exact h.does trivial
  | leader => exact h.lw (fun rp hrp => h.handleLeaderUnreachable hs hrp)

private theorem At.snapshotStatus (h : At members boot p i r) (j ticks : Nat) (reject : Bool) :
    Does members boot p i (r.handle { type := .snapshotStatus, sender := j, hint := ticks, reject })
      (fun _ => True) := by
  rw [handle_of_term_zero _ rfl,Raft.defaultHandle]
  cases hs : r.state with
  | follower => exact h.does trivial
  | candidate => exact h.does trivial
  | leader => exact h.lw (fun rp hrp => h.handleLeaderSnapshotStatus hs hrp)

private theorem At.applyConfigChange (h : At members boot p i r) (hj : j ∈ members) :
    Does members boot p i (r.handle { type := .configChangeEvent, hint := j }) (fun _ => True) := by
  rw [handle_of_term_zero _ rfl]
  change Does members _ p i (some (r.addNode j)) _
  rw [Raft.addNode,if_pos ((h.node.remotes j).mpr hj)]
  exact At.does ⟨h.world,{ h.node with member := h.node.member },h.self⟩ trivial

private theorem At.rejectConfigChange (h : At members boot p i r) :
    Does members boot p i (r.handle { type := .configChangeEvent, reject := true }) (fun _ => True) := by
  rw [handle_of_term_zero _ rfl]
  exact At.does ⟨h.world,{ h.node with member := h.node.member },h.self⟩ trivial

private theorem At.process {n : Nat} (h : At members boot p i r) (hn : r.log.processed ≤ n)
    (hc : n ≤ r.log.committed) : At members boot p i { r with log := { r.log with processed := n } } := by
  refine ⟨h.world,?_,h.self⟩
  exact { h.node with
    shows := ⟨h.node.shows.marker,h.node.shows.term,h.node.shows.entries⟩
    applied := Nat.le_trans h.node.applied hn
    processed := hc }

private theorem At.createSnapshot {n : Nat} (h : At members boot p i r) (hn : n ≤ r.applied)
    (hm : r.log.markerIndex ≤ n) :
    At members boot p i { r with log := { r.log with snapshot := ⟨n,r.log.term n⟩ } } := by
  have hle : n ≤ r.log.committed := Nat.le_trans hn (Nat.le_trans h.node.applied h.node.processed)
  refine ⟨h.world,?_,h.self⟩
  exact { h.node with
    shows := ⟨h.node.shows.marker,h.node.shows.term,h.node.shows.entries⟩
    marker := hm
    snapshot := hle
    snapshotTerm := h.node.shows.term_eq hm (Nat.le_trans hle h.node.committed) }

private theorem At.compact {n : Nat} (h : At members boot p i r) (hm : r.log.markerIndex ≤ n)
    (hn : n ≤ r.log.snapshot.index) : At members boot p i { r with log := r.log.compact n } := by
  have hshows := h.node.shows.compact hm (Nat.le_trans hn (Nat.le_trans h.node.snapshot h.node.committed))
  have hlast : (r.log.compact n).lastIndex = r.log.lastIndex := by rw [hshows.lastIndex,h.node.shows.lastIndex]
  refine ⟨h.world,?_,h.self⟩
  exact { h.node with
    shows := hshows
    marker := hn
    leader := fun hl => by
      obtain ⟨h1,h2,h3,h4,h5⟩ := h.node.leader hl
      exact ⟨h1,h2,h3,h4,fun j rm hj => hlast ▸ h5 j rm hj⟩ }

private theorem Sys.Ok.step (h : s.Ok members boot p) (ha : s.enabled members a) :
    Goes members boot p s (s.step members a) := by
  cases a with
  | deliver k =>
    obtain ⟨m,hm,hd⟩ := ha
    rw [Sys.step,hm]
    change Goes members boot p s (s.run m.dest (fun r => r.peerHandle m))
    exact h.run hd (fun hi => hi.peerHandle (h.net m (List.mem_of_getElem? hm)) rfl)
  | tick i =>
    rw [Sys.step]
    refine h.run ha (fun hi => ?_)
    rw [handle_of_term_zero _ rfl]
    exact hi.tick
  | propose i entries =>
    rw [Sys.step]
    refine h.run ha.1 (fun hi => ?_)
    rw [handle_of_term_zero _ rfl]
    exact hi.propose rfl rfl ha.2
  | read i ctx =>
    rw [Sys.step]
    refine h.run ha (fun hi => ?_)
    rw [handle_of_term_zero _ rfl]
    exact hi.readIndex rfl rfl
  | transfer i target =>
    rw [Sys.step]
    refine h.run ha.1 (fun hi => ?_)
    rw [handle_of_term_zero _ rfl]
    exact hi.leaderTransfer rfl rfl ha.2
  | unreachable i j =>
    rw [Sys.step]
    exact h.run ha (fun hi => hi.unreachable j)
  | snapshotStatus i j ticks reject =>
    rw [Sys.step]
    exact h.run ha (fun hi => hi.snapshotStatus j ticks reject)
  | applyConfigChange i j =>
    rw [Sys.step]
    exact h.run ha.1 (fun hi => hi.applyConfigChange ha.2)
  | rejectConfigChange i =>
    rw [Sys.step]
    exact h.run ha (fun hi => hi.rejectConfigChange)
  | restoreRemotes i =>
    rw [Sys.step]
    exact h.run ha (fun hi => hi.restoreRemotes)
  | process i n =>
    rw [Sys.step]
    exact h.run ha.1 (fun hi => (hi.process ha.2.1 ha.2.2).does trivial)
  | applied i n =>
    rw [Sys.step]
    exact h.run ha.1 (fun hi => At.does ⟨hi.world,{ hi.node with applied := ha.2.2 },hi.self⟩ trivial)
  | createSnapshot i n =>
    rw [Sys.step]
    exact h.run ha.1 (fun hi => (hi.createSnapshot ha.2.2.1 ha.2.2.2).does trivial)
  | compact i n =>
    rw [Sys.step]
    exact h.run ha.1 (fun hi => (hi.compact ha.2.1 ha.2.2).does trivial)

end Step

section Start
variable {addresses : List Raft.PeerAddress}

private theorem bootstrapEntries_length (addresses : List Raft.PeerAddress) :
    (Raft.bootstrapEntries addresses).length = addresses.length := List.length_mapIdx

private theorem bootstrapEntries_term : ∀ e ∈ Raft.bootstrapEntries addresses, e.term = 1 := by
  intro e he
  obtain ⟨k,hk,rfl⟩ := List.mem_mapIdx.mp he
  rfl

private theorem bootstrapEntries_shaped : Shaped addresses.length (Raft.bootstrapEntries addresses) := by
  constructor
  · rw [numbered_iff]
    intro k e he
    rw [Raft.bootstrapEntries,List.getElem?_mapIdx] at he
    obtain ⟨peer,-,rfl⟩ := Option.map_eq_some_iff.mp he
    rfl
  · intro e he _
    obtain ⟨k,hk,rfl⟩ := List.mem_mapIdx.mp he
    exact hk

private theorem foldl_addNode (r : Raft) (addresses : List Raft.PeerAddress) :
    ∃ remotes pending, addresses.foldl (fun r peer => r.addNode peer.nodeID) r =
        { r with remotes, pendingConfigChange := pending } ∧
      ∀ j, j ∈ remotes ↔ j ∈ r.remotes ∨ j ∈ addresses.map Raft.PeerAddress.nodeID := by
  induction addresses generalizing r with
  | nil => exact ⟨r.remotes,r.pendingConfigChange,rfl,fun j => by simp⟩
  | cons peer addresses ih =>
    obtain ⟨remotes,pending,he,hmem⟩ := ih (r.addNode peer.nodeID)
    refine ⟨remotes,pending,?_,fun j => ?_⟩
    · rw [List.foldl_cons,he,Raft.addNode]
      dsimp only
      split_ifs <;> rfl
    · rw [hmem,List.map_cons,List.mem_cons,Raft.addNode]
      dsimp only
      split_ifs with hin
      · exact ⟨fun hx => hx.imp_right .inr,fun hx => hx.elim .inl (fun hx => hx.elim (fun he => .inl (he ▸ hin)) .inr)⟩
      · rw [Raft.setRemote,AList.mem_insert]
        exact or_assoc.trans or_left_comm

private theorem append_bootstrapEntries (addresses : List Raft.PeerAddress) :
    EntryLog.append {} (Raft.bootstrapEntries addresses) = some { entries := Raft.bootstrapEntries addresses } := by
  cases addresses with
  | nil => rfl
  | cons peer addresses =>
    rw [Raft.bootstrapEntries,List.mapIdx_cons,EntryLog.append]
    rfl

/-- A new node before it knows the others. -/
private def fresh (i : Nat) (rand : Nat → Nat) (addresses : List Raft.PeerAddress) : Raft :=
  { ((({ nodeID := i, rand } : Raft).becomeFollower 0 noLeader).becomeFollower 1 noLeader) with
    log := { entries := Raft.bootstrapEntries addresses, committed := addresses.length } }

/-- A new node is at the start of the history. -/
theorem launch_at (rand : Nat → Nat) (hw : World (addresses.map Raft.PeerAddress.nodeID) addresses.length
      (State.start 1 (Raft.bootstrapEntries addresses))) (hi : i ∈ addresses.map Raft.PeerAddress.nodeID) :
    ∃ r, Raft.launch i rand addresses = some r ∧ At (addresses.map Raft.PeerAddress.nodeID) addresses.length
      (State.start 1 (Raft.bootstrapEntries addresses)) i r := by
  obtain ⟨remotes,pending,he,hmem⟩ := foldl_addNode (fresh i rand addresses) addresses
  have hlaunch : Raft.launch i rand addresses =
      some (addresses.foldl (fun r peer => r.addNode peer.nodeID) (fresh i rand addresses)) := by
    rw [Raft.launch,Raft.bootstrap]
    change (EntryLog.append {} (Raft.bootstrapEntries addresses)).bind _ = _
    rw [append_bootstrapEntries]
    rfl
  have hnone : ∀ j, j ∉ (fresh i rand addresses).remotes := fun j hj => List.not_mem_nil (show j ∈ [] from hj)
  have hlen : addresses.length ≤ (Raft.bootstrapEntries addresses).length := Nat.le_of_eq (bootstrapEntries_length addresses).symm
  refine ⟨_,hlaunch,?_⟩
  rw [he]
  refine ⟨hw,?_,rfl⟩
  exact {
    member := hi
    remotes := fun j => (hmem j).trans (or_iff_right (hnone j))
    timeout := Nat.zero_lt_succ 9
    term := rfl
    vote := rfl
    shows := ⟨Nat.zero_le _,rfl,rfl⟩
    marker := Nat.le_refl _
    snapshot := Nat.zero_le _
    snapshotTerm := rfl
    applied := Nat.le_refl _
    processed := Nat.zero_le _
    boot := Nat.le_refl _
    committed := hlen
    settled := ⟨1,Nat.le_refl _,_,rfl,List.take_isPrefix_take.mpr (.inl hlen)⟩
    reads := ReadIndex.ok_empty _
    msgs := fun _ hm => (by cases hm)
    candidate := fun hc => (by cases hc)
    leader := fun hl => (by cases hl) }

/-- The nodes a group can be started with. -/
structure Founders (addresses : List Raft.PeerAddress) : Prop where
  nonempty : addresses ≠ []
  distinct : (addresses.map Raft.PeerAddress.nodeID).Nodup
  nodes : ∀ peer ∈ addresses, peer.nodeID ≠ noNode

private theorem Founders.world (h : Founders addresses) : World (addresses.map Raft.PeerAddress.nodeID) addresses.length
    (State.start 1 (Raft.bootstrapEntries addresses)) where
  nodup := h.distinct
  nodes i hi := by
    obtain ⟨peer,hp,rfl⟩ := List.mem_map.mp hi
    exact h.nodes peer hp
  inv := by
    have hlen := List.length_pos_iff.mpr h.nonempty
    refine Inv.start Nat.one_pos (fun he => ?_) bootstrapEntries_term ⟨_,h.distinct,fun i hi => ⟨hi,trivial⟩,?_⟩
    · have := bootstrapEntries_length addresses
      rw [he] at this
      exact absurd this.symm (Nat.ne_of_gt hlen)
    · rw [List.length_map]
      omega
  shaped := by
    intro T L hL
    change (if T = 1 then some (Raft.bootstrapEntries addresses) else none) = some L at hL
    obtain ⟨-,hL⟩ := Option.ite_none_right_eq_some.mp hL
    exact Option.some.inj hL ▸ bootstrapEntries_shaped

private theorem Founders.ok (h : Founders addresses) (rand : Nat → Nat → Nat) :
    (initial rand addresses).Ok (addresses.map Raft.PeerAddress.nodeID) addresses.length
      (State.start 1 (Raft.bootstrapEntries addresses)) where
  world := h.world
  nodes i hi := by
    obtain ⟨r,hr,ha⟩ := launch_at (rand i) h.world hi
    change At _ _ _ i ((Raft.launch i (rand i) addresses).getD { nodeID := i })
    rw [hr]
    exact ha
  net _ hm := by cases hm

end Start

section Runs

/-- The states of a group that its steps lead to. -/
abbrev Sys.Reaches (members : List Nat) : Sys → Sys → Prop :=
  Lib.Reaches (fun s a => Sys.step members s a) (fun s a => Sys.enabled members s a)

private theorem Sys.Ok.reaches (h : s.Ok members boot p) (hr : Sys.Reaches members s s') :
    ∃ p', Grows p p' ∧ s'.Ok members boot p' ∧ ∀ i ∈ members, (s.nodes i).log.committed ≤ (s'.nodes i).log.committed := by
  induction hr with
  | init => exact ⟨p,.refl p,h,fun _ _ => Nat.le_refl _⟩
  | step _ ha hn ih =>
    obtain ⟨p',hg,hok,hle⟩ := ih
    obtain ⟨s'',p'',he,hg',hok',hle'⟩ := hok.step ha
    cases hn.symm.trans he
    exact ⟨p'',hg.trans hg',hok',fun i hi => Nat.le_trans (hle i hi) (hle' i hi)⟩

/-- The entry with an index, if the log still holds it. -/
def EntryLog.entryAt (l : EntryLog) (index : Nat) : Option Entry :=
  if l.markerIndex < index then l.entries[index - l.markerIndex - 1]? else none

private theorem Shows.entryAt {full : List Entry} {l : EntryLog} {k : Nat} (h : Shows full l) (hk : l.markerIndex < k) :
    l.entryAt k = full[k - 1]? := by
  rw [EntryLog.entryAt,if_pos hk,h.entries,List.getElem?_drop]
  congr 1
  omega

private theorem Shows.entryAt_some {full : List Entry} {l : EntryLog} {k : Nat} {e : Entry} (h : Shows full l)
    (he : l.entryAt k = some e) : 0 < k ∧ full[k - 1]? = some e := by
  have hk : l.markerIndex < k := by
    by_contra hk
    rw [EntryLog.entryAt,if_neg hk] at he
    cases he
  rw [h.entryAt hk] at he
  exact ⟨by omega,he⟩

private theorem getElem?_of_isPrefix {a b : List Entry} {k : Nat} {e : Entry} (h : a <+: b) (ha : a[k]? = some e) :
    b[k]? = some e := by
  obtain ⟨t,rfl⟩ := h
  rw [List.getElem?_append_left (List.getElem?_eq_some_iff.mp ha).1]
  exact ha

/-- What two nodes have committed at whatever times is one sequence. -/
theorem committed_total (h : s.Ok members boot p) (h' : s'.Ok members boot p') (hg : Grows p p') (hi : i ∈ members)
    (hj : j ∈ members) : (p.log i).take (s.nodes i).log.committed <+: (p'.log j).take (s'.nodes j).log.committed ∨
      (p'.log j).take (s'.nodes j).log.committed <+: (p.log i).take (s.nodes i).log.committed := by
  have hni := h.nodes i hi
  have hnj := h'.nodes j hj
  obtain ⟨U,-,hU⟩ := hni.node.settled.grows hg
  obtain ⟨V,-,hV⟩ := hnj.node.settled
  rw [hni.self] at hU
  rw [hnj.self] at hV
  exact h'.world.inv.settled_total hU hV

private theorem entryAt_take {full : List Entry} {l : EntryLog} {k c : Nat} {e : Entry} (h : Shows full l)
    (he : l.entryAt k = some e) (hk : k ≤ c) : (full.take c)[k - 1]? = some e := by
  obtain ⟨hpos,he⟩ := h.entryAt_some he
  rw [List.getElem?_take,if_pos (by omega)]
  exact he

private theorem entryAt_termAt {full : List Entry} {l : EntryLog} {k : Nat} {e : Entry} (h : Shows full l)
    (he : l.entryAt k = some e) : k ≤ full.length ∧ termAt full k = e.term := by
  obtain ⟨hpos,he⟩ := h.entryAt_some he
  obtain ⟨hlt,he⟩ := List.getElem?_eq_some_iff.mp he
  obtain ⟨n,rfl⟩ : ∃ n, k = n + 1 := ⟨k - 1,by omega⟩
  refine ⟨hlt,?_⟩
  rw [termAt_succ (show n < full.length from hlt),← he]
  rfl

variable {addresses : List Raft.PeerAddress} {rand : Nat → Nat → Nat}

/-- No order of steps, losses and repeated messages makes a node panic. No node takes back
what it committed, and what two nodes commit, at whatever times, is the same entry at
every index that both still hold. -/
theorem committed_logs_agree (hf : Founders addresses)
    (hs : Sys.Reaches (addresses.map Raft.PeerAddress.nodeID) (initial rand addresses) s) :
    (∀ a, s.enabled (addresses.map Raft.PeerAddress.nodeID) a →
      ∃ t, s.step (addresses.map Raft.PeerAddress.nodeID) a = some t) ∧
    ∀ {s'}, Sys.Reaches (addresses.map Raft.PeerAddress.nodeID) s s' →
      ∀ i ∈ addresses.map Raft.PeerAddress.nodeID, ∀ j ∈ addresses.map Raft.PeerAddress.nodeID,
        (s.nodes i).log.committed ≤ (s'.nodes i).log.committed ∧
        ∀ k e e', k ≤ (s.nodes i).log.committed → k ≤ (s'.nodes j).log.committed →
          (s.nodes i).log.entryAt k = some e → (s'.nodes j).log.entryAt k = some e' → e = e' := by
  obtain ⟨p,-,hok,-⟩ := (hf.ok rand).reaches hs
  refine ⟨fun a ha => ?_,fun {s'} hr i hi j hj => ?_⟩
  · obtain ⟨t,-,ht,-⟩ := hok.step ha
    exact ⟨t,ht⟩
  · obtain ⟨p',hg,hok',hle⟩ := hok.reaches hr
    refine ⟨hle i hi,fun k e e' hk hk' he he' => ?_⟩
    have hni := hok.nodes i hi
    have hnj := hok'.nodes j hj
    have hA := entryAt_take hni.shows he hk
    have hB := entryAt_take hnj.shows he' hk'
    rcases committed_total hok hok' hg hi hj with hpre | hpre
    · exact Option.some.inj ((getElem?_of_isPrefix hpre hA).symm.trans hB)
    · exact Option.some.inj (hA.symm.trans (getElem?_of_isPrefix hpre hB))

private def threeNodes : List Raft.PeerAddress := [⟨1,[]⟩,⟨2,[]⟩,⟨3,[]⟩]

private theorem threeNodes_founders : Founders threeNodes := ⟨by decide,by decide,by decide⟩

/-- Node 1 is elected by node 3, and both have its first entry. -/
private def firstTerm : List Act :=
  [.process 1 3,.applied 1 3] ++ List.replicate 10 (.tick 1) ++ [.deliver 0,.deliver 2,.deliver 3,.deliver 5]

/-- Node 3 learns that it is committed, runs and is elected by node 2. -/
private def secondTerm : List Act :=
  [.deliver 6,.process 3 4,.applied 3 4] ++ List.replicate 10 (.tick 3) ++ [.deliver 8,.deliver 10]

private def runOf (s : Sys) (as : List Act) : Option Sys :=
  exec (fun s a => Sys.step [1,2,3] s a) (fun s a => Sys.enabled [1,2,3] s a) s as

/-- The entry of the first leader, committed by it and, a step later, by a follower. -/
theorem first_entry_agreed : ∃ s s' e, runOf (initial (fun _ _ => 0) threeNodes) firstTerm = some s ∧
    runOf s (secondTerm.take 1) = some s' ∧ (s.nodes 1).log.committed = 4 ∧ (s'.nodes 3).log.committed = 4 ∧
    (s.nodes 1).log.entryAt 4 = some e ∧ (s'.nodes 3).log.entryAt 4 = some e := by
  have hrun : (runOf (initial (fun _ _ => 0) threeNodes) firstTerm).bind (fun s => (runOf s (secondTerm.take 1)).map
      (fun s' => ((s.nodes 1).log.committed,(s'.nodes 3).log.committed,(s.nodes 1).log.entryAt 4,
        ((s'.nodes 3).log.entryAt 4).isSome))) = some (4,4,some { term := 2, index := 4 },true) := by decide +kernel
  obtain ⟨s,hs,hrun⟩ := Option.bind_eq_some_iff.mp hrun
  obtain ⟨s',hs',hrun⟩ := Option.map_eq_some_iff.mp hrun
  simp only [Prod.mk.injEq] at hrun
  obtain ⟨hc,hc',he,he'⟩ := hrun
  obtain ⟨e',he'⟩ := Option.isSome_iff_exists.mp he'
  have hagree := (committed_logs_agree threeNodes_founders (exec_reaches .init hs)).2 (exec_reaches .init hs')
    1 (by decide) 3 (by decide)
  have hsame := hagree.2 4 _ e' (Nat.le_of_eq hc.symm) (Nat.le_of_eq hc'.symm) he he'
  exact ⟨s,s',_,hs,hs',hc,hc',he,hsame ▸ he'⟩

/-- With the members the group was started with and no restarts: one leader a term and one
vote of a node, at whatever times. Logs that have an entry of the same term at an index
agree up to it, and a leader has, of what it has not compacted, all that was committed by a
node in its term or before. -/
theorem leaders_complete (hf : Founders addresses)
    (hs : Sys.Reaches (addresses.map Raft.PeerAddress.nodeID) (initial rand addresses) s)
    (hr : Sys.Reaches (addresses.map Raft.PeerAddress.nodeID) s s') {i j : Nat}
    (hi : i ∈ addresses.map Raft.PeerAddress.nodeID) (hj : j ∈ addresses.map Raft.PeerAddress.nodeID) :
    (s.nodes i).term ≤ (s'.nodes i).term ∧
    ((s.nodes i).term = (s'.nodes i).term → (s.nodes i).vote ≠ noNode → (s'.nodes i).vote = (s.nodes i).vote) ∧
    ((s.nodes i).state = .leader → (s'.nodes j).state = .leader → (s.nodes i).term = (s'.nodes j).term → i = j) ∧
    (∀ k e e', (s.nodes i).log.entryAt k = some e → (s'.nodes j).log.entryAt k = some e' → e.term = e'.term →
      ∀ n ≤ k, ∀ d d', (s.nodes i).log.entryAt n = some d → (s'.nodes j).log.entryAt n = some d' → d = d') ∧
    ((s'.nodes j).state = .leader → (s.nodes i).term ≤ (s'.nodes j).term →
      ∀ k e, k ≤ (s.nodes i).log.committed → (s.nodes i).log.entryAt k = some e → (s'.nodes j).log.markerIndex < k →
        (s'.nodes j).log.entryAt k = some e) := by
  obtain ⟨p,-,hok,-⟩ := (hf.ok rand).reaches hs
  obtain ⟨p',hg,hok',hle⟩ := hok.reaches hr
  have hni := hok.nodes i hi
  have hni' := hok'.nodes i hi
  have hnj := hok'.nodes j hj
  refine ⟨by rw [← hni.term,← hni'.term]; exact hg.term i,fun ht hv => ?_,fun hl hl' ht => ?_,
    fun k e e' he he' ht n hn d d' hd hd' => ?_,fun hl ht k e hk he hm => ?_⟩
  · have hvote := hni.node.vote
    have hvote' := hni'.node.vote
    rw [if_neg hv,hni.self] at hvote
    rw [hni'.self,← ht,hg.voted hvote] at hvote'
    split_ifs at hvote'
    exact (Option.some.inj hvote').symm
  · have hlead := hg.leader (hni.node.leader hl).1
    have hlead' := (hnj.node.leader hl').1
    rw [ht,hlead',hni.self,hnj.self] at hlead
    exact (Option.some.inj hlead).symm
  · have hgi : p'.Grounded Entry.term (p.log i) := hni.grounded.mono (fun T L hL => hg.led hL)
    obtain ⟨hki,hti⟩ := entryAt_termAt hni.shows he
    obtain ⟨hkj,htj⟩ := entryAt_termAt hnj.shows he'
    have htake := hok'.world.log_matching hgi hnj.grounded hki hkj (by rw [hti,htj,ht])
    have hdi := entryAt_take hni.shows hd hn
    rw [htake,entryAt_take hnj.shows hd' hn] at hdi
    exact (Option.some.inj hdi).symm
  · have hled := hnj.led hl
    have hset := hni.node.settled.grows hg
    rw [hni.self] at hset
    have hpre := hok'.world.settled_led hset ht hled
    rw [hnj.shows.entryAt hm]
    exact getElem?_of_isPrefix hpre (entryAt_take hni.shows he hk)

/-- The second leader has the entry that the first one committed. -/
theorem second_leader_has_entry : ∃ s s' e, runOf (initial (fun _ _ => 0) threeNodes) firstTerm = some s ∧
    runOf s secondTerm = some s' ∧ (s.nodes 1).state = .leader ∧ (s'.nodes 3).state = .leader ∧
    (s.nodes 1).term < (s'.nodes 3).term ∧ (s.nodes 1).log.entryAt 4 = some e ∧ (s'.nodes 3).log.entryAt 4 = some e := by
  have hrun : (runOf (initial (fun _ _ => 0) threeNodes) firstTerm).bind (fun s => (runOf s secondTerm).map
      (fun s' => (((s.nodes 1).state,(s.nodes 1).term,(s.nodes 1).log.committed,(s.nodes 1).log.entryAt 4),
        (s'.nodes 3).state,(s'.nodes 3).term,(s'.nodes 3).log.markerIndex))) =
      some ((.leader,2,4,some { term := 2, index := 4 }),.leader,3,0) := by decide +kernel
  obtain ⟨s,hs,hrun⟩ := Option.bind_eq_some_iff.mp hrun
  obtain ⟨s',hs',hrun⟩ := Option.map_eq_some_iff.mp hrun
  simp only [Prod.mk.injEq] at hrun
  obtain ⟨⟨hl,ht,hc,he⟩,hl',ht',hm⟩ := hrun
  have hcomplete := (leaders_complete threeNodes_founders (exec_reaches .init hs) (exec_reaches .init hs')
    (i := 1) (j := 3) (by decide) (by decide)).2.2.2.2
  refine ⟨s,s',_,hs,hs',hl,hl',by omega,he,?_⟩
  exact hcomplete hl' (by omega) 4 _ (by omega) he (by omega)

end Runs

end Zuul.Dragonboat
