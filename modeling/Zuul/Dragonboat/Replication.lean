import Zuul.Dragonboat.Reads

/-! What a leader sends, how it counts the answers and what it commits. -/
namespace Zuul.Dragonboat
open Lib Lib.LeaderLog

variable {members : List Nat} {boot i j : Nat} {p p' : History} {r r' : Raft} {m : Message}

section Remote
variable {acked last index : Nat} {rm : Remote}

namespace RemoteOk
variable (h : RemoteOk acked last rm)
include h

/-- A remote that waited may be sent to again. -/
theorem waitToRetry : RemoteOk acked last rm.waitToRetry := by
  unfold Remote.waitToRetry
  split_ifs
  · exact ⟨h.matched,h.known,h.pos,h.next,h.snapshot⟩
  · exact h

private theorem retryToWait : RemoteOk acked last rm.retryToWait := by
  unfold Remote.retryToWait
  split_ifs
  · exact ⟨h.matched,h.known,h.pos,h.next,h.snapshot⟩
  · exact h

private theorem becomeRetry : RemoteOk acked last rm.becomeRetry := by
  have hk := h.known
  have hs := h.snapshot
  refine ⟨h.matched,hk,?_,?_,Nat.zero_le _⟩
  · change 1 ≤ if rm.state = .snapshot then _ else _
    split_ifs <;> omega
  · change (if rm.state = .snapshot then _ else _) ≤ last + 1
    split_ifs <;> omega

private theorem becomeWait : RemoteOk acked last rm.becomeWait :=
  (show RemoteOk acked last rm.clearSnapshotAck from ⟨h.matched,h.known,h.pos,h.next,h.snapshot⟩).becomeRetry.retryToWait

private theorem becomeSnapshot (hi : index ≤ last) : RemoteOk acked last (rm.becomeSnapshot index) :=
  ⟨h.matched,h.known,h.pos,h.next,hi⟩

/-- Whether a remote was heard of says nothing about its log. -/
theorem activate (active : Bool) : RemoteOk acked last { rm with active } :=
  ⟨h.matched,h.known,h.pos,h.next,h.snapshot⟩

/-- A remote that has said to have the index matches up to it. -/
theorem tryUpdate (ha : index ≤ acked) (hi : index ≤ last) : RemoteOk acked last (rm.tryUpdate index).1 := by
  have hnext : RemoteOk acked last (if rm.next < index + 1 then { rm with next := index + 1 } else rm) := by
    split_ifs
    · exact ⟨h.matched,h.known,Nat.le_add_left 1 index,Nat.succ_le_succ hi,h.snapshot⟩
    · exact h
  rw [Remote.tryUpdate]
  generalize (if rm.next < index + 1 then { rm with next := index + 1 } else rm) = rm' at hnext
  dsimp only
  split_ifs
  · have hw := hnext.waitToRetry
    exact ⟨ha,hi,hw.pos,hw.next,hw.snapshot⟩
  · exact hnext

private theorem progress (index : Nat) (hi : index ≤ last) (hp : rm.isPaused = false) :
    ∃ rm', rm.progress index = some rm' ∧ RemoteOk acked last rm' := by
  rw [Remote.progress]
  rw [Remote.isPaused] at hp
  split
  · exact ⟨_,rfl,h.matched,h.known,Nat.le_add_left 1 index,Nat.succ_le_succ hi,h.snapshot⟩
  · exact ⟨_,rfl,h.retryToWait⟩
  · rename_i hr hs
    cases hst : rm.state <;> simp_all

/-- A remote that answered goes on to be replicated to. -/
theorem respondedTo : RemoteOk acked last rm.respondedTo := by
  rw [Remote.respondedTo]
  split
  · exact ⟨h.matched,h.known,Nat.le_add_left 1 _,Nat.succ_le_succ h.known,Nat.zero_le _⟩
  · split_ifs
    · exact h.becomeRetry
    · exact h
  · exact h

/-- A rejection moves the next index back, but not below what is matched. -/
theorem decreaseTo (rejected hint : Nat) : RemoteOk acked last (rm.decreaseTo rejected hint).1 := by
  have hn := h.next
  rw [Remote.decreaseTo]
  split_ifs with hs hr hx
  · exact h
  · exact ⟨h.matched,h.known,Nat.le_add_left 1 _,Nat.succ_le_succ h.known,h.snapshot⟩
  · exact h
  · have hw := h.waitToRetry
    refine ⟨hw.matched,hw.known,Nat.le_max_left 1 _,?_,hw.snapshot⟩
    change max 1 (min rejected (hint + 1)) ≤ last + 1
    omega

/-- After a snapshot the remote is sent to again. -/
theorem snapshotDone (reject : Bool) : RemoteOk acked last (rm.snapshotDone reject) := by
  have hc : RemoteOk acked last (if reject then rm.clearPendingSnapshot else rm) := by
    split_ifs
    · exact ⟨h.matched,h.known,h.pos,h.next,Nat.zero_le _⟩
    · exact h
  exact hc.becomeWait

/-- A delayed acknowledgement of a snapshot comes due. -/
theorem checkAck : RemoteOk acked last rm.checkAck.1 := by
  rw [Remote.checkAck]
  split_ifs with hs
  · dsimp only
    have hd : RemoteOk acked last { rm with delayed := rm.delayed.tick.1 } := ⟨h.matched,h.known,h.pos,h.next,h.snapshot⟩
    split_ifs
    · have hw := hd.snapshotDone rm.delayed.tick.1.rejected
      exact ⟨hw.matched,hw.known,hw.pos,hw.next,hw.snapshot⟩
    · exact hd
  · exact h

/-- A remote that does not answer is tried again. -/
theorem enterRetryState : RemoteOk acked last (Raft.enterRetryState rm) := by
  rw [Raft.enterRetryState]
  split_ifs
  · exact h.becomeRetry
  · exact h

end RemoteOk

/-- What a node knows of the others at first: nothing, but of itself all. -/
theorem remoteOk_fresh {self : Nat} (h : j = self → last ≤ acked) :
    RemoteOk acked last { next := last + 1, matched := if j = self then last else 0 } := by
  refine ⟨?_,?_,Nat.le_add_left 1 _,Nat.le_refl _,Nat.zero_le _⟩
  · change (if j = self then last else 0) ≤ acked
    split_ifs with hj
    · exact h hj
    · exact Nat.zero_le _
  · change (if j = self then last else 0) ≤ last
    split_ifs
    · exact Nat.le_refl _
    · exact Nat.zero_le _

end Remote

/-- Only what the node knows of the others and what it sends is new. -/
def Keeps (r r' : Raft) : Prop := r' = { r with remotes := r'.remotes, msgs := r'.msgs }

theorem Keeps.refl (r : Raft) : Keeps r r := rfl

theorem Keeps.trans {r'' : Raft} (h : Keeps r r') (h' : Keeps r' r'') : Keeps r r'' := by
  unfold Keeps at *
  rw [h',h]

theorem Keeps.state (h : Keeps r r') : r'.state = r.state := by
  rw [show r' = _ from h]

theorem Keeps.term (h : Keeps r r') : r'.term = r.term := by
  rw [show r' = _ from h]

theorem Keeps.log (h : Keeps r r') : r'.log = r.log := by
  rw [show r' = _ from h]

/-- What the leader knows of the members may be replaced by what is as true. -/
theorem At.setRemotes {remotes : KeyedMap Nat Remote} (h : At members boot p i r) (hk : ∀ j, j ∈ remotes ↔ j ∈ members)
    (hr : r.state = .leader → ∀ j rm, remotes.lookup j = some rm → RemoteOk (p.acked j r.term) r.log.lastIndex rm) :
    At members boot p i { r with remotes } where
  world := h.world
  self := h.self
  node := { h.node with
    remotes := hk
    leader := fun hl => by
      obtain ⟨h1,h2,h3,h4,-⟩ := h.node.leader hl
      exact ⟨h1,h2,h3,h4,hr hl⟩ }

/-- The same for one member. -/
theorem At.setRemote {rm : Remote} (h : At members boot p i r) (hj : j ∈ members)
    (hr : r.state = .leader → RemoteOk (p.acked j r.term) r.log.lastIndex rm) : At members boot p i (r.setRemote j rm) := by
  refine h.setRemotes (fun k => ?_) (fun hl k rm' hk => ?_)
  · rw [AList.mem_insert]
    exact ⟨fun hx => hx.elim (fun he => he ▸ hj) (h.node.remotes k).mp,fun hx => .inr ((h.node.remotes k).mpr hx)⟩
  · rw [KeyedMap.lookup_insert_eq] at hk
    split_ifs at hk with he
    · cases hk
      exact he ▸ hr hl
    · exact (h.node.leader hl).2.2.2.2 k rm' hk

section Send

private theorem send_eq (r : Raft) (h0 : m.term = 0) (ht : m.type ≠ .requestVote) :
    r.send m = some { r with msgs := r.msgs ++
      [{ m with sender := r.nodeID, term := if isRequestMessage m.type then 0 else r.term }] } := by
  rw [Raft.send,Raft.finalizeMessageTerm,if_neg (fun hx => ht hx.2),if_neg (fun hx => by simp [h0] at hx)]
  split_ifs with hr
  · simp [h0]
  · rfl

/-- A node is in a term beyond zero. -/
theorem At.term_pos (h : At members boot p i r) : 0 < r.term := by
  rw [← h.node.term]
  exact h.world.inv.born _

/-- A message that is true may be sent. -/
theorem At.queue (h : At members boot p i r) (hm : Sent members p m) :
    At members boot p i { r with msgs := r.msgs ++ [m] } where
  world := h.world
  self := h.self
  node := { h.node with
    msgs := fun m' hm' => by
      rcases List.mem_append.mp hm' with hm' | hm'
      · exact h.node.msgs m' hm'
      · exact List.mem_singleton.mp hm' ▸ hm }

/-- A message gets the term of its sender. -/
theorem At.send (h : At members boot p i r) (m : Message) (h0 : m.term = 0) (ht : (m.type == .requestVote) = false)
    (hl : isLocalMessageType m.type = false)
    (hb : Backed p { m with sender := r.nodeID, term := if isRequestMessage m.type then 0 else r.term }) :
    Does members boot p i (r.send m) (fun r' => r' = { r with msgs := r'.msgs }) := by
  rw [send_eq r h0 (by simpa using ht)]
  have hs : Sent members p { m with sender := r.nodeID, term := if isRequestMessage m.type then 0 else r.term } := by
    refine ⟨h.node.member,hl,?_,hb⟩
    change if isRequestMessage m.type then (if isRequestMessage m.type then 0 else r.term) = 0
      else 0 < if isRequestMessage m.type then 0 else r.term
    split_ifs
    · rfl
    · exact h.term_pos
  exact (h.queue hs).does rfl

/-- What a leader has written is its own log. -/
theorem At.led (h : At members boot p i r) (hl : r.state = .leader) : p.led r.term = some (p.log i) := by
  have hi := h.self
  obtain ⟨hlead,-⟩ := h.node.leader hl
  have := (h.world.inv.leaders hlead).2.2.2 h.node.term
  rwa [hi] at this

/-- The log of a node was written by the leaders of its terms. -/
theorem At.grounded (h : At members boot p i r) : p.Grounded Entry.term (p.log i) := (h.world.inv.logs i).1

/-- The log of a node is numbered, with membership changes at the start only. -/
theorem At.shaped (h : At members boot p i r) : Shaped boot (p.log i) := h.world.shaped_of_grounded h.grounded

/-- The entries from next on say what the leader wrote, and the term before them. -/
theorem At.replicate_backed {next : Nat} {es : List Entry} (h : At members boot p i r) (hl : r.state = .leader)
    (hm : r.log.markerIndex ≤ next - 1) (hn : next - 1 ≤ (p.log i).length) (hes : es <+: (p.log i).drop (next - 1)) :
    Backed p { r.replicateMessage j next es with sender := r.nodeID, term := r.term } := by
  obtain rfl := h.self
  have hlen : ((p.log r.nodeID).take (next - 1)).length = next - 1 := List.length_take_of_le hn
  refine ⟨_,(p.log r.nodeID).take (next - 1) ++ es,h.led hl,?_,?_,?_,?_,h.node.committed,h.node.settled⟩
  · nth_rewrite 2 [← List.take_append_drop (next - 1) (p.log r.nodeID)]
    exact (List.prefix_append_right_inj _).mpr hes
  · change next - 1 ≤ _
    rw [List.length_append,hlen]
    exact Nat.le_add_right _ _
  · exact (List.drop_left' hlen).symm
  · change r.log.term (next - 1) = termAt _ (next - 1)
    rw [h.node.shows.term_eq hm hn,termAt_append_left (Nat.le_of_eq hlen.symm),termAt,termAt,List.take_take,Nat.min_self]

private theorem At.snapshot_backed (h : At members boot p i r) (hl : r.state = .leader) :
    Backed p { type := .installSnapshot, dest := j, sender := r.nodeID, term := r.term, snapshot := r.log.snapshot } := by
  obtain rfl := h.self
  refine ⟨_,h.led hl,Nat.le_trans h.node.snapshot h.node.committed,h.node.snapshotTerm,h.node.settled.down ?_⟩
  exact List.take_isPrefix_take.mpr (.inl h.node.snapshot)

/-- A leader sends what a member lacks, or a snapshot of it. -/
theorem At.sendReplicate (h : At members boot p i r) (hl : r.state = .leader) (hj : j ∈ members) :
    Does members boot p i (r.sendReplicateMessage j) (Keeps r) := by
  obtain rfl := h.self
  obtain ⟨rp,hrp⟩ := (r.remotes.mem_iff_lookup j).mp ((h.node.remotes j).mpr hj)
  have hok := (h.node.leader hl).2.2.2.2 j rp hrp
  have hnext := hok.next
  rw [h.node.shows.lastIndex] at hnext
  rw [Raft.sendReplicateMessage,hrp]
  simp only [Option.bind_eq_bind,Option.bind_some]
  by_cases hp : rp.isPaused = true
  · rw [if_pos hp]
    exact h.does (Keeps.refl r)
  rw [if_neg hp]
  rcases h.node.shows.entriesFrom hok.pos hnext with ⟨hm,he⟩ | ⟨hm,es,he,hes⟩
  · -- the next entry was compacted, so there is a snapshot
    have hsnap := h.node.marker
    have hpos := hok.pos
    rw [he]
    dsimp only
    split_ifs with ha h0
    · exact h.does (Keeps.refl r)
    · omega
    · have hset : At members boot p r.nodeID (r.setRemote j (rp.becomeSnapshot r.log.snapshot.index)) :=
        h.setRemote hj (fun _ => hok.becomeSnapshot (by
          rw [h.node.shows.lastIndex]
          exact Nat.le_trans h.node.snapshot h.node.committed))
      exact (hset.send { type := .installSnapshot, dest := j, snapshot := r.log.snapshot } rfl rfl rfl
        (h.snapshot_backed hl)).mono (fun r' hr' => by rw [Keeps,hr']; rfl)
  · have hb : Backed p { r.replicateMessage j rp.next es with sender := r.nodeID, term := r.term } :=
      h.replicate_backed hl hm (by omega) hes
    rw [he]
    dsimp only
    split
    · exact (h.send (r.replicateMessage j rp.next es) rfl rfl rfl hb).mono (fun r' hr' => by rw [Keeps,hr'])
    · rename_i e hlast
      have hlen : ((p.log r.nodeID).take (rp.next - 1)).length = rp.next - 1 := List.length_take_of_le (by omega)
      have hwhole : (p.log r.nodeID).take (rp.next - 1) ++ es <+: p.log r.nodeID := by
        nth_rewrite 2 [← List.take_append_drop (rp.next - 1) (p.log r.nodeID)]
        exact (List.prefix_append_right_inj _).mpr hes
      have hidx := (h.shaped.numbered.down hwhole).last hlast
      have hle := hwhole.length_le
      rw [hlen] at hidx
      rw [List.length_append,hlen] at hle
      rw [if_neg (not_not_intro hidx)]
      obtain ⟨rp',hrp',hok'⟩ := hok.progress e.index (by rw [h.node.shows.lastIndex]; omega) (by simpa using hp)
      rw [hrp',Option.bind_some]
      have hset : At members boot p r.nodeID (r.setRemote j rp') := h.setRemote hj (fun _ => hok')
      exact (hset.send (r.replicateMessage j rp.next es) rfl rfl rfl hb).mono
        (fun r' hr' => by rw [Keeps,hr']; rfl)

private theorem At.mem_others (h : At members boot p i r) (hj : j ∈ r.others) : j ∈ members :=
  (h.node.remotes j).mp (List.mem_filter.mp hj).1

/-- The same for all other members. -/
theorem At.broadcastReplicate (h : At members boot p i r) (hl : r.state = .leader) :
    Does members boot p i r.broadcastReplicateMessage (Keeps r) := by
  rw [Raft.broadcastReplicateMessage,if_neg (not_not_intro hl)]
  refine Does.foldlM h (Keeps.refl r) (fun p' r' j hj h' hr' => ?_)
  exact (h'.sendReplicate (hr'.state.trans hl) (h.mem_others hj)).mono (fun _ hx => hr'.trans hx)

private theorem At.sendHeartbeat {rm : Remote} (h : At members boot p i r) (hl : r.state = .leader)
    (hj : r.remotes.lookup j = some rm) (ctx : SystemCtx) :
    Does members boot p i (r.sendHeartbeatMessage j ctx rm.matched) (Keeps r) := by
  obtain rfl := h.self
  have hm := ((h.node.leader hl).2.2.2.2 j rm hj).matched
  have hc := h.node.committed
  have hb : Backed p { type := .heartbeat, dest := j, sender := r.nodeID, term := r.term,
                       commit := min rm.matched r.log.committed, hint := ctx.low, hintHigh := ctx.high } := by
    refine ⟨_,h.led hl,?_,?_,h.node.settled.down (List.take_isPrefix_take.mpr (.inl (Nat.min_le_right _ _)))⟩
    · exact Nat.le_trans (Nat.min_le_left _ _) hm
    · exact Nat.le_trans (Nat.min_le_right _ _) hc
  exact (h.send { type := .heartbeat, dest := j, commit := min rm.matched r.log.committed, hint := ctx.low,
                  hintHigh := ctx.high } rfl rfl rfl hb).mono (fun r' hr' => by rw [Keeps,hr'])

/-- A leader sends every other member how much of its log it may commit. -/
theorem At.broadcastHeartbeatWithHint (h : At members boot p i r) (hl : r.state = .leader) (ctx : SystemCtx) :
    Does members boot p i (r.broadcastHeartbeatMessageWithHint ctx) (Keeps r) := by
  refine Does.foldlM h (Keeps.refl r) (fun p' r' j hj h' hr' => ?_)
  obtain ⟨rm,hrm⟩ := (r'.remotes.mem_iff_lookup j).mp ((h'.node.remotes j).mpr (h.mem_others hj))
  rw [hrm,Option.bind_some]
  exact (h'.sendHeartbeat (hr'.state.trans hl) hrm ctx).mono (fun _ hx => hr'.trans hx)

/-- The same with the newest read that waits. -/
theorem At.broadcastHeartbeat (h : At members boot p i r) (hl : r.state = .leader) :
    Does members boot p i r.broadcastHeartbeatMessage (Keeps r) := by
  rw [Raft.broadcastHeartbeatMessage,if_neg (not_not_intro hl)]
  exact h.broadcastHeartbeatWithHint hl _

/-- A member is told to run for leader. -/
theorem At.sendTimeoutNow (h : At members boot p i r) (j : Nat) :
    Does members boot p i (r.sendTimeoutNowMessage j) (Keeps r) :=
  (h.send { type := .timeoutNow, dest := j } rfl rfl rfl trivial).mono (fun r' hr' => by rw [Keeps,hr'])

end Send

section Commit

/-- From place k of a sorted list on, nothing is below what is there. -/
theorem length_sub_le_countP {l : List Nat} (hs : l.Pairwise (· ≤ ·)) {k : Nat} (hk : k < l.length) :
    l.length - k ≤ l.countP (fun x => decide (l[k] ≤ x)) := by
  have hdrop : (l.drop k).countP (fun x => decide (l[k] ≤ x)) = (l.drop k).length := by
    rw [List.countP_eq_length,List.drop_eq_getElem_cons hk]
    intro x hx
    rw [decide_eq_true_iff]
    rcases List.mem_cons.mp hx with rfl | hx
    · exact Nat.le_refl _
    · have hpair := (List.drop_eq_getElem_cons hk) ▸ hs.sublist (List.drop_sublist k l)
      exact (List.pairwise_cons.mp hpair).1 x hx
  calc l.length - k = (l.drop k).countP (fun x => decide (l[k] ≤ x)) := by rw [hdrop,List.length_drop]
    _ ≤ l.countP (fun x => decide (l[k] ≤ x)) := (List.drop_sublist k l).countP_le

private theorem sortMatchValues_perm (matched : List Nat) : (Raft.sortMatchValues matched).Perm matched := by
  rw [Raft.sortMatchValues.eq_def]
  split
  · split_ifs <;> simp only <;> grind
  · exact List.perm_insertionSort _ _

private theorem sortMatchValues_pairwise (matched : List Nat) : (Raft.sortMatchValues matched).Pairwise (· ≤ ·) := by
  rw [Raft.sortMatchValues.eq_def]
  split
  · dsimp only
    split_ifs <;> grind
  · exact List.pairwise_insertionSort _ _

private theorem At.keys_perm (h : At members boot p i r) : r.remotes.keys.Perm members :=
  (List.perm_ext_iff_of_nodup r.remotes.keys_nodup h.world.nodup).mpr h.node.remotes

/-- All members vote. -/
theorem At.numVotingMembers (h : At members boot p i r) : r.numVotingMembers = members.length := h.keys_perm.length_eq

private theorem At.length_pos (h : At members boot p i r) : 0 < members.length := List.length_pos_of_mem h.node.member

/-- So many entries of a map from members that they make up a quorum. -/
theorem majority_of_countP {V : Type} {P : Nat → Prop} (map : KeyedMap Nat V) (ok : V → Bool)
    (hmem : ∀ j v, map.lookup j = some v → ok v = true → j ∈ members ∧ P j)
    (hc : members.length < 2 * map.entries.countP (fun e => ok e.2)) : (majority members).Quorum P := by
  refine ⟨(map.entries.filter (fun e => ok e.2)).map Sigma.fst,?_,fun j hj => ?_,?_⟩
  · exact map.keys_nodup.sublist (List.filter_sublist.map _)
  · obtain ⟨⟨j,v⟩,he,rfl⟩ := List.mem_map.mp hj
    obtain ⟨he,hok⟩ := List.mem_filter.mp he
    exact hmem j v ((map.mem_entries_iff j v).mp he) hok
  · rwa [List.length_map,← List.countP_eq_length_filter]

/-- The index that the leader finds is held by a quorum. -/
theorem At.quorumMatch (h : At members boot p i r) (hl : r.state = .leader) :
    ∃ q, r.quorumMatch = some q ∧ q ≤ (p.log i).length ∧ (majority members).Quorum (fun j => q ≤ p.acked j r.term) := by
  obtain rfl := h.self
  have hn := h.numVotingMembers
  have hpos := h.length_pos
  have hperm := sortMatchValues_perm (r.remotes.entries.map (fun e => e.2.matched))
  have hlen : (Raft.sortMatchValues (r.remotes.entries.map (fun e => e.2.matched))).length = members.length := by
    rw [hperm.length_eq,List.length_map,← hn,Raft.numVotingMembers,AList.keys,List.keys,List.length_map]
  have hk : r.numVotingMembers - r.quorum <
      (Raft.sortMatchValues (r.remotes.entries.map (fun e => e.2.matched))).length := by
    rw [hlen,Raft.quorum,hn]
    omega
  have hcount := length_sub_le_countP (sortMatchValues_pairwise _) hk
  rw [Raft.quorumMatch,List.getElem?_eq_getElem hk]
  generalize hq : (Raft.sortMatchValues (r.remotes.entries.map (fun e => e.2.matched)))[r.numVotingMembers - r.quorum] = q
    at hcount
  refine ⟨q,rfl,?_,?_⟩
  · -- it is what some node has
    have hmem := hperm.mem_iff.mp (List.getElem_mem hk)
    rw [hq] at hmem
    obtain ⟨⟨j,rm⟩,he,rfl⟩ := List.mem_map.mp hmem
    rw [← h.node.shows.lastIndex]
    exact ((h.node.leader hl).2.2.2.2 j rm ((r.remotes.mem_entries_iff j rm).mp he)).known
  · rw [hperm.countP_eq,List.countP_map,hlen,Raft.quorum,hn] at hcount
    refine majority_of_countP r.remotes (fun rm => decide (q ≤ rm.matched)) (fun j rm hj hok => ?_) ?_
    · refine ⟨(h.node.remotes j).mp ((r.remotes.mem_iff_lookup j).mpr ⟨rm,hj⟩),?_⟩
      exact Nat.le_trans (of_decide_eq_true hok) ((h.node.leader hl).2.2.2.2 j rm hj).matched
    · change _ < 2 * r.remotes.entries.countP ((fun x => decide (q ≤ x)) ∘ fun e => e.2.matched)
      omega

/-- More of the log is committed. -/
theorem At.commit {k : Nat} (h : At members boot p i r) (hk : r.log.committed ≤ k) (hle : k ≤ (p.log i).length)
    (hs : SettledBy p r.term ((p.log i).take k)) :
    At members boot p i { r with log := { r.log with committed := k } } := by
  obtain rfl := h.self
  refine ⟨h.world,?_,rfl⟩
  exact { h.node with
    shows := ⟨h.node.shows.marker,h.node.shows.term,h.node.shows.entries⟩
    snapshot := Nat.le_trans h.node.snapshot hk
    processed := Nat.le_trans h.node.processed hk
    boot := Nat.le_trans h.node.boot hk
    committed := hle
    settled := hs
    reads := h.node.reads.mono hk
    leader := fun hl => by
      obtain ⟨h1,h2,hrest⟩ := h.node.leader hl
      exact ⟨h1,Nat.le_trans h2 hk,hrest⟩ }

/-- A leader announces what a quorum has, if it is of its own term. -/
theorem At.tryCommit (h : At members boot p i r) (hl : r.state = .leader) :
    ∃ k done p', r.tryCommit = some ({ r with log := { r.log with committed := k } },done) ∧
      Moves members i p p' ∧ At members boot p' i { r with log := { r.log with committed := k } } := by
  obtain rfl := h.self
  obtain ⟨q,hq,hle,hquorum⟩ := h.quorumMatch hl
  obtain ⟨hlead,hann,-⟩ := h.node.leader hl
  rw [Raft.tryCommit,if_neg (not_not_intro hl),hq]
  simp only [Option.bind_eq_bind,Option.bind_some,EntryLog.tryCommit]
  by_cases hc : q ≤ r.log.committed
  · rw [if_pos hc]
    exact ⟨r.log.committed,false,p,rfl,.refl _ p,h⟩
  · rw [if_neg hc]
    by_cases ht : r.log.term q = r.term
    · rw [if_pos ht,EntryLog.commitTo,if_neg hc,h.node.shows.lastIndex,if_neg (Nat.not_lt.mpr hle)]
      have hmark := Nat.le_trans h.node.marker h.node.snapshot
      rw [h.node.shows.term_eq (by omega) hle] at ht
      obtain ⟨hm,hw⟩ := h.world.announce hlead (h.led hl) (by omega) hle ht hquorum
      refine ⟨q,true,p.announce r.term q,rfl,hm,hw,?_,rfl⟩
      have hlt : r.log.committed ≤ q := Nat.le_of_not_le hc
      have hself : (p.announce r.term q).announced r.term = q := Function.update_self ..
      exact { h.node with
        shows := ⟨h.node.shows.marker,h.node.shows.term,h.node.shows.entries⟩
        snapshot := Nat.le_trans h.node.snapshot hlt
        processed := Nat.le_trans h.node.processed hlt
        boot := Nat.le_trans h.node.boot hlt
        committed := hle
        settled := ⟨r.term,Nat.le_refl _,_,h.led hl,by rw [hself]; exact List.prefix_refl _⟩
        reads := h.node.reads.mono hlt
        msgs := fun m hm' => (h.node.msgs m hm').grows (h.world.grows hm).2
        leader := fun hl => ⟨hlead,Nat.le_of_eq hself,(h.node.leader hl).2.2⟩ }
    · rw [if_neg ht]
      exact ⟨r.log.committed,false,p,rfl,.refl _ p,h⟩

end Commit

section Append

private theorem stampEntries_term (r : Raft) (es : List Entry) : ∀ e ∈ r.stampEntries es, e.term = r.term := by
  intro e he
  obtain ⟨k,hk,rfl⟩ := List.mem_mapIdx.mp he
  rfl

private theorem stampEntries_type (r : Raft) {es : List Entry} (hc : ∀ e ∈ es, e.type ≠ .configChange) :
    ∀ e ∈ r.stampEntries es, e.type ≠ .configChange := by
  intro e he
  obtain ⟨k,hk,rfl⟩ := List.mem_mapIdx.mp he
  exact hc es[k] (List.getElem_mem hk)

private theorem numbered_stampEntries {l : List Entry} (h : Numbered l) (hl : r.log.lastIndex = l.length)
    (es : List Entry) :
    Numbered (l ++ r.stampEntries es) := by
  rw [numbered_iff] at h ⊢
  intro k e he
  rw [List.getElem?_append] at he
  split_ifs at he with hk
  · exact h k e he
  · rw [Raft.stampEntries,List.getElem?_mapIdx] at he
    obtain ⟨e',-,rfl⟩ := Option.map_eq_some_iff.mp he
    change r.log.lastIndex + 1 + (k - l.length) = k + 1
    omega

/-- The log that a leader goes on with. -/
theorem At.shaped_append (h : At members boot p i r) (es : List Entry) (hc : ∀ e ∈ es, e.type ≠ .configChange) :
    Shaped boot (p.log i ++ r.stampEntries es) := by
  obtain rfl := h.self
  refine ⟨numbered_stampEntries h.shaped.numbered h.node.shows.lastIndex es,fun e he ht => ?_⟩
  rcases List.mem_append.mp he with he | he
  · exact h.shaped.changes e he ht
  · exact absurd ht (stampEntries_type r hc e he)

/-- What a leader adds to its log, the first of its term or more. It is not yet taken for the
leader here. -/
theorem At.write (es : List Entry) (h : At members boot p i { r with state := .follower }) (hl : r.state = .leader)
    (hm : Moves members i p (p.write i r.term (p.log i ++ r.stampEntries es)))
    (hw : World members boot (p.write i r.term (p.log i ++ r.stampEntries es)))
    (hann : p.announced r.term ≤ r.log.committed) (htick : r.electionTick < r.electionTimeout)
    (hrem : ∀ j rm, r.remotes.lookup j = some rm →
      RemoteOk ((p.write i r.term (p.log i ++ r.stampEntries es)).acked j r.term) r.log.lastIndex rm) :
    Does members boot p i (r.appendEntries es) (fun r' => r' = { r with log := r'.log, remotes := r'.remotes }) := by
  obtain rfl : r.nodeID = i := h.self
  obtain ⟨self,hself⟩ := (r.remotes.mem_iff_lookup r.nodeID).mp ((h.node.remotes _).mpr h.node.member)
  have hg := (h.world.grows hm).2
  have hlog : (p.write r.nodeID r.term (p.log r.nodeID ++ r.stampEntries es)).log r.nodeID =
      p.log r.nodeID ++ r.stampEntries es := Function.update_self ..
  have hled : (p.write r.nodeID r.term (p.log r.nodeID ++ r.stampEntries es)).led r.term =
      some (p.log r.nodeID ++ r.stampEntries es) := Function.update_self ..
  have hacked : (p.write r.nodeID r.term (p.log r.nodeID ++ r.stampEntries es)).acked r.nodeID r.term =
      (p.log r.nodeID ++ r.stampEntries es).length := put_same ..
  have hcom : r.log.committed ≤ (p.log r.nodeID).length := h.node.committed
  have hmark : r.log.markerIndex ≤ r.log.committed := Nat.le_trans h.node.marker h.node.snapshot
  obtain ⟨es',happ,hshows⟩ := h.node.shows.extend hmark hcom (hw.shaped hled).numbered (hw.inv.written hled).2.2.1
  have happ : r.log.append (r.stampEntries es) = some { r.log with entries := es' } := happ
  have hlast := hshows.lastIndex
  have hlen : r.log.lastIndex ≤ (p.log r.nodeID ++ r.stampEntries es).length := by
    rw [h.node.shows.lastIndex,List.length_append]
    exact Nat.le_add_right _ _
  have h1 : At members boot (p.write r.nodeID r.term (p.log r.nodeID ++ r.stampEntries es)) r.nodeID
      { r with log := { r.log with entries := es' },
               remotes := r.remotes.insert r.nodeID (self.tryUpdate (EntryLog.lastIndex { r.log with entries := es' })).1 } := by
    refine ⟨hw,?_,rfl⟩
    exact { h.node with
      remotes := fun j => by
        rw [AList.mem_insert,← h.node.remotes j]
        exact ⟨fun hx => hx.elim (fun he => by rw [he,h.node.remotes]; exact h.node.member) (fun hx => hx),.inr⟩
      shows := by rw [hlog]; exact hshows
      snapshotTerm := by
        rw [hlog,termAt_append_left (Nat.le_trans h.node.snapshot hcom)]
        exact h.node.snapshotTerm
      committed := by
        rw [hlog,List.length_append]
        exact Nat.le_trans hcom (Nat.le_add_right _ _)
      settled := by
        rw [hlog,List.take_append_of_le_length hcom]
        exact h.node.settled.grows hg
      msgs := fun m hm' => (h.node.msgs m hm').grows hg
      candidate := fun hc => by
        rw [show r.state = .candidate from hc] at hl
        cases hl
      leader := fun _ => by
        refine ⟨Function.update_self ..,hann,htick,by rw [hlog]; exact Nat.le_of_eq hacked.symm,fun j rm hj => ?_⟩
        rw [KeyedMap.lookup_insert_eq] at hj
        split_ifs at hj with hji
        · cases hj
          subst hji
          exact ((hrem _ self hself).mono (Nat.le_refl _) (hlast ▸ hlen)).tryUpdate
            (Nat.le_of_eq (hlast.trans hacked.symm)) (Nat.le_refl _)
        · exact (hrem j rm hj).mono (Nat.le_refl _) (hlast ▸ hlen) }
  rw [Raft.appendEntries,happ,hself]
  simp only [Option.bind_eq_bind,Option.bind_some]
  split_ifs
  · obtain ⟨k,done,p',he,hm',h2⟩ := h1.tryCommit hl
    rw [he]
    exact ⟨_,p',rfl,hm.trans h.world hm',h2,rfl⟩
  · exact ⟨_,_,rfl,hm,h1,rfl⟩

/-- What holds of a node whatever its role is. -/
theorem At.follower (h : At members boot p i r) : At members boot p i { r with state := .follower } :=
  ⟨h.world,{ h.node with candidate := fun hc => (by cases hc), leader := fun hl => (by cases hl) },h.self⟩

/-- A leader numbers the entries and puts them behind its log. -/
theorem At.appendEntries {es : List Entry} (h : At members boot p i r) (hl : r.state = .leader)
    (hc : ∀ e ∈ es, e.type ≠ .configChange) :
    Does members boot p i (r.appendEntries es) (fun r' => r' = { r with log := r'.log, remotes := r'.remotes }) := by
  obtain rfl := h.self
  obtain ⟨hlead,hann,htick,-,hrem⟩ := h.node.leader hl
  obtain ⟨hm,hw⟩ := h.world.append h.node.term hlead (stampEntries_term r es) (h.shaped_append es hc)
  exact h.follower.write es hl hm hw hann htick
    (fun j rm hj => (hrem j rm hj).mono ((h.world.grows hm).2.acked _ _) (Nat.le_refl _))

end Append

end Zuul.Dragonboat
