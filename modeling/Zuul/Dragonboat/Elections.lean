import Zuul.Dragonboat.Replication

/-! How a node changes its term and its role, asks for votes and gives its own. -/
namespace Zuul.Dragonboat
open Lib Lib.LeaderLog

variable {members : List Nat} {boot i j T : Nat} {p p' : History} {r r' : Raft} {m : Message}

section Terms

/-- Mapping the values leaves the keys. -/
theorem mem_mapWithKey {V W : Type} (f : Nat → V → W) (map : KeyedMap Nat V) : j ∈ map.mapWithKey f ↔ j ∈ map := by
  rw [AList.mem_keys,KeyedMap.keys_mapWithKey,← AList.mem_keys]

/-- A node enters a term, not before its own, and waits there for a leader. -/
theorem At.toFollowerState (h : At members boot p i r) (ht : r.term ≤ T) (leaderID : Nat) (timeout : Bool) :
    Moves members i p (p.advance i T) ∧ At members boot (p.advance i T) i (r.toFollowerState T leaderID timeout) := by
  obtain rfl := h.self
  have hle : p.term r.nodeID ≤ T := h.node.term ▸ ht
  obtain ⟨hm,hw⟩ := h.world.advance hle
  refine ⟨hm,hw,?_,rfl⟩
  exact { h.node with
    remotes := fun j => (mem_mapWithKey _ _).trans (h.node.remotes j)
    term := Function.update_self ..
    vote := by
      change p.voted r.nodeID T = if (if r.term ≠ T then noNode else r.vote) = noNode then none
        else some (if r.term ≠ T then noNode else r.vote)
      split_ifs with h1 h2 h2
      · rw [Option.eq_none_iff_forall_ne_some]
        intro c hc
        have := (h.world.inv.votes hc).1
        rw [h.node.term] at this
        omega
      · exact absurd rfl h2
      · rw [← not_not.mp h1,h.node.vote,if_pos h2]
      · rw [← not_not.mp h1,h.node.vote,if_neg h2]
    settled := h.node.settled.mono ht
    reads := ReadIndex.ok_empty _
    msgs := fun m hm' => (h.node.msgs m hm').grows (h.world.grows hm).2
    candidate := fun hc => by cases hc
    leader := fun hl => by cases hl }

/-- The same term goes on without a role. -/
theorem At.becomeFollower (h : At members boot p i r) (ht : r.term ≤ T) (leaderID : Nat) :
    Does members boot p i (some (r.becomeFollower T leaderID))
      (fun r' => r'.term = T ∧ r'.state = .follower ∧ r'.log = r.log) := by
  obtain ⟨hm,ha⟩ := h.toFollowerState ht leaderID true
  exact ⟨_,_,rfl,hm,ha,rfl,rfl,rfl⟩

end Terms

section Campaign

/-- A node runs in the next term, with its own vote. -/
theorem At.becomeCandidate (h : At members boot p i r) (hs : r.state ≠ .leader) :
    Does members boot p i r.becomeCandidate (fun r' => r'.state = .candidate ∧ r'.votes = ∅ ∧ r'.vote = i) := by
  obtain rfl := h.self
  have hlt : p.term r.nodeID < r.term + 1 := by rw [h.node.term]; exact Nat.lt_succ_self _
  obtain ⟨hm,hw⟩ := h.world.campaign hlt
  rw [Raft.becomeCandidate,if_neg hs]
  refine ⟨_,_,rfl,hm,⟨hw,?_,rfl⟩,rfl,rfl,rfl⟩
  exact { h.node with
    remotes := fun j => (mem_mapWithKey _ _).trans (h.node.remotes j)
    term := Function.update_self ..
    vote := (put_same ..).trans (if_neg (h.world.nodes _ h.node.member)).symm
    settled := h.node.settled.mono (Nat.le_succ _)
    reads := ReadIndex.ok_empty _
    msgs := fun m hm' => (h.node.msgs m hm').grows (h.world.grows hm).2
    candidate := fun _ => by
      refine ⟨put_same ..,fun hl => ?_,fun j hj => by cases hj⟩
      exact absurd (h.world.inv.leaders hl).2.2.1 (Nat.not_le.mpr hlt)
    leader := fun hl => (by cases hl) }

/-- A vote is counted once. -/
theorem At.handleVoteResp (rejected : Bool) (h : At members boot p i r)
    (hv : rejected = false → j ∈ members ∧ p.voted j r.term = some i) :
    At members boot p i (r.handleVoteResp j rejected).1 := by
  obtain rfl := h.self
  refine ⟨h.world,?_,rfl⟩
  exact { h.node with
    candidate := fun hc => by
      obtain ⟨hb,hl,hvotes⟩ := h.node.candidate hc
      refine ⟨hb,hl,fun k hk => ?_⟩
      change AList.lookup k (if j ∈ r.votes then r.votes else r.votes.insert j (!rejected)) = some true at hk
      split_ifs at hk with hj
      · exact hvotes k hk
      · rw [KeyedMap.lookup_insert_eq] at hk
        split_ifs at hk with hkj
        · subst hkj
          exact hv (by simpa using hk)
        · exact hvotes k hk }

/-- All entries behind what is committed are of the group's own time. -/
theorem At.pendingConfigChange (h : At members boot p i r) : r.getPendingConfigChangeCount = 0 := by
  obtain rfl := h.self
  have hmark := Nat.le_trans h.node.marker h.node.snapshot
  have hboot := h.node.boot
  rw [Raft.getPendingConfigChangeCount,h.node.shows.entries,List.drop_drop,List.countP_eq_zero,
    show r.log.markerIndex + (r.log.committed - r.log.markerIndex) = r.log.committed by omega]
  intro e he
  rw [beq_iff_eq]
  intro ht
  obtain ⟨k,hk⟩ := List.mem_iff_getElem?.mp he
  rw [List.getElem?_drop] at hk
  have hidx := numbered_iff.mp h.shaped.numbered _ e hk
  have := h.shaped.changes e (List.mem_of_getElem? hk) ht
  omega

/-- With the votes of a quorum a candidate begins its log. -/
theorem At.becomeLeader (h : At members boot p i r) (hs : r.state = .candidate)
    (hq : members.length < 2 * r.votes.entries.countP (fun e => e.2)) :
    Does members boot p i r.becomeLeader (fun r' => r'.state = .leader) := by
  obtain rfl := h.self
  obtain ⟨hb,hl,hvotes⟩ := h.node.candidate hs
  have hquorum : (majority members).Quorum (fun j => p.voted j r.term = some r.nodeID) :=
    majority_of_countP r.votes (fun v => v) (fun j v hj hv => hvotes j (hj.trans (by rw [hv]))) hq
  have hunled := h.world.inv.unled hb hquorum hl
  have hann : p.announced r.term = 0 := by
    rcases Nat.eq_zero_or_pos (p.announced r.term) with h0 | h0
    · exact h0
    · obtain ⟨L,hL,-⟩ := h.world.inv.told h0
      rw [hunled] at hL
      cases hL
  obtain ⟨-,ha⟩ := h.toFollowerState (Nat.le_refl _) r.nodeID true
  have hsame : p.advance r.nodeID r.term = p := by
    rw [State.advance,← h.node.term,Function.update_eq_self]
  rw [hsame] at ha
  have hcount : Raft.getPendingConfigChangeCount { r.reset r.term true with state := .leader, leaderID := r.nodeID } = 0 :=
    h.pendingConfigChange
  rw [Raft.becomeLeader,if_neg (by rw [hs]; decide),Raft.preLeaderPromotionHandleConfigChange,hcount]
  obtain ⟨hm,hw⟩ := h.world.elect h.node.term hb hquorum hl (e := { term := r.term, index := r.log.lastIndex + 1 }) rfl
    (ha.shaped_append [{}] (by simp))
  refine Does.mono (At.write [{}]
    (r := { r.reset r.term true with state := .leader, leaderID := r.nodeID, pendingConfigChange := false })
    ⟨ha.world,{ ha.node with member := ha.node.member },rfl⟩ rfl hm hw (hann ▸ Nat.zero_le _) h.node.timeout
    (fun j rm hj => ?_)) (fun r' hr' => congrArg Raft.state hr')
  change AList.lookup j (r.remotes.mapWithKey _) = some rm at hj
  rw [KeyedMap.lookup_mapWithKey] at hj
  obtain ⟨rm,-,rfl⟩ := Option.map_eq_some_iff.mp hj
  refine remoteOk_fresh (fun hj => ?_)
  change r.log.lastIndex ≤ put p.acked r.nodeID r.term _ j r.term
  rw [hj,put_same,h.node.shows.lastIndex,List.length_append]
  exact Nat.le_add_right _ _

/-- A request says with which log the candidate runs. -/
theorem At.requestVotes (h : At members boot p i r) (hs : r.state = .candidate) (hint : Nat) :
    Does members boot p i (r.others.foldlM (fun r' id => r'.send
      { type := .requestVote, dest := id, term := r.term, logIndex := r.log.lastIndex, logTerm := r.log.lastTerm, hint }) r)
      (Keeps r) := by
  obtain rfl := h.self
  refine Does.foldlM h (Keeps.refl r) (fun p' r' j _ h' hr' => ?_)
  have hterm := hr'.term
  have hlog := hr'.log
  have hid : r'.nodeID = r.nodeID := h'.self
  have hpos := h.term_pos
  have hb : Backed p' { type := .requestVote, dest := j, sender := r'.nodeID, term := r'.term,
                        logIndex := r.log.lastIndex, logTerm := r.log.lastTerm, hint } := by
    refine ⟨_,(h'.node.candidate (hr'.state.trans hs)).1,?_,?_⟩
    · rw [← hlog]
      exact h'.node.shows.lastIndex
    · rw [← hlog]
      exact h'.node.shows.lastTerm
  have hsend : r'.send { type := .requestVote, dest := j, term := r.term, logIndex := r.log.lastIndex,
                         logTerm := r.log.lastTerm, hint } =
      some { r' with msgs := r'.msgs ++ [{ type := .requestVote, dest := j, sender := r'.nodeID, term := r'.term,
                                           logIndex := r.log.lastIndex, logTerm := r.log.lastTerm, hint }] } := by
    rw [Raft.send,Raft.finalizeMessageTerm,if_neg (by simp; omega),if_neg (by simp)]
    rfl
  rw [hsend]
  have hsent : Sent members p' { type := .requestVote, dest := j, sender := r'.nodeID, term := r'.term,
                                 logIndex := r.log.lastIndex, logTerm := r.log.lastTerm, hint } :=
    ⟨h'.node.member,rfl,h'.term_pos,hb⟩
  exact (h'.queue hsent).does (hr'.trans rfl)

private theorem At.campaign (h : At members boot p i r) (hs : r.state ≠ .leader) :
    Does members boot p i r.campaign (fun _ => True) := by
  rw [Raft.campaign]
  refine Does.bind h.world (h.becomeCandidate hs) (fun p' r' _ h' hr' => ?_)
  obtain rfl := h'.self
  obtain ⟨hs',hvotes,hvote⟩ := hr'
  have hself : p'.voted r'.nodeID r'.term = some r'.nodeID := by
    rw [h'.node.vote,if_neg (by rw [hvote]; exact h'.world.nodes _ h'.node.member),hvote]
  have hv := h'.handleVoteResp (j := r'.nodeID) false (fun _ => ⟨h'.node.member,hself⟩)
  dsimp only
  by_cases hsingle : (r'.handleVoteResp r'.nodeID false).1.isSingleNodeQuorum = true
  · rw [if_pos hsingle]
    refine (hv.becomeLeader hs' ?_).mono (fun _ _ => trivial)
    have hone : (r'.handleVoteResp r'.nodeID false).1.votes = AList.insert r'.nodeID true ∅ := by
      simp [Raft.handleVoteResp,hvotes]
    have hcount : (AList.insert r'.nodeID true (∅ : KeyedMap Nat Bool)).entries.countP (fun e => e.2) = 1 := rfl
    rw [hone,hcount]
    have hn := hv.numVotingMembers
    rw [Raft.isSingleNodeQuorum,Raft.quorum,hn,beq_iff_eq] at hsingle
    omega
  · rw [if_neg hsingle]
    have hclear : At members boot p' r'.nodeID { (r'.handleVoteResp r'.nodeID false).1 with isLeaderTransferTarget := false } :=
      ⟨hv.world,{ hv.node with member := hv.node.member },hv.self⟩
    exact (hclear.requestVotes hs' _).mono (fun _ _ => trivial)

/-- A node that does not lead and has applied what it committed runs for leader. -/
theorem At.handleNodeElection (h : At members boot p i r) :
    Does members boot p i r.handleNodeElection (fun _ => True) := by
  rw [Raft.handleNodeElection]
  split_ifs with hl ha
  · exact h.does trivial
  · exact h.does trivial
  · exact h.campaign hl

end Campaign

section Votes

/-- The node votes once a term, and for no log older than its own. -/
theorem At.grantVote {B : List Entry} (h : At members boot p i r) (hj : j ∈ members) (hb : p.bid r.term j = some B)
    (hv : r.vote = noNode ∨ r.vote = j) (hu : UpToDate Entry.term B (p.log i)) :
    Moves members i p (p.vote i j r.term) ∧
      At members boot (p.vote i j r.term) i { r with electionTick := 0, vote := j } := by
  obtain rfl := h.self
  have hold : ∀ c ∈ p.voted r.nodeID r.term, c = j := by
    intro c hc
    rw [h.node.vote] at hc
    split_ifs at hc with h0
    · cases hc
    · rw [Option.mem_some_iff] at hc
      exact hc ▸ hv.resolve_left h0
  obtain ⟨hm,hw⟩ := h.world.vote h.node.term hold hb hu
  have hg := (h.world.grows hm).2
  refine ⟨hm,hw,?_,rfl⟩
  exact { h.node with
    vote := (put_same ..).trans (if_neg (h.world.nodes _ hj)).symm
    msgs := fun m hm' => (h.node.msgs m hm').grows hg
    candidate := fun hc => by
      obtain ⟨h1,h2,h3⟩ := h.node.candidate hc
      exact ⟨h1,h2,fun k hk => ⟨(h3 k hk).1,hg.voted (h3 k hk).2⟩⟩
    leader := fun hl => by
      obtain ⟨h1,h2,-,hrest⟩ := h.node.leader hl
      exact ⟨h1,h2,h.node.timeout,hrest⟩ }

/-- A request for a vote in the node's term is answered. -/
theorem At.handleNodeRequestVote (h : At members boot p i r) (hm : Sent members p m) (ht : m.type = .requestVote)
    (hterm : r.term = m.term) : Does members boot p i (r.handleNodeRequestVote m) (fun _ => True) := by
  obtain rfl := h.self
  have hb := hm.backed
  rw [Backed,ht] at hb
  obtain ⟨B,hB,hidx,hlt⟩ := hb
  rw [Raft.handleNodeRequestVote]
  dsimp only
  split_ifs with hgrant
  · rw [Bool.and_eq_true,hidx,hlt,h.node.shows.upToDate,Raft.canGrantVote] at hgrant
    have hv : r.vote = noNode ∨ r.vote = m.sender := by
      simpa [hterm] using hgrant.1
    obtain ⟨hmoves,ha⟩ := h.grantVote hm.member (hterm ▸ hB) hv hgrant.2
    refine Does.after h.world hmoves ((ha.send { type := .requestVoteResp, dest := m.sender } rfl rfl rfl ?_).mono
      (fun _ _ => trivial))
    exact fun _ => put_same ..
  · refine (h.send { type := .requestVoteResp, dest := m.sender, reject := true } rfl rfl rfl ?_).mono (fun _ _ => trivial)
    exact fun hr => by cases hr

/-- A candidate counts a vote and may have won or lost. -/
theorem At.handleCandidateRequestVoteResp (h : At members boot p i r) (hs : r.state = .candidate)
    (hm : Sent members p m)
    (ht : m.type = .requestVoteResp) (hdest : m.dest = i) (hterm : r.term = m.term) :
    Does members boot p i (r.handleCandidateRequestVoteResp m) (fun _ => True) := by
  have hb := hm.backed
  rw [Backed,ht] at hb
  have hv := h.handleVoteResp (j := m.sender) m.reject
    (fun hr => ⟨hm.member,by rw [hterm,← hdest]; exact hb hr⟩)
  rw [Raft.handleCandidateRequestVoteResp]
  dsimp only
  split_ifs with hq hq'
  · have hn := hv.numVotingMembers
    have hmaj : members.length < 2 * (r.handleVoteResp m.sender m.reject).1.votes.entries.countP (fun e => e.2) := by
      change members.length < 2 * (r.handleVoteResp m.sender m.reject).2
      rw [hq,Raft.quorum,hn]
      omega
    exact Does.bind h.world (hv.becomeLeader hs hmaj)
      (fun p' r' _ h' hl => (h'.broadcastReplicate hl).mono (fun _ _ => trivial))
  · exact (hv.becomeFollower (Nat.le_refl _) noLeader).mono (fun _ _ => trivial)
  · exact hv.does trivial

end Votes

end Zuul.Dragonboat
