import Zuul.Dragonboat.Followers

/-! Every handler of a node keeps to the history. -/
namespace Zuul.Dragonboat
open Lib Lib.LeaderLog

variable {members : List Nat} {boot i j : Nat} {p p' : History} {r : Raft} {m : Message}

section Propose

private theorem checkConfigChanges_eq (r : Raft) {es : List Entry} (hc : ∀ e ∈ es, e.type ≠ .configChange) :
    r.checkConfigChanges es = (r,es) := by
  induction es with
  | nil => rfl
  | cons e es ih =>
    rw [Raft.checkConfigChanges,if_neg (hc e List.mem_cons_self),ih (fun d hd => hc d (List.mem_cons_of_mem e hd))]

private theorem At.handleLeaderPropose (h : At members boot p i r) (hl : r.state = .leader)
    (hc : ∀ e ∈ m.entries, e.type ≠ .configChange) :
    Does members boot p i (r.handleLeaderPropose m) (fun _ => True) := by
  rw [Raft.handleLeaderPropose,if_neg (not_not_intro hl),checkConfigChanges_eq r hc]
  split_ifs
  · exact At.does ⟨h.world,{ h.node with member := h.node.member },h.self⟩ trivial
  · refine Does.bind h.world (h.appendEntries hl hc) (fun p' r' _ h' hr' => ?_)
    exact (h'.broadcastReplicate ((congrArg Raft.state hr').trans hl)).mono (fun _ _ => trivial)

private theorem Backed.request {dest sender term : Nat} (hr : isRequestMessage m.type = true) (hb : Backed p m) :
    Backed p { m with dest, sender, term } := by
  unfold Backed at hb ⊢
  dsimp only
  revert hr hb
  cases m.type <;> simp [isRequestMessage]

/-- A request is passed on to the leader as it is. -/
theorem At.forward (h : At members boot p i r) (h0 : m.term = 0) (hr : isRequestMessage m.type = true)
    (hb : Backed p m) (dest : Nat) : Does members boot p i (r.send { m with dest }) (fun _ => True) := by
  refine (h.send { m with dest } h0 ?_ ?_ (Backed.request (m := m) hr hb)).mono (fun _ _ => trivial)
  · revert hr
    change isRequestMessage m.type = true → (m.type == .requestVote) = false
    cases m.type <;> decide
  · revert hr
    change isRequestMessage m.type = true → isLocalMessageType m.type = false
    cases m.type <;> decide

/-- Entries that are proposed are appended by a leader, and otherwise passed on or dropped. -/
theorem At.propose (h : At members boot p i r) (ht : m.type = .propose) (h0 : m.term = 0)
    (hc : ∀ e ∈ m.entries, e.type ≠ .configChange) : Does members boot p i (r.defaultHandle m) (fun _ => True) := by
  rw [Raft.defaultHandle,ht]
  cases hs : r.state with
  | follower =>
    change Does members boot p i (r.handleFollowerPropose m) _
    rw [Raft.handleFollowerPropose]
    split_ifs
    · exact At.does ⟨h.world,{ h.node with member := h.node.member },h.self⟩ trivial
    · exact h.forward h0 (by rw [ht]; rfl) (by rw [Backed,ht]; exact hc) _
  | candidate => exact At.does ⟨h.world,{ h.node with member := h.node.member },h.self⟩ trivial
  | leader => exact h.handleLeaderPropose hs hc

end Propose

section Transfer

/-- A leader that is asked to hand over tells its successor when that one has the log. -/
theorem At.leaderTransfer (h : At members boot p i r) (ht : m.type = .leaderTransfer) (h0 : m.term = 0)
    (hn : m.hint ≠ noNode) : Does members boot p i (r.defaultHandle m) (fun _ => True) := by
  rw [Raft.defaultHandle,ht]
  cases hs : r.state with
  | follower =>
    change Does members boot p i (r.handleFollowerLeaderTransfer m) _
    rw [Raft.handleFollowerLeaderTransfer]
    split_ifs
    · exact h.does trivial
    · exact h.forward h0 (by rw [ht]; rfl) (by rw [Backed,ht]; exact hn) _
  | candidate => exact h.does trivial
  | leader =>
    change Does members boot p i (r.handleLeaderTransfer m) _
    rw [Raft.handleLeaderTransfer]
    dsimp only
    rw [if_neg (not_or_intro (not_not_intro hs) hn)]
    split_ifs
    · exact h.does trivial
    · split
      · exact h.does trivial
      · have ha : At members boot p i { r with leaderTransferTarget := m.hint, electionTick := 0 } := by
          refine ⟨h.world,{ h.node with leader := fun hl => ?_ },h.self⟩
          obtain ⟨h1,h2,-,hrest⟩ := h.node.leader hl
          exact ⟨h1,h2,h.node.timeout,hrest⟩
        split_ifs
        · exact (ha.sendTimeoutNow _).mono (fun _ _ => trivial)
        · exact ha.does trivial

end Transfer

section Reads

private theorem At.setReads {readIndex : ReadIndex} (h : At members boot p i r) (hr : readIndex.Ok r.log.committed) :
    At members boot p i { r with readIndex } :=
  ⟨h.world,{ h.node with reads := hr },h.self⟩

private theorem At.handleLeaderReadIndex (h : At members boot p i r) (hl : r.state = .leader) :
    Does members boot p i (r.handleLeaderReadIndex m) (fun _ => True) := by
  have hpos : ¬r.term = 0 := Nat.ne_of_gt h.term_pos
  rw [Raft.handleLeaderReadIndex,if_neg (not_not_intro hl),Raft.hasCommittedEntryAtCurrentTerm,if_neg hpos]
  simp only [Option.bind_eq_bind,Option.bind_some]
  split_ifs
  · exact At.does ⟨h.world,{ h.node with member := h.node.member },h.self⟩ trivial
  · exact At.does ⟨h.world,{ h.node with member := h.node.member },h.self⟩ trivial
  · obtain ⟨reads,hadd,hok⟩ := h.node.reads.addRequest ⟨m.hint,m.hintHigh⟩ m.sender
    rw [hadd,Option.bind_some]
    exact ((h.setReads hok).broadcastHeartbeatWithHint hl _).mono (fun _ _ => trivial)

/-- A read waits for a quorum at the leader, and otherwise is passed on or dropped. -/
theorem At.readIndex (h : At members boot p i r) (ht : m.type = .readIndex) (h0 : m.term = 0) :
    Does members boot p i (r.defaultHandle m) (fun _ => True) := by
  rw [Raft.defaultHandle,ht]
  cases hs : r.state with
  | follower =>
    change Does members boot p i (r.handleFollowerReadIndex m) _
    rw [Raft.handleFollowerReadIndex]
    split_ifs
    · exact At.does ⟨h.world,{ h.node with member := h.node.member },h.self⟩ trivial
    · exact h.forward h0 (by rw [ht]; rfl) (by rw [Backed,ht]; trivial) _
  | candidate => exact At.does ⟨h.world,{ h.node with member := h.node.member },h.self⟩ trivial
  | leader => exact h.handleLeaderReadIndex hs

private theorem At.handleReadIndexLeaderConfirmation (h : At members boot p i r) :
    Does members boot p i (r.handleReadIndexLeaderConfirmation m) (fun _ => True) := by
  obtain ⟨reads,ris,hconf,hok⟩ := h.node.reads.confirm ⟨m.hint,m.hintHigh⟩ m.sender r.quorum
  rw [Raft.handleReadIndexLeaderConfirmation,hconf]
  refine Does.foldlM (h.setReads hok) trivial (fun p' r' s _ h' _ => ?_)
  rw [Raft.answerReads]
  split_ifs
  · exact At.does ⟨h'.world,{ h'.node with member := h'.node.member },h'.self⟩ trivial
  · exact (h'.send { type := .readIndexResp, dest := s.sender, logIndex := s.index, hint := m.hint,
                     hintHigh := m.hintHigh } rfl rfl rfl trivial).mono (fun _ _ => trivial)

end Reads

section Answers
variable {rp : Remote} (h : At members boot p i r) (hl : r.state = .leader) (hrp : r.remotes.lookup m.sender = some rp)
include h hl hrp

private theorem At.remoteOk : m.sender ∈ members ∧ RemoteOk (p.acked m.sender r.term) r.log.lastIndex rp :=
  ⟨(h.node.remotes _).mp ((r.remotes.mem_iff_lookup _).mpr ⟨rp,hrp⟩),(h.node.leader hl).2.2.2.2 _ rp hrp⟩

omit hrp in
/-- Nobody has more of a leader's log than the leader. -/
theorem At.acked_le : p.acked j r.term ≤ r.log.lastIndex := by
  obtain rfl := h.self
  rw [h.node.shows.lastIndex]
  rcases Nat.eq_zero_or_pos (p.acked j r.term) with h0 | h0
  · rw [h0]
    exact Nat.zero_le _
  · obtain ⟨-,L,hL,hle⟩ := h.world.inv.acks h0
    rw [h.led hl] at hL
    cases hL
    exact hle

private theorem At.handleLeaderReplicateResp (ht : m.type = .replicateResp) (hb : Backed p m)
    (hterm : r.term = m.term) :
    Does members boot p i (r.handleLeaderReplicateResp m rp) (fun _ => True) := by
  obtain ⟨hmem,hok⟩ := h.remoteOk hl hrp
  replace hok := hok.activate true
  rw [Backed,ht,← hterm] at hb
  rw [Raft.handleLeaderReplicateResp,if_neg (not_not_intro hl)]
  dsimp only
  generalize ({ rp with active := true } : Remote) = rp' at hok
  by_cases hrej : m.reject = true
  · rw [if_pos hrej]
    split_ifs
    · exact ((h.setRemote hmem (fun _ => (hok.decreaseTo _ _).enterRetryState)).sendReplicate hl hmem).mono
        (fun _ _ => trivial)
    · exact (h.setRemote hmem (fun _ => hok.decreaseTo _ _)).does trivial
  · rw [if_neg hrej]
    have hack := hb (by simpa using hrej)
    have hup := hok.tryUpdate hack (Nat.le_trans hack (h.acked_le hl))
    by_cases hnew : (!(rp'.tryUpdate m.logIndex).2) = true
    · rw [if_pos hnew]
      exact (h.setRemote hmem (fun _ => hup)).does trivial
    · rw [if_neg hnew]
      obtain ⟨k,done,p',he,hm,ha⟩ := (h.setRemote hmem (fun _ => hup.respondedTo)).tryCommit hl
      have hrest : ∀ p'' r', At members boot p'' i r' → Does members boot p'' i
          ((r'.remotes.lookup m.sender).bind (fun rp =>
            if r'.leaderTransfering ∧ m.sender = r'.leaderTransferTarget ∧ r'.log.lastIndex = rp.matched then
              r'.sendTimeoutNowMessage r'.leaderTransferTarget
            else some r')) (fun _ => True) := by
        intro p'' r' h'
        obtain ⟨rp'',hrp''⟩ := (r'.remotes.mem_iff_lookup m.sender).mp ((h'.node.remotes _).mpr hmem)
        rw [hrp'',Option.bind_some]
        split_ifs
        · exact (h'.sendTimeoutNow _).mono (fun _ _ => trivial)
        · exact h'.does trivial
      rw [he]
      refine Does.after h.world hm ?_
      simp only [Option.bind_eq_bind,Option.bind_some]
      split_ifs
      · exact Does.bind ha.world (ha.broadcastReplicate hl) (fun p'' r' _ h' _ => hrest p'' r' h')
      · exact Does.bind ha.world (ha.sendReplicate hl hmem) (fun p'' r' _ h' _ => hrest p'' r' h')
      · exact hrest p' _ ha

private theorem At.handleLeaderHeartbeatResp :
    Does members boot p i (r.handleLeaderHeartbeatResp m rp) (fun _ => True) := by
  obtain ⟨hmem,hok⟩ := h.remoteOk hl hrp
  have ha := h.setRemote hmem (fun _ => (hok.activate true).waitToRetry)
  have hrest : ∀ p' r', At members boot p' i r' → Does members boot p' i
      (if m.hint ≠ 0 then r'.handleReadIndexLeaderConfirmation m else some r') (fun _ => True) := by
    intro p' r' h'
    split_ifs
    · exact h'.handleReadIndexLeaderConfirmation
    · exact h'.does trivial
  rw [Raft.handleLeaderHeartbeatResp,if_neg (not_not_intro hl)]
  dsimp only
  split
  · exact Does.bind h.world (ha.sendReplicate hl hmem) (fun p' r' _ h' _ => hrest p' r' h')
  · exact hrest p _ ha

/-- The leader learns what became of a snapshot it sent. -/
theorem At.handleLeaderSnapshotStatus : Does members boot p i (r.handleLeaderSnapshotStatus m rp) (fun _ => True) := by
  obtain ⟨hmem,hok⟩ := h.remoteOk hl hrp
  rw [Raft.handleLeaderSnapshotStatus]
  split_ifs with hs h0
  · exact h.does trivial
  · exact (h.setRemote hmem (fun _ => hok.snapshotDone _)).does trivial
  · rw [Remote.setSnapshotAck,if_pos (not_not.mp hs)]
    have ha : At members boot p i (r.setRemote m.sender { rp with delayed := ⟨m.hint,m.reject⟩ }) :=
      h.setRemote hmem (fun _ => ⟨hok.matched,hok.known,hok.pos,hok.next,hok.snapshot⟩)
    exact At.does ⟨ha.world,{ ha.node with member := ha.node.member },ha.self⟩ trivial

/-- The leader learns that a member cannot be reached. -/
theorem At.handleLeaderUnreachable : Does members boot p i (r.handleLeaderUnreachable m rp) (fun _ => True) := by
  obtain ⟨hmem,hok⟩ := h.remoteOk hl hrp
  exact (h.setRemote hmem (fun _ => hok.enterRetryState)).does trivial

end Answers

section Ticks

private theorem At.mapRemotes {f : Nat → Remote → Remote} (h : At members boot p i r)
    (hf : ∀ j acked last rm, RemoteOk acked last rm → RemoteOk acked last (f j rm)) :
    At members boot p i { r with remotes := r.remotes.mapWithKey f } := by
  refine h.setRemotes (fun j => (mem_mapWithKey _ _).trans (h.node.remotes j)) (fun hl j rm hj => ?_)
  rw [KeyedMap.lookup_mapWithKey] at hj
  obtain ⟨rm,hrm,rfl⟩ := Option.map_eq_some_iff.mp hj
  exact hf j _ _ rm ((h.node.leader hl).2.2.2.2 j rm hrm)

private theorem At.handleLeaderCheckQuorum (h : At members boot p i r) (hl : r.state = .leader) :
    Does members boot p i r.handleLeaderCheckQuorum (fun _ => True) := by
  have ha := h.mapRemotes (f := fun _ rm => { rm with active := false }) (fun _ _ _ _ hok => hok.activate false)
  rw [Raft.handleLeaderCheckQuorum,if_neg (not_not_intro hl),Raft.leaderHasQuorum]
  dsimp only
  split_ifs
  · exact ha.does trivial
  · exact (ha.becomeFollower (Nat.le_refl _) noLeader).mono (fun _ _ => trivial)

private theorem At.checkPendingSnapshotAck (h : At members boot p i r) :
    At members boot p i r.checkPendingSnapshotAck := by
  rw [Raft.checkPendingSnapshotAck]
  split_ifs
  · have ha := h.mapRemotes (f := fun _ rm => rm.checkAck.1) (fun _ _ _ _ hok => hok.checkAck)
    exact ⟨ha.world,{ ha.node with member := ha.node.member },ha.self⟩
  · exact h

/-- The timer of a leader never shows the timeout when the tick is over. -/
theorem At.leaderElectionTimer (h : At members boot p i r) (hl : r.state = .leader) :
    Does members boot p i (Raft.leaderElectionTimer { r with electionTick := r.electionTick + 1 }) (fun _ => True) := by
  have hset : ∀ tick < r.electionTimeout, At members boot p i { r with electionTick := tick } := by
    intro tick ht
    refine ⟨h.world,{ h.node with leader := fun hl => ?_ },h.self⟩
    obtain ⟨h1,h2,-,hrest⟩ := h.node.leader hl
    exact ⟨h1,h2,ht,hrest⟩
  rw [Raft.leaderElectionTimer]
  dsimp only
  split_ifs with hdue
  · exact (hset 0 h.node.timeout).handleLeaderCheckQuorum hl
  · exact (hset 0 h.node.timeout).does trivial
  · exact (hset _ (Nat.lt_of_not_le hdue)).does trivial

private theorem At.leaderHeartbeatTimer (h : At members boot p i r) :
    Does members boot p i r.leaderHeartbeatTimer (fun _ => True) := by
  have hset : ∀ tick, At members boot p i { r with heartbeatTick := tick } :=
    fun _ => ⟨h.world,{ h.node with member := h.node.member },h.self⟩
  rw [Raft.leaderHeartbeatTimer]
  dsimp only
  split_ifs with hdue hl
  · exact ((hset 0).broadcastHeartbeat hl).mono (fun _ _ => trivial)
  · exact (hset 0).does trivial
  · exact (hset _).does trivial

private theorem At.leaderTick (h : At members boot p i r) (hl : r.state = .leader) :
    Does members boot p i r.leaderTick (fun _ => True) := by
  rw [Raft.leaderTick,if_neg (not_not_intro hl)]
  refine Does.bind h.world (h.leaderElectionTimer hl) (fun p' r' _ h' _ => ?_)
  have ha : ∀ target, At members boot p' i { r' with leaderTransferTarget := target } :=
    fun _ => ⟨h'.world,{ h'.node with member := h'.node.member },h'.self⟩
  exact Does.bind h'.world (ha _).leaderHeartbeatTimer (fun p'' r'' _ h'' _ => h''.checkPendingSnapshotAck.does trivial)

private theorem At.nonLeaderTick (h : At members boot p i r) (hl : r.state ≠ .leader) :
    Does members boot p i r.nonLeaderTick (fun _ => True) := by
  have hset : ∀ tick, At members boot p i { r with electionTick := tick } :=
    fun _ => ⟨h.world,{ h.node with leader := fun hx => absurd hx hl },h.self⟩
  rw [Raft.nonLeaderTick,if_neg hl]
  dsimp only
  split_ifs
  · exact (hset 0).handleNodeElection
  · exact (hset _).does trivial

/-- A tick of the clock, whatever the role of the node. -/
theorem At.tick (h : At members boot p i r) : Does members boot p i r.tick (fun _ => True) := by
  rw [Raft.tick]
  split_ifs with hl
  · exact h.leaderTick hl
  · exact h.nonLeaderTick hl

private theorem At.handleFollowerTimeoutNow (h : At members boot p i r) (hs : r.state = .follower) :
    Does members boot p i r.handleFollowerTimeoutNow (fun _ => True) := by
  have ha : At members boot p i { r with electionTick := r.randomizedElectionTimeout, isLeaderTransferTarget := true } :=
    ⟨h.world,{ h.node with leader := fun hl => (by rw [show r.state = .leader from hl] at hs; cases hs) },h.self⟩
  rw [Raft.handleFollowerTimeoutNow]
  exact Does.bind h.world ha.tick (fun p' r' _ h' _ =>
    At.does ⟨h'.world,{ h'.node with member := h'.node.member },h'.self⟩ trivial)

end Ticks

section Handle

/-- A message of a later term ends the own one, a message of an earlier term is dropped. -/
theorem At.onMessageTermNotMatched (h : At members boot p i r) (m : Message) :
    ∃ r' dropped p', r.onMessageTermNotMatched m = some (r',dropped) ∧ Moves members i p p' ∧ At members boot p' i r' ∧
      (dropped = false → m.term = 0 ∨ r'.term = m.term) := by
  rw [Raft.onMessageTermNotMatched]
  by_cases hsame : m.term = 0 ∨ m.term = r.term
  · rw [if_pos hsame]
    exact ⟨r,false,p,rfl,.refl i p,h,fun _ => hsame.imp_right Eq.symm⟩
  rw [if_neg hsame]
  obtain ⟨b,hb⟩ : ∃ b, r.dropRequestVoteFromHighTermNode m = some b := by
    rw [Raft.dropRequestVoteFromHighTermNode]
    split_ifs with h1 h2 h3
    · exact ⟨_,rfl⟩
    · exact ⟨_,rfl⟩
    · exact absurd h3.2 (Nat.not_le.mpr (h.node.leader h3.1).2.2.1)
    · exact ⟨_,rfl⟩
  rw [hb]
  simp only [Option.bind_eq_bind,Option.bind_some]
  cases b with
  | true => exact ⟨r,true,p,rfl,.refl i p,h,fun hx => by cases hx⟩
  | false =>
    rw [if_neg Bool.false_ne_true]
    by_cases hlt : r.term < m.term
    · rw [if_pos hlt]
      generalize (if isLeaderMessage m.type then m.sender else noLeader) = leaderID
      have hto := h.toFollowerState (Nat.le_of_lt hlt) leaderID
      split_ifs
      · exact ⟨_,false,_,rfl,(hto false).1,(hto false).2,fun _ => .inr rfl⟩
      · exact ⟨_,false,_,rfl,(hto true).1,(hto true).2,fun _ => .inr rfl⟩
    · rw [if_neg hlt]
      split_ifs
      · obtain ⟨r',p',hsend,hm,ha,-⟩ := h.send { type := .noOP, dest := m.sender } rfl rfl rfl trivial
        rw [hsend]
        exact ⟨r',true,p',rfl,hm,ha,fun hx => by cases hx⟩
      · exact ⟨r,true,p,rfl,.refl i p,h,fun hx => by cases hx⟩

private theorem Sent.term_zero (h : Sent members p m) (hr : isRequestMessage m.type = true) : m.term = 0 := by
  have := h.term
  rwa [if_pos hr] at this

/-- A message of the leader of the node's term finds it a follower, or makes it one. -/
theorem At.fromLeader {f : Raft → Message → Option Raft} (h : At members boot p i r) (hm : Sent members p m)
    (hf : ∀ {p' r'}, At members boot p' i r' → r'.state = .follower → Sent members p' m → r'.term = r.term →
      Does members boot p' i (f r' m) (fun _ => True)) :
    (r.state = .follower → Does members boot p i (f { r.leaderIsAvailable with leaderID := m.sender } m) (fun _ => True)) ∧
    Does members boot p i (f (r.becomeFollower r.term m.sender) m) (fun _ => True) := by
  constructor
  · intro hs
    refine hf ⟨h.world,{ h.node with leader := fun hl => ?_ },h.self⟩ hs hm rfl
    rw [show r.state = .leader from hl] at hs
    cases hs
  · obtain ⟨hmoves,ha⟩ := h.toFollowerState (Nat.le_refl _) m.sender true
    exact Does.after h.world hmoves (hf ha rfl (hm.grows (h.world.grows hmoves).2) rfl)

/-- A handler that is called for a member the node knows. -/
theorem At.lw {f : Raft → Message → Remote → Option Raft} (h : At members boot p i r)
    (hf : ∀ rp, r.remotes.lookup m.sender = some rp → Does members boot p i (f r m rp) (fun _ => True)) :
    Does members boot p i (r.lw f m) (fun _ => True) := by
  rw [Raft.lw]
  split
  · exact h.does trivial
  · rename_i rp hrp
    exact hf rp hrp

/-- Every message of a member, in the term of the node if it has one. -/
theorem At.defaultHandle (h : At members boot p i r) (hm : Sent members p m) (hdest : m.dest = i)
    (hterm : isRequestMessage m.type = false → r.term = m.term) :
    Does members boot p i (r.defaultHandle m) (fun _ => True) := by
  have hrem := hm.remote
  cases ht : m.type with
  | propose => exact h.propose ht (hm.term_zero (by rw [ht]; rfl)) (by simpa [Backed,ht] using hm.backed)
  | readIndex => exact h.readIndex ht (hm.term_zero (by rw [ht]; rfl))
  | leaderTransfer => exact h.leaderTransfer ht (hm.term_zero (by rw [ht]; rfl)) (by simpa [Backed,ht] using hm.backed)
  | localTick | election | leaderHeartbeat | snapshotStatus | unreachable | checkQuorum =>
    rw [ht] at hrem
    cases hrem
  | configChangeEvent => exact (show False by simpa [Backed,ht] using hm.backed).elim
  | noOP | snapshotReceived =>
    rw [Raft.defaultHandle,ht]
    exact h.does trivial
  | replicate =>
    have hboth := h.fromLeader hm (fun ha hs hm' he => ha.handleReplicateMessage hs hm' (he.trans (hterm (by rw [ht]; rfl))) ht)
    rw [Raft.defaultHandle,ht]
    cases hs : r.state with
    | follower => exact hboth.1 hs
    | candidate => exact hboth.2
    | leader => exact h.does trivial
  | heartbeat =>
    have hboth := h.fromLeader hm (fun ha _ hm' he => ha.handleHeartbeatMessage hm' (he.trans (hterm (by rw [ht]; rfl))) ht hdest)
    rw [Raft.defaultHandle,ht]
    cases hs : r.state with
    | follower => exact hboth.1 hs
    | candidate => exact hboth.2
    | leader => exact h.does trivial
  | installSnapshot =>
    have hboth := h.fromLeader hm
      (fun ha hs hm' he => ha.handleInstallSnapshotMessage hs hm' (he.trans (hterm (by rw [ht]; rfl))) ht)
    rw [Raft.defaultHandle,ht]
    cases hs : r.state with
    | follower => exact hboth.1 hs
    | candidate => exact hboth.2
    | leader => exact h.does trivial
  | requestVote =>
    rw [Raft.defaultHandle,ht]
    exact h.handleNodeRequestVote hm ht (hterm (by rw [ht]; rfl))
  | requestVoteResp =>
    rw [Raft.defaultHandle,ht]
    cases hs : r.state with
    | follower => exact h.does trivial
    | candidate => exact h.handleCandidateRequestVoteResp hs hm ht hdest (hterm (by rw [ht]; rfl))
    | leader => exact h.does trivial
  | replicateResp =>
    rw [Raft.defaultHandle,ht]
    cases hs : r.state with
    | follower => exact h.does trivial
    | candidate => exact h.does trivial
    | leader => exact h.lw (fun rp hrp => h.handleLeaderReplicateResp hs hrp ht hm.backed (hterm (by rw [ht]; rfl)))
  | heartbeatResp =>
    rw [Raft.defaultHandle,ht]
    cases hs : r.state with
    | follower => exact h.does trivial
    | candidate => exact h.does trivial
    | leader => exact h.lw (fun rp hrp => h.handleLeaderHeartbeatResp hs hrp)
  | readIndexResp =>
    rw [Raft.defaultHandle,ht]
    cases hs : r.state with
    | follower =>
      refine At.does ⟨h.world,{ h.node with leader := fun hl => ?_ },h.self⟩ trivial
      rw [show r.state = .leader from hl] at hs
      cases hs
    | candidate => exact h.does trivial
    | leader => exact h.does trivial
  | timeoutNow =>
    rw [Raft.defaultHandle,ht]
    cases hs : r.state with
    | follower => exact h.handleFollowerTimeoutNow hs
    | candidate => exact h.does trivial
    | leader => exact h.does trivial

/-- A local message goes to the handler of the role at once. -/
theorem handle_of_term_zero (r : Raft) (h0 : m.term = 0) : r.handle m = r.defaultHandle m := by
  rw [Raft.handle,Raft.onMessageTermNotMatched,if_pos (.inl h0)]
  simp [h0]

/-- Every message from the network. -/
theorem At.peerHandle (h : At members boot p i r) (hm : Sent members p m) (hdest : m.dest = i) :
    Does members boot p i (r.peerHandle m) (fun _ => True) := by
  rw [Raft.peerHandle,if_neg (by rw [hm.remote]; exact Bool.false_ne_true)]
  split_ifs
  · obtain ⟨r',dropped,p',he,hmoves,ha,hterm⟩ := h.onMessageTermNotMatched m
    have hm' := hm.grows (h.world.grows hmoves).2
    rw [Raft.handle,he]
    refine Does.after h.world hmoves ?_
    cases dropped with
    | true => exact ha.does trivial
    | false =>
      have hterm := hterm rfl
      have hreq : isRequestMessage m.type = false → r'.term = m.term := by
        intro hr
        have hpos := hm.term
        rw [if_neg (by rw [hr]; exact Bool.false_ne_true)] at hpos
        exact hterm.resolve_left (Nat.ne_of_gt hpos)
      change Does members boot p' i (if m.term ≠ 0 ∧ r'.term ≠ m.term then none else r'.defaultHandle m) _
      rw [if_neg (fun hx => hterm.elim hx.1 hx.2)]
      exact ha.defaultHandle hm' hdest hreq
  · exact h.does trivial

end Handle

end Zuul.Dragonboat
