import Zuul.Dragonboat.EntryLog
import Zuul.Dragonboat.Remote

/-! The raft state machine of one node. All members vote: observers and witnesses are not
used. The functions that may panic are none where they do. -/
namespace Zuul.Dragonboat
open Lib

inductive MessageType where
  | localTick
  | election
  | leaderHeartbeat
  | configChangeEvent
  | noOP
  | propose
  | snapshotStatus
  | unreachable
  | checkQuorum
  | replicate
  | replicateResp
  | requestVote
  | requestVoteResp
  | installSnapshot
  | heartbeat
  | heartbeatResp
  | readIndex
  | readIndexResp
  | snapshotReceived
  | leaderTransfer
  | timeoutNow
  deriving DecidableEq, Repr

/-- The fields to and from of the code are dest and sender here. -/
structure Message where
  type : MessageType
  dest : Nat := 0
  sender : Nat := 0
  term : Nat := 0
  logTerm : Nat := 0
  logIndex : Nat := 0
  commit : Nat := 0
  reject : Bool := false
  hint : Nat := 0
  entries : List Entry := []
  snapshot : Snapshot := {}
  hintHigh : Nat := 0
  deriving DecidableEq, Repr

def isRequestMessage (t : MessageType) : Bool := t == .propose || t == .readIndex || t == .leaderTransfer

def isLeaderMessage (t : MessageType) : Bool :=
  t == .replicate || t == .installSnapshot || t == .heartbeat || t == .timeoutNow || t == .readIndexResp

def isLocalMessageType (t : MessageType) : Bool :=
  t == .election || t == .leaderHeartbeat || t == .unreachable || t == .snapshotStatus || t == .checkQuorum ||
    t == .localTick

def isResponseMessageType (t : MessageType) : Bool :=
  t == .replicateResp || t == .requestVoteResp || t == .heartbeatResp || t == .readIndexResp || t == .unreachable ||
    t == .snapshotStatus || t == .leaderTransfer

inductive NodeState where
  | follower
  | candidate
  | leader
  deriving DecidableEq, Repr

def noLeader : Nat := 0
def noNode : Nat := 0
def maxEntrySize : Nat := 67108864

/-- One node. The n-th random number it draws is rand n. -/
structure Raft where
  nodeID : Nat
  applied : Nat := 0
  term : Nat := 0
  vote : Nat := noNode
  log : EntryLog := {}
  remotes : KeyedMap Nat Remote := ∅
  state : NodeState := .follower
  votes : KeyedMap Nat Bool := ∅
  msgs : List Message := []
  leaderID : Nat := noLeader
  leaderTransferTarget : Nat := noNode
  isLeaderTransferTarget : Bool := false
  pendingConfigChange : Bool := false
  readIndex : ReadIndex := {}
  readyToRead : List (Nat × SystemCtx) := []
  droppedEntries : List Entry := []
  droppedReadIndexes : List SystemCtx := []
  checkQuorum : Bool := true
  snapshotting : Bool := false
  electionTick : Nat := 0
  heartbeatTick : Nat := 0
  heartbeatTimeout : Nat := 1
  electionTimeout : Nat := 10
  randomizedElectionTimeout : Nat := 10
  rand : Nat → Nat := fun _ => 0
  draws : Nat := 0

namespace Raft
variable (r : Raft)

def numVotingMembers : Nat := r.remotes.keys.length

def quorum : Nat := r.numVotingMembers / 2 + 1

def isSingleNodeQuorum : Bool := r.quorum == 1

def leaderTransfering : Bool := decide (r.leaderTransferTarget ≠ noNode) && r.state == .leader

def selfRemoved : Bool := decide (r.nodeID ∉ r.remotes)

section Send

def finalizeMessageTerm (m : Message) : Option Message :=
  if m.term = 0 ∧ m.type = .requestVote then none
  else if 0 < m.term ∧ m.type ≠ .requestVote then none
  else some (if isRequestMessage m.type then m else { m with term := r.term })

def send (m : Message) : Option Raft :=
  (r.finalizeMessageTerm { m with sender := r.nodeID }).map (fun m => { r with msgs := r.msgs ++ [m] })

def replicateMessage (dest next : Nat) (entries : List Entry) : Message :=
  { type := .replicate, dest, logIndex := next - 1, logTerm := r.log.term (next - 1), entries, commit := r.log.committed }

/-- A node whose next entry was compacted is sent the snapshot instead. -/
def sendReplicateMessage (dest : Nat) : Option Raft := do
  let rp ← r.remotes.lookup dest
  if rp.isPaused then return r
  match r.log.entriesFrom rp.next maxEntrySize with
  | none =>
    if !rp.active then return r
    if r.log.snapshot.index = 0 then none
    let r := { r with remotes := r.remotes.insert dest (rp.becomeSnapshot r.log.snapshot.index) }
    r.send { type := .installSnapshot, dest, snapshot := r.log.snapshot }
  | some entries =>
    match entries.getLast? with
    | none => r.send (r.replicateMessage dest rp.next entries)
    | some e =>
      if e.index ≠ rp.next - 1 + entries.length then none
      let rp' ← rp.progress e.index
      let m := r.replicateMessage dest rp.next entries
      { r with remotes := r.remotes.insert dest rp' }.send m

def others : List Nat := r.remotes.keys.filter (fun id => decide (id ≠ r.nodeID))

def broadcastReplicateMessage : Option Raft :=
  if r.state ≠ .leader then none else r.others.foldlM (fun r id => r.sendReplicateMessage id) r

def sendHeartbeatMessage (dest : Nat) (hint : SystemCtx) (matched : Nat) : Option Raft :=
  r.send { type := .heartbeat, dest, commit := min matched r.log.committed, hint := hint.low, hintHigh := hint.high }

def broadcastHeartbeatMessageWithHint (ctx : SystemCtx) : Option Raft :=
  r.others.foldlM (fun r id => (r.remotes.lookup id).bind (fun rm => r.sendHeartbeatMessage id ctx rm.matched)) r

def broadcastHeartbeatMessage : Option Raft :=
  if r.state ≠ .leader then none else r.broadcastHeartbeatMessageWithHint (r.readIndex.queue.getLast?.getD {})

def sendTimeoutNowMessage (nodeID : Nat) : Option Raft := r.send { type := .timeoutNow, dest := nodeID }

end Send

section Commit

/-- Three values are sorted by hand. -/
def sortMatchValues : List Nat → List Nat
  | [a,b,c] =>
    let (a,b) := if b < a then (b,a) else (a,b)
    let (b,c) := if c < b then (c,b) else (b,c)
    let (a,b) := if b < a then (b,a) else (a,b)
    [a,b,c]
  | matched => matched.insertionSort (· ≤ ·)

/-- The highest index that a quorum is known to have. -/
def quorumMatch : Option Nat :=
  (sortMatchValues (r.remotes.entries.map (fun e => e.2.matched)))[r.numVotingMembers - r.quorum]?

def tryCommit : Option (Raft × Bool) := do
  if r.state ≠ .leader then none
  let q ← r.quorumMatch
  let (log,done) ← r.log.tryCommit q r.term
  return ({ r with log },done)

/-- The entries of a proposal with the leader's term and the next indexes. -/
def stampEntries (entries : List Entry) : List Entry :=
  entries.mapIdx (fun i e => { e with term := r.term, index := r.log.lastIndex + 1 + i })

def appendEntries (entries : List Entry) : Option Raft := do
  let log ← r.log.append (r.stampEntries entries)
  let self ← r.remotes.lookup r.nodeID
  let r := { r with log, remotes := r.remotes.insert r.nodeID (self.tryUpdate log.lastIndex).1 }
  if r.isSingleNodeQuorum then return (← r.tryCommit).1
  return r

end Commit

section States

/-- In a new term the vote is free again. The other nodes are probed from the end of the log. -/
def reset (term : Nat) (resetElectionTimeout : Bool) : Raft :=
  { r with
    term
    vote := if r.term ≠ term then noNode else r.vote
    electionTick := if resetElectionTimeout then 0 else r.electionTick
    randomizedElectionTimeout :=
      if resetElectionTimeout then r.electionTimeout + r.rand r.draws % r.electionTimeout else r.randomizedElectionTimeout
    draws := if resetElectionTimeout then r.draws + 1 else r.draws
    votes := ∅
    heartbeatTick := 0
    readIndex := {}
    pendingConfigChange := false
    leaderTransferTarget := noNode
    remotes := r.remotes.mapWithKey (fun id _ =>
      { next := r.log.lastIndex + 1, matched := if id = r.nodeID then r.log.lastIndex else 0 }) }

def toFollowerState (term leaderID : Nat) (resetElectionTimeout : Bool) : Raft :=
  { r.reset term resetElectionTimeout with state := .follower, leaderID }

def becomeFollower (term leaderID : Nat) : Raft := r.toFollowerState term leaderID true

def becomeFollowerKE (term leaderID : Nat) : Raft := r.toFollowerState term leaderID false

def becomeCandidate : Option Raft :=
  if r.state = .leader then none
  else some { r.reset (r.term + 1) true with state := .candidate, leaderID := noLeader, vote := r.nodeID }

def getPendingConfigChangeCount : Nat :=
  (r.log.entries.drop (r.log.committed - r.log.markerIndex)).countP (fun e => e.type == .configChange)

def preLeaderPromotionHandleConfigChange : Option Raft :=
  let n := r.getPendingConfigChangeCount
  if 1 < n then none else some { r with pendingConfigChange := r.pendingConfigChange || n == 1 }

/-- The first entry of a term is empty. -/
def becomeLeader : Option Raft := do
  if r.state = .follower then none
  let r ← { r.reset r.term true with state := .leader, leaderID := r.nodeID }.preLeaderPromotionHandleConfigChange
  r.appendEntries [{}]

end States

section Election

/-- Only the first answer of a node counts. -/
def handleVoteResp (sender : Nat) (rejected : Bool) : Raft × Nat :=
  let votes := if sender ∈ r.votes then r.votes else r.votes.insert sender (!rejected)
  ({ r with votes },votes.entries.countP (fun e => e.2))

def campaign : Option Raft := do
  let r ← r.becomeCandidate
  let (r,_) := r.handleVoteResp r.nodeID false
  if r.isSingleNodeQuorum then r.becomeLeader
  else
    let hint := if r.isLeaderTransferTarget then r.nodeID else 0
    let r := { r with isLeaderTransferTarget := false }
    r.others.foldlM (fun r' id => r'.send { type := .requestVote, dest := id, term := r.term, logIndex := r.log.lastIndex,
                                            logTerm := r.log.lastTerm, hint }) r

/-- Not while a committed entry, which may be about the members, has not been applied. -/
def handleNodeElection : Option Raft :=
  if r.state = .leader then some r
  else if r.applied < r.log.committed then some r
  else r.campaign

def canGrantVote (m : Message) : Bool :=
  r.vote == noNode || r.vote == m.sender || decide (r.term < m.term)

def handleNodeRequestVote (m : Message) : Option Raft :=
  let resp : Message := { type := .requestVoteResp, dest := m.sender }
  if r.canGrantVote m && r.log.upToDate m.logIndex m.logTerm then
    { r with electionTick := 0, vote := m.sender }.send resp
  else r.send { resp with reject := true }

end Election

section Followers

def handleHeartbeatMessage (m : Message) : Option Raft := do
  let log ← r.log.commitTo m.commit
  { r with log }.send { type := .heartbeatResp, dest := m.sender, hint := m.hint, hintHigh := m.hintHigh }

/-- Whether the log was replaced by the snapshot. -/
def restore (ss : Snapshot) : Option (Raft × Bool) :=
  if ss.index ≤ r.log.committed then some (r,false)
  else if r.log.matchTerm ss.index ss.term then (r.log.commitTo ss.index).map (fun log => ({ r with log },false))
  else some ({ r with log := r.log.restore ss },true)

def handleInstallSnapshotMessage (m : Message) : Option Raft := do
  let (r,restored) ← r.restore m.snapshot
  r.send { type := .replicateResp, dest := m.sender, logIndex := if restored then r.log.lastIndex else r.log.committed }

def handleReplicateMessage (m : Message) : Option Raft :=
  let resp : Message := { type := .replicateResp, dest := m.sender }
  if m.logIndex < r.log.committed then r.send { resp with logIndex := r.log.committed }
  else if r.log.matchTerm m.logIndex m.logTerm then do
    let log ← r.log.tryAppend m.logIndex m.entries
    let lastIdx := m.logIndex + m.entries.length
    let log ← log.commitTo (min lastIdx m.commit)
    { r with log }.send { resp with logIndex := lastIdx }
  else r.send { resp with reject := true, logIndex := m.logIndex, hint := r.log.lastIndex }

def leaderIsAvailable : Raft := { r with electionTick := 0 }

def reportDroppedProposal (m : Message) : Raft := { r with droppedEntries := r.droppedEntries ++ m.entries }

def reportDroppedReadIndex (m : Message) : Raft :=
  { r with droppedReadIndexes := r.droppedReadIndexes ++ [⟨m.hint,m.hintHigh⟩] }

def addReadyToRead (index : Nat) (ctx : SystemCtx) : Raft := { r with readyToRead := r.readyToRead ++ [(index,ctx)] }

def handleFollowerPropose (m : Message) : Option Raft :=
  if r.leaderID = noLeader then some (r.reportDroppedProposal m) else r.send { m with dest := r.leaderID }

def handleFollowerReadIndex (m : Message) : Option Raft :=
  if r.leaderID = noLeader then some (r.reportDroppedReadIndex m) else r.send { m with dest := r.leaderID }

def handleFollowerLeaderTransfer (m : Message) : Option Raft :=
  if r.leaderID = noLeader then some r else r.send { m with dest := r.leaderID }

def handleFollowerReplicate (m : Message) : Option Raft :=
  { r.leaderIsAvailable with leaderID := m.sender }.handleReplicateMessage m

def handleFollowerHeartbeat (m : Message) : Option Raft :=
  { r.leaderIsAvailable with leaderID := m.sender }.handleHeartbeatMessage m

def handleFollowerInstallSnapshot (m : Message) : Option Raft :=
  { r.leaderIsAvailable with leaderID := m.sender }.handleInstallSnapshotMessage m

def handleFollowerReadIndexResp (m : Message) : Option Raft :=
  some ({ r.leaderIsAvailable with leaderID := m.sender }.addReadyToRead m.logIndex ⟨m.hint,m.hintHigh⟩)

end Followers

section Leaders

def handleLeaderHeartbeat : Option Raft := r.broadcastHeartbeatMessage

def leaderHasQuorum : Raft × Bool :=
  ({ r with remotes := r.remotes.mapWithKey (fun _ rm => { rm with active := false }) },
    decide (r.quorum ≤ r.remotes.entries.countP (fun e => e.1 == r.nodeID || e.2.active)))

def handleLeaderCheckQuorum : Option Raft :=
  if r.state ≠ .leader then none
  else
    let (r,has) := r.leaderHasQuorum
    some (if has then r else r.becomeFollower r.term noLeader)

/-- A second change of the members is replaced by an empty entry while one is pending. -/
def checkConfigChanges : Raft → List Entry → Raft × List Entry
  | r, [] => (r,[])
  | r, e :: es =>
    if e.type = .configChange then
      let r' := { r with
        droppedEntries := if r.pendingConfigChange then r.droppedEntries ++ [e] else r.droppedEntries
        pendingConfigChange := true }
      let (r'',es') := checkConfigChanges r' es
      (r'',(if r.pendingConfigChange then {} else e) :: es')
    else
      let (r',es') := checkConfigChanges r es
      (r',e :: es')

def handleLeaderPropose (m : Message) : Option Raft := do
  if r.state ≠ .leader then none
  if r.leaderTransfering then return r.reportDroppedProposal m
  let (r,entries) := r.checkConfigChanges m.entries
  let r ← r.appendEntries entries
  r.broadcastReplicateMessage

def hasCommittedEntryAtCurrentTerm : Option Bool :=
  if r.term = 0 then none else some (r.log.term r.log.committed == r.term)

def handleLeaderReadIndex (m : Message) : Option Raft := do
  if r.state ≠ .leader then none
  let ctx : SystemCtx := ⟨m.hint,m.hintHigh⟩
  if r.isSingleNodeQuorum then return r.addReadyToRead r.log.committed ctx
  if !(← r.hasCommittedEntryAtCurrentTerm) then return r.reportDroppedReadIndex m
  let readIndex ← r.readIndex.addRequest r.log.committed ctx m.sender
  { r with readIndex }.broadcastHeartbeatMessageWithHint ctx

def enterRetryState (rp : Remote) : Remote := if rp.state = .replicate then rp.becomeRetry else rp

def setRemote (id : Nat) (rp : Remote) : Raft := { r with remotes := r.remotes.insert id rp }

def handleLeaderReplicateResp (m : Message) (rp : Remote) : Option Raft := do
  if r.state ≠ .leader then none
  let rp := { rp with active := true }
  if m.reject then
    let (rp,decreased) := rp.decreaseTo m.logIndex m.hint
    if decreased then (r.setRemote m.sender (enterRetryState rp)).sendReplicateMessage m.sender
    else return r.setRemote m.sender rp
  else
    let paused := rp.isPaused
    let (rp,updated) := rp.tryUpdate m.logIndex
    if !updated then return r.setRemote m.sender rp
    let (r,committed) ← (r.setRemote m.sender rp.respondedTo).tryCommit
    let r ← if committed then r.broadcastReplicateMessage
      else if paused then r.sendReplicateMessage m.sender
      else some r
    let rp ← r.remotes.lookup m.sender
    if r.leaderTransfering ∧ m.sender = r.leaderTransferTarget ∧ r.log.lastIndex = rp.matched then
      r.sendTimeoutNowMessage r.leaderTransferTarget
    else return r

/-- Confirmed reads of other nodes are answered, those of this one are ready. -/
def answerReads (m : Message) (r : Raft) (s : ReadStatus) : Option Raft :=
  if s.sender = noNode ∨ s.sender = r.nodeID then some (r.addReadyToRead s.index s.ctx)
  else r.send { type := .readIndexResp, dest := s.sender, logIndex := s.index, hint := m.hint, hintHigh := m.hintHigh }

def handleReadIndexLeaderConfirmation (m : Message) : Option Raft := do
  let (readIndex,ris) ← r.readIndex.confirm ⟨m.hint,m.hintHigh⟩ m.sender r.quorum
  ris.foldlM (answerReads m) { r with readIndex }

def handleLeaderHeartbeatResp (m : Message) (rp : Remote) : Option Raft := do
  if r.state ≠ .leader then none
  let rp := { rp with active := true }.waitToRetry
  let r := r.setRemote m.sender rp
  let r ← if rp.matched < r.log.lastIndex then r.sendReplicateMessage m.sender else some r
  if m.hint ≠ 0 then r.handleReadIndexLeaderConfirmation m else return r

def handleLeaderTransfer (m : Message) : Option Raft :=
  let target := m.hint
  if r.state ≠ .leader ∨ target = noNode then none
  else if r.leaderTransfering ∨ r.nodeID = target then some r
  else match r.remotes.lookup target with
    | none => some r
    | some rp =>
      let r := { r with leaderTransferTarget := target, electionTick := 0 }
      if rp.matched = r.log.lastIndex then r.sendTimeoutNowMessage target else some r

def handleLeaderSnapshotStatus (m : Message) (rp : Remote) : Option Raft :=
  if rp.state ≠ .snapshot then some r
  else if m.hint = 0 then some (r.setRemote m.sender (rp.snapshotDone m.reject))
  else (rp.setSnapshotAck m.hint m.reject).map (fun rp => { r.setRemote m.sender rp with snapshotting := true })

def handleLeaderUnreachable (m : Message) (rp : Remote) : Option Raft :=
  some (r.setRemote m.sender (enterRetryState rp))

def checkPendingSnapshotAck : Raft :=
  if r.state = .leader ∧ r.snapshotting then
    { r with
      remotes := r.remotes.mapWithKey (fun _ rp => rp.checkAck.1)
      snapshotting := r.remotes.entries.any (fun e => e.2.checkAck.2) }
  else r

end Leaders

section Candidates

def handleCandidateReplicate (m : Message) : Option Raft :=
  (r.becomeFollower r.term m.sender).handleReplicateMessage m

def handleCandidateInstallSnapshot (m : Message) : Option Raft :=
  (r.becomeFollower r.term m.sender).handleInstallSnapshotMessage m

def handleCandidateHeartbeat (m : Message) : Option Raft :=
  (r.becomeFollower r.term m.sender).handleHeartbeatMessage m

def handleCandidateReadIndex (m : Message) : Option Raft :=
  let r := r.reportDroppedReadIndex m
  some { r with droppedReadIndexes := r.droppedReadIndexes ++ [⟨m.hint,m.hintHigh⟩] }

def handleCandidateRequestVoteResp (m : Message) : Option Raft := do
  let (r,count) := r.handleVoteResp m.sender m.reject
  if count = r.quorum then (← r.becomeLeader).broadcastReplicateMessage
  else if r.votes.keys.length - count = r.quorum then return r.becomeFollower r.term noLeader
  else return r

end Candidates

section Ticks

def nonLeaderTick : Option Raft :=
  if r.state = .leader then none
  else
    let r := { r with electionTick := r.electionTick + 1 }
    if !r.selfRemoved ∧ r.randomizedElectionTimeout ≤ r.electionTick then
      { r with electionTick := 0 }.handleNodeElection
    else some r

/-- Once per election timeout a leader looks whether a quorum has answered. -/
def leaderElectionTimer : Option Raft :=
  if r.electionTimeout ≤ r.electionTick then
    let r := { r with electionTick := 0 }
    if r.checkQuorum then r.handleLeaderCheckQuorum else some r
  else some r

/-- The message about the heartbeat is dropped if the leader has just stepped down. -/
def leaderHeartbeatTimer : Option Raft :=
  let r := { r with heartbeatTick := r.heartbeatTick + 1 }
  if r.heartbeatTimeout ≤ r.heartbeatTick then
    let r := { r with heartbeatTick := 0 }
    if r.state = .leader then r.handleLeaderHeartbeat else some r
  else some r

def leaderTick : Option Raft := do
  if r.state ≠ .leader then none
  let r := { r with electionTick := r.electionTick + 1 }
  let timeToAbortLeaderTransfer := r.leaderTransfering && decide (r.electionTimeout ≤ r.electionTick)
  let r ← r.leaderElectionTimer
  let r := { r with leaderTransferTarget := if timeToAbortLeaderTransfer then noNode else r.leaderTransferTarget }
  let r ← r.leaderHeartbeatTimer
  return r.checkPendingSnapshotAck

def tick : Option Raft := if r.state = .leader then r.leaderTick else r.nonLeaderTick

def handleFollowerTimeoutNow : Option Raft := do
  let r ← { r with electionTick := r.randomizedElectionTimeout, isLeaderTransferTarget := true }.tick
  return { r with isLeaderTransferTarget := false }

end Ticks

section Members

def addNode (nodeID : Nat) : Raft :=
  let r := { r with pendingConfigChange := false }
  if nodeID ∈ r.remotes then r else r.setRemote nodeID { next := r.log.lastIndex + 1 }

def removeNode (nodeID : Nat) : Option Raft := do
  let r := { r with remotes := r.remotes.erase nodeID, pendingConfigChange := false }
  let r := if r.nodeID = nodeID ∧ r.state = .leader then r.becomeFollower r.term noLeader else r
  let r := if r.leaderTransfering ∧ r.leaderTransferTarget = nodeID then { r with leaderTransferTarget := noNode } else r
  if r.state = .leader ∧ 0 < r.numVotingMembers then
    let (r,committed) ← r.tryCommit
    if committed then r.broadcastReplicateMessage else return r
  else return r

def addNodeType : Nat := 0
def removeNodeType : Nat := 1

/-- The changes that make observers or witnesses are left out with them. -/
def handleNodeConfigChange (m : Message) : Option Raft :=
  if m.reject then some { r with pendingConfigChange := false }
  else if m.hintHigh = addNodeType then some (r.addNode m.hint)
  else if m.hintHigh = removeNodeType then r.removeNode m.hint
  else none

/-- The members of an installed snapshot. -/
def restoreRemotes (members : List Nat) : Raft :=
  let r := { r with remotes := KeyedMap.fill id (fun id : Nat =>
    ({ next := r.log.lastIndex + 1, matched := if id = r.nodeID then r.log.lastIndex else 0 } : Remote)) members ∅ }
  if r.selfRemoved ∧ r.state = .leader then r.becomeFollower r.term noLeader else r

end Members

section Handle

def dropRequestVoteFromHighTermNode (m : Message) : Option Bool :=
  if m.type ≠ .requestVote ∨ !r.checkQuorum ∨ m.term ≤ r.term then some false
  else if m.hint = m.sender then some false
  else if r.state = .leader ∧ r.electionTimeout ≤ r.electionTick then none
  else some (decide (r.leaderID ≠ noLeader ∧ r.electionTick < r.electionTimeout))

/-- Whether the message is dropped. -/
def onMessageTermNotMatched (m : Message) : Option (Raft × Bool) := do
  if m.term = 0 ∨ m.term = r.term then return (r,false)
  if ← r.dropRequestVoteFromHighTermNode m then return (r,true)
  if r.term < m.term then
    let leaderID := if isLeaderMessage m.type then m.sender else noLeader
    return (if m.type = .requestVote then r.becomeFollowerKE m.term leaderID else r.becomeFollower m.term leaderID,false)
  if isLeaderMessage m.type && r.checkQuorum then return (← r.send { type := .noOP, dest := m.sender },true)
  return (r,true)

/-- The handler works on what the leader keeps of the sender. -/
def lw (f : Raft → Message → Remote → Option Raft) (m : Message) : Option Raft :=
  match r.remotes.lookup m.sender with
  | none => some r
  | some rp => f r m rp

/-- A message without a handler in the node's state is ignored. -/
def defaultHandle (m : Message) : Option Raft :=
  match m.type, r.state with
  | .heartbeat, .candidate => r.handleCandidateHeartbeat m
  | .heartbeat, .follower => r.handleFollowerHeartbeat m
  | .propose, .candidate => some (r.reportDroppedProposal m)
  | .propose, .follower => r.handleFollowerPropose m
  | .propose, .leader => r.handleLeaderPropose m
  | .readIndex, .candidate => r.handleCandidateReadIndex m
  | .readIndex, .follower => r.handleFollowerReadIndex m
  | .readIndex, .leader => r.handleLeaderReadIndex m
  | .readIndexResp, .follower => r.handleFollowerReadIndexResp m
  | .replicate, .candidate => r.handleCandidateReplicate m
  | .replicate, .follower => r.handleFollowerReplicate m
  | .installSnapshot, .candidate => r.handleCandidateInstallSnapshot m
  | .installSnapshot, .follower => r.handleFollowerInstallSnapshot m
  | .requestVoteResp, .candidate => r.handleCandidateRequestVoteResp m
  | .leaderTransfer, .follower => r.handleFollowerLeaderTransfer m
  | .leaderTransfer, .leader => r.handleLeaderTransfer m
  | .timeoutNow, .follower => r.handleFollowerTimeoutNow
  | .leaderHeartbeat, .leader => r.handleLeaderHeartbeat
  | .checkQuorum, .leader => r.handleLeaderCheckQuorum
  | .replicateResp, .leader => r.lw handleLeaderReplicateResp m
  | .heartbeatResp, .leader => r.lw handleLeaderHeartbeatResp m
  | .snapshotStatus, .leader => r.lw handleLeaderSnapshotStatus m
  | .unreachable, .leader => r.lw handleLeaderUnreachable m
  | .election, _ => r.handleNodeElection
  | .requestVote, _ => r.handleNodeRequestVote m
  | .localTick, _ => r.tick
  | .configChangeEvent, _ => r.handleNodeConfigChange m
  | _, _ => some r

def handle (m : Message) : Option Raft := do
  let (r,dropped) ← r.onMessageTermNotMatched m
  if dropped then return r
  if m.term ≠ 0 ∧ r.term ≠ m.term then none
  r.defaultHandle m

end Handle

section Peer

/-- One of the nodes a cluster is started with, and the entry that adds it. -/
structure PeerAddress where
  nodeID : Nat
  change : List UInt8 := []

def bootstrapEntries (addresses : List PeerAddress) : List Entry :=
  addresses.mapIdx (fun i peer => { type := .configChange, term := 1, index := i + 1, cmd := peer.change })

/-- The nodes that are there at the start are the first entries of every log, committed. -/
def bootstrap (addresses : List PeerAddress) : Option Raft := do
  let log ← r.log.append (bootstrapEntries addresses)
  let r := { r with log := { log with committed := addresses.length } }
  return addresses.foldl (fun r peer => r.addNode peer.nodeID) r

/-- A new node of a new cluster. -/
def launch (nodeID : Nat) (rand : Nat → Nat) (addresses : List PeerAddress) : Option Raft :=
  ((({ nodeID, rand } : Raft).becomeFollower 0 noLeader).becomeFollower 1 noLeader).bootstrap addresses

/-- Responses of nodes that are not members are dropped. -/
def peerHandle (m : Message) : Option Raft :=
  if isLocalMessageType m.type then none
  else if m.sender ∈ r.remotes ∨ !isResponseMessageType m.type then r.handle m
  else some r

/-- What the node gave its surroundings has been taken. -/
def commitUpdate : Raft := { r with msgs := [], readyToRead := [], droppedEntries := [], droppedReadIndexes := [] }

end Peer

end Raft
end Zuul.Dragonboat
