import Zuul.Dragonboat.Elections

/-! How a follower takes over what the leader of its term wrote. -/
namespace Zuul.Dragonboat
open Lib Lib.LeaderLog

variable {members : List Nat} {boot i : Nat} {p p' : History} {r : Raft} {m : Message} {L P : List Entry}

section Accept
variable (h : At members boot p i r) (hs : r.state = .follower) (hL : p.led r.term = some L)
include h hs hL

/-- The follower has P already and says so. -/
theorem At.acknowledge (hP : P <+: L) (hin : P <+: p.log i) :
    ∃ p', Moves members i p p' ∧ At members boot p' i r ∧ P <+: p'.log i ∧ P.length ≤ p'.acked i r.term := by
  obtain rfl := h.self
  obtain ⟨hm,hw⟩ := h.world.accept h.node.term hL hP
  have hg := (h.world.grows hm).2
  have hlog : (p.accept r.nodeID r.term P).log r.nodeID = p.log r.nodeID :=
    (Function.update_self ..).trans (if_pos hin)
  have hacked : P.length ≤ (p.accept r.nodeID r.term P).acked r.nodeID r.term :=
    Nat.le_trans (Nat.le_max_right _ _) (Nat.le_of_eq (put_same ..).symm)
  refine ⟨p.accept r.nodeID r.term P,hm,⟨hw,?_,rfl⟩,by rw [hlog]; exact hin,hacked⟩
  exact { h.node with
    shows := by rw [hlog]; exact h.node.shows
    snapshotTerm := by rw [hlog]; exact h.node.snapshotTerm
    committed := by rw [hlog]; exact h.node.committed
    settled := by rw [hlog]; exact h.node.settled.grows hg
    msgs := fun m hm' => (h.node.msgs m hm').grows hg
    candidate := fun hc => by
      rw [hs] at hc
      cases hc
    leader := fun hl => by
      rw [hs] at hl
      cases hl }

/-- The follower replaces its log by P, which has all that is committed. -/
theorem At.overwrite {l : EntryLog} (hP : P <+: L) (hnot : ¬P <+: p.log i) (hshows : Shows P l)
    (hmark : l.markerIndex ≤ l.snapshot.index) (hsnap : l.snapshot.index ≤ l.committed)
    (hterm : l.snapshot.term = termAt P l.snapshot.index) (happ : r.applied ≤ l.processed)
    (hproc : l.processed ≤ l.committed) (hcom : r.log.committed ≤ l.committed) (hlen : l.committed ≤ P.length)
    (hset : SettledBy p r.term (P.take l.committed)) :
    ∃ p', Moves members i p p' ∧ At members boot p' i { r with log := l } ∧ P <+: p'.log i ∧
      P.length ≤ p'.acked i r.term := by
  obtain rfl := h.self
  obtain ⟨hm,hw⟩ := h.world.accept h.node.term hL hP
  have hg := (h.world.grows hm).2
  have hlog : (p.accept r.nodeID r.term P).log r.nodeID = P := (Function.update_self ..).trans (if_neg hnot)
  have hacked : P.length ≤ (p.accept r.nodeID r.term P).acked r.nodeID r.term :=
    Nat.le_trans (Nat.le_max_right _ _) (Nat.le_of_eq (put_same ..).symm)
  refine ⟨p.accept r.nodeID r.term P,hm,⟨hw,?_,rfl⟩,by rw [hlog],hacked⟩
  exact { h.node with
    shows := by rw [hlog]; exact hshows
    marker := hmark
    snapshot := hsnap
    snapshotTerm := by rw [hlog]; exact hterm
    applied := happ
    processed := hproc
    boot := Nat.le_trans h.node.boot hcom
    committed := by rw [hlog]; exact hlen
    settled := by rw [hlog]; exact hset.grows hg
    reads := h.node.reads.mono hcom
    msgs := fun m hm' => (h.node.msgs m hm').grows hg
    candidate := fun hc => by
      rw [show r.state = .candidate from hc] at hs
      cases hs
    leader := fun hl => by
      rw [show r.state = .leader from hl] at hs
      cases hs }

omit hs in
/-- What is committed is in the log of every leader of the node's term. -/
theorem At.committed_led : (p.log i).take r.log.committed <+: L := by
  obtain rfl := h.self
  exact h.world.settled_led h.node.settled (Nat.le_refl _) hL

end Accept

section Matching
variable (h : At members boot p i r) (hP : p.Grounded Entry.term P)
include h hP

/-- Where the terms match, from what is committed on, the logs agree. -/
theorem At.matched {k : Nat} (hk : r.log.committed ≤ k) (hle : k ≤ P.length)
    (hm : r.log.matchTerm k (termAt P k) = true) : k ≤ (p.log i).length ∧ (p.log i).take k = P.take k := by
  obtain rfl := h.self
  have hmark := Nat.le_trans h.node.marker h.node.snapshot
  rw [EntryLog.matchTerm,beq_iff_eq] at hm
  rcases Nat.lt_or_ge (p.log r.nodeID).length k with hlt | hge
  · rw [h.node.shows.term_beyond hlt] at hm
    obtain ⟨n,rfl⟩ : ∃ n, k = n + 1 := ⟨k - 1,by omega⟩
    rw [termAt_succ (by omega)] at hm
    have := h.world.term_pos hP (List.getElem_mem (show n < P.length by omega))
    omega
  · rw [h.node.shows.term_eq (by omega) hge] at hm
    exact ⟨hge,h.world.log_matching h.grounded hP hge hle hm⟩

omit hP in
private theorem At.matchTerm_of_isPrefix (hk : r.log.committed ≤ P.length) (hin : P <+: p.log i) :
    r.log.matchTerm P.length (termAt P P.length) = true := by
  obtain rfl := h.self
  have hmark := Nat.le_trans h.node.marker h.node.snapshot
  rw [EntryLog.matchTerm,beq_iff_eq,h.node.shows.term_eq (by omega) hin.length_le]
  obtain ⟨t,ht⟩ := hin
  rw [← ht,termAt_append_left (Nat.le_refl _)]

end Matching

/-- The node commits up to k. -/
theorem At.commitTo {k : Nat} (h : At members boot p i r) (hk : k ≤ (p.log i).length)
    (hset : SettledBy p r.term ((p.log i).take k)) :
    ∃ log, r.log.commitTo k = some log ∧ At members boot p i { r with log } := by
  obtain rfl := h.self
  rw [EntryLog.commitTo]
  split_ifs with hc hlast
  · exact ⟨r.log,rfl,h⟩
  · rw [h.node.shows.lastIndex] at hlast
    omega
  · exact ⟨_,rfl,h.commit (Nat.le_of_not_le hc) hk hset⟩

section Replicate
variable (h : At members boot p i r) (hs : r.state = .follower) (hL : p.led r.term = some L)
include h hs hL

/-- Entries of the leader behind a place where the logs agree. -/
theorem At.tryAppend {prev : Nat} (hP : P <+: L) (hc : r.log.committed ≤ prev) (hle : prev ≤ P.length)
    (hprev : (p.log i).take prev = P.take prev) :
    ∃ log p', r.log.tryAppend prev (P.drop prev) = some log ∧ Moves members i p p' ∧
      At members boot p' i { r with log } ∧ P <+: p'.log i ∧ P.length ≤ p'.acked i r.term := by
  obtain rfl := h.self
  have hmark := Nat.le_trans h.node.marker h.node.snapshot
  have hg : p.Grounded Entry.term P := (h.world.inv.written hL).2.1.down hP
  have hsame : ∀ k ≤ prev, (p.log r.nodeID).take k = P.take k := by
    intro k hk
    have := congrArg (List.take k) hprev
    rwa [List.take_take,List.take_take,Nat.min_eq_left hk] at this
  rcases h.node.shows.tryAppend (Nat.le_trans hmark hc) ((h.world.shaped hL).down hP).numbered
    (fun e he => h.world.term_pos hg he) (fun k hk hk' he => h.world.log_matching h.grounded hg hk hk' he) hprev hle
    (h.world.sorted hg) hmark hc with ⟨hin,heq⟩ | ⟨es,hnot,heq,hshows⟩
  · obtain ⟨p',hm,ha,hrest⟩ := h.acknowledge hs hL hP hin
    exact ⟨r.log,p',heq,hm,ha,hrest⟩
  · obtain ⟨p',hm,ha,hrest⟩ := h.overwrite hs hL (l := { r.log with entries := es }) hP hnot hshows h.node.marker
      h.node.snapshot (by
        rw [h.node.snapshotTerm,termAt,termAt]
        rw [hsame _ (Nat.le_trans h.node.snapshot hc)])
      h.node.applied h.node.processed (Nat.le_refl _) (Nat.le_trans hc hle) (by
        rw [← hsame _ hc]
        exact h.node.settled)
    exact ⟨_,p',heq,hm,ha,hrest⟩

end Replicate

section Handlers
variable (h : At members boot p i r) (hs : r.state = .follower) (hm : Sent members p m) (hterm : r.term = m.term)
include h hs hm hterm

/-- A follower takes over the entries of its leader, or says where the logs part. -/
theorem At.handleReplicateMessage (ht : m.type = .replicate) :
    Does members boot p i (r.handleReplicateMessage m) (fun _ => True) := by
  obtain rfl := h.self
  have hb := hm.backed
  rw [Backed,ht] at hb
  obtain ⟨L,P,hL,hP,hidx,hents,hlt,hc,hset⟩ := hb
  rw [← hterm] at hL hset
  rw [Raft.handleReplicateMessage]
  dsimp only
  split_ifs with hold hmatch
  · -- all of that is committed here
    obtain ⟨p',hmoves,ha,-,hack⟩ := h.acknowledge hs hL (h.committed_led hL) (List.take_prefix _ _)
    rw [List.length_take_of_le h.node.committed] at hack
    exact Does.after h.world hmoves ((ha.send { type := .replicateResp, dest := m.sender, logIndex := r.log.committed }
      rfl rfl rfl (fun _ => hack)).mono (fun _ _ => trivial))
  · rw [hlt] at hmatch
    have hg : p.Grounded Entry.term P := (h.world.inv.written hL).2.1.down hP
    obtain ⟨-,hprev⟩ := h.matched hg (Nat.le_of_not_lt hold) hidx hmatch
    obtain ⟨log,p',happ,hmoves,ha,hin,hack⟩ := h.tryAppend hs hL hP (Nat.le_of_not_lt hold) hidx hprev
    have hgrow := (h.world.grows hmoves).2
    have hlast : m.logIndex + m.entries.length = P.length := by
      rw [hents,List.length_drop]
      omega
    have happ' : r.log.tryAppend m.logIndex m.entries = some log := by rw [hents]; exact happ
    obtain ⟨log',hcommit,ha'⟩ := ha.commitTo (k := min P.length m.commit)
      (Nat.le_trans (Nat.min_le_left _ _) hin.length_le) (by
        rw [take_of_isPrefix hin (Nat.min_le_left _ _)]
        exact (hset.grows hgrow).down ((hP.take _).trans (List.take_isPrefix_take.mpr (.inl (Nat.min_le_right _ _)))))
    simp only [Option.bind_eq_bind,happ',Option.bind_some,hlast]
    rw [show log.commitTo (min P.length m.commit) = some log' from hcommit,Option.bind_some]
    exact Does.after h.world hmoves ((ha'.send { type := .replicateResp, dest := m.sender, logIndex := P.length } rfl rfl rfl
      (fun _ => hack)).mono (fun _ _ => trivial))
  · exact (h.send { type := .replicateResp, dest := m.sender, reject := true, logIndex := m.logIndex,
                    hint := r.log.lastIndex } rfl rfl rfl (fun hr => by cases hr)).mono (fun _ _ => trivial)

omit hs in
/-- A follower commits what the leader says it has. -/
theorem At.handleHeartbeatMessage (ht : m.type = .heartbeat) (hdest : m.dest = i) :
    Does members boot p i (r.handleHeartbeatMessage m) (fun _ => True) := by
  obtain rfl := h.self
  have hb := hm.backed
  rw [Backed,ht] at hb
  obtain ⟨L,hL,hack,hc,hset⟩ := hb
  rw [← hterm] at hL hset hack
  -- the node has what it has said to have
  have hin : L.take m.commit <+: p.log r.nodeID :=
    h.world.inv.current (by rw [h.node.term]; exact hL) (List.take_prefix _ _) (by
      rw [List.length_take_of_le hc,h.node.term,← hdest]
      exact hack)
  have hle := hin.length_le
  rw [List.length_take_of_le hc] at hle
  obtain ⟨log,hcommit,ha⟩ := h.commitTo hle (by
    have := take_of_isPrefix hin (k := m.commit) (by rw [List.length_take_of_le hc])
    rw [this,List.take_take,Nat.min_self]
    exact hset)
  rw [Raft.handleHeartbeatMessage,hcommit]
  exact (ha.send { type := .heartbeatResp, dest := m.sender, hint := m.hint, hintHigh := m.hintHigh } rfl rfl rfl
    trivial).mono (fun _ _ => trivial)

/-- A follower takes over a snapshot, or has all of it. -/
theorem At.handleInstallSnapshotMessage (ht : m.type = .installSnapshot) :
    Does members boot p i (r.handleInstallSnapshotMessage m) (fun _ => True) := by
  obtain rfl := h.self
  have hb := hm.backed
  rw [Backed,ht] at hb
  obtain ⟨L,hL,hc,hst,hset⟩ := hb
  rw [← hterm] at hL hset
  have hlen : (L.take m.snapshot.index).length = m.snapshot.index := List.length_take_of_le hc
  have htake : (L.take m.snapshot.index).take m.snapshot.index = L.take m.snapshot.index := by
    rw [List.take_take,Nat.min_self]
  have hat : termAt (L.take m.snapshot.index) m.snapshot.index = m.snapshot.term := by
    rw [hst,termAt,htake,termAt]
  rw [Raft.handleInstallSnapshotMessage,Raft.restore]
  split_ifs with hold hmatch
  · -- all of that is committed here
    obtain ⟨p',hmoves,ha,-,hack⟩ := h.acknowledge hs hL (h.committed_led hL) (List.take_prefix _ _)
    rw [List.length_take_of_le h.node.committed] at hack
    exact Does.after h.world hmoves ((ha.send { type := .replicateResp, dest := m.sender, logIndex := r.log.committed }
      rfl rfl rfl (fun _ => hack)).mono (fun _ _ => trivial))
  · have hg : p.Grounded Entry.term (L.take m.snapshot.index) := (h.world.inv.written hL).2.1.down (List.take_prefix _ _)
    obtain ⟨hle,hprev⟩ := h.matched hg (Nat.le_of_not_le hold) (Nat.le_of_eq hlen.symm) (by rw [hat]; exact hmatch)
    rw [htake] at hprev
    obtain ⟨p',hmoves,ha,hin,hack⟩ := h.acknowledge hs hL (List.take_prefix m.snapshot.index L)
      (hprev ▸ List.take_prefix _ _)
    have hgrow := (h.world.grows hmoves).2
    obtain ⟨log,hcommit,ha'⟩ := ha.commitTo (k := m.snapshot.index) (hlen ▸ hin.length_le) (by
      rw [take_of_isPrefix hin (Nat.le_of_eq hlen.symm),htake]
      exact hset.grows hgrow)
    have hcom : log.committed = m.snapshot.index := by
      rw [EntryLog.commitTo,if_neg hold] at hcommit
      split_ifs at hcommit
      cases hcommit
      rfl
    rw [hcommit]
    exact Does.after h.world hmoves ((ha'.send { type := .replicateResp, dest := m.sender, logIndex := log.committed }
      rfl rfl rfl (fun _ => Nat.le_trans (Nat.le_of_eq (hcom.trans hlen.symm)) hack)).mono (fun _ _ => trivial))
  · have hnot : ¬L.take m.snapshot.index <+: p.log r.nodeID := by
      intro hin
      have := h.matchTerm_of_isPrefix (by rw [hlen]; exact Nat.le_of_not_le hold) hin
      rw [hlen,hat] at this
      exact hmatch this
    have hold : r.log.committed ≤ m.snapshot.index := Nat.le_of_not_le hold
    obtain ⟨p',hmoves,ha,-,hack⟩ := h.overwrite hs hL (l := r.log.restore m.snapshot) (List.take_prefix _ _) hnot
      (shows_restore m.snapshot hlen.symm hat.symm r.log) (Nat.le_refl _) (Nat.le_refl _) hat.symm
      (Nat.le_trans h.node.applied (Nat.le_trans h.node.processed hold)) (Nat.le_refl _) hold (Nat.le_of_eq hlen.symm)
      (by rw [show (r.log.restore m.snapshot).committed = m.snapshot.index from rfl,htake]; exact hset)
    exact Does.after h.world hmoves ((ha.send { type := .replicateResp, dest := m.sender,
                                                logIndex := (r.log.restore m.snapshot).lastIndex }
      rfl rfl rfl (fun _ => Nat.le_trans (Nat.le_of_eq hlen.symm) hack)).mono (fun _ _ => trivial))

end Handlers

end Zuul.Dragonboat
