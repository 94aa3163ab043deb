import Zuul.Dragonboat.Cluster

/-! How the nodes of a group and their messages stand to the history of its log: what has
to hold of a node and of a message for the votes, bids and acknowledgements so far. -/
namespace Zuul.Dragonboat
open Lib Lib.LeaderLog

/-- The history of the group. -/
abbrev History := LeaderLog.State Nat Entry

/-- Announced by the leader of T or of a term before. -/
def SettledBy (p : History) (T : Nat) (P : List Entry) : Prop := ∃ U ≤ T, p.Settled U P

/-- Only the entries the group was started with are about its members. -/
structure Shaped (boot : Nat) (l : List Entry) : Prop where
  numbered : Numbered l
  changes : ∀ e ∈ l, e.type = .configChange → e.index ≤ boot

/-- What a message says has happened. -/
def Backed (p : History) (m : Message) : Prop :=
  match m.type with
  | .replicate => ∃ L P, p.led m.term = some L ∧ P <+: L ∧ m.logIndex ≤ P.length ∧ m.entries = P.drop m.logIndex ∧
      m.logTerm = termAt P m.logIndex ∧ m.commit ≤ L.length ∧ SettledBy p m.term (L.take m.commit)
  | .heartbeat => ∃ L, p.led m.term = some L ∧ m.commit ≤ p.acked m.dest m.term ∧ m.commit ≤ L.length ∧
      SettledBy p m.term (L.take m.commit)
  | .installSnapshot => ∃ L, p.led m.term = some L ∧ m.snapshot.index ≤ L.length ∧
      m.snapshot.term = termAt L m.snapshot.index ∧ SettledBy p m.term (L.take m.snapshot.index)
  | .requestVote => ∃ B, p.bid m.term m.sender = some B ∧ m.logIndex = B.length ∧ m.logTerm = lastStamp Entry.term B
  | .requestVoteResp => m.reject = false → p.voted m.sender m.term = some m.dest
  | .replicateResp => m.reject = false → m.logIndex ≤ p.acked m.sender m.term
  | .propose => ∀ e ∈ m.entries, e.type ≠ .configChange
  | .leaderTransfer => m.hint ≠ noNode
  | .configChangeEvent => False
  | _ => True

/-- A message of a member. Only requests are without a term. -/
structure Sent (members : List Nat) (p : History) (m : Message) : Prop where
  member : m.sender ∈ members
  remote : isLocalMessageType m.type = false
  term : if isRequestMessage m.type then m.term = 0 else 0 < m.term
  backed : Backed p m

/-- What a leader knows of a node with acked of its log, which ends at last. -/
structure RemoteOk (acked last : Nat) (rm : Remote) : Prop where
  matched : rm.matched ≤ acked
  known : rm.matched ≤ last
  pos : 1 ≤ rm.next
  next : rm.next ≤ last + 1
  snapshot : rm.snapshotIndex ≤ last

/-- The reads wait in the order of their indexes, none above what is committed. -/
structure ReadIndex.Ok (r : ReadIndex) (committed : Nat) : Prop where
  nodup : r.queue.Nodup
  mem : ∀ ctx, ctx ∈ r.pending ↔ ctx ∈ r.queue
  status : ∀ ctx s, r.pending.lookup ctx = some s → s.ctx = ctx ∧ s.index ≤ committed
  order : r.queue.Pairwise (fun c d => ∀ s t, r.pending.lookup c = some s → r.pending.lookup d = some t → s.index ≤ t.index)

/-- What holds of a node. Its log shows the full one of the history. -/
structure NodeOk (members : List Nat) (boot : Nat) (p : History) (r : Raft) : Prop where
  member : r.nodeID ∈ members
  remotes : ∀ j, j ∈ r.remotes ↔ j ∈ members
  timeout : 0 < r.electionTimeout
  term : p.term r.nodeID = r.term
  vote : p.voted r.nodeID r.term = if r.vote = noNode then none else some r.vote
  shows : Shows (p.log r.nodeID) r.log
  marker : r.log.markerIndex ≤ r.log.snapshot.index
  snapshot : r.log.snapshot.index ≤ r.log.committed
  snapshotTerm : r.log.snapshot.term = termAt (p.log r.nodeID) r.log.snapshot.index
  applied : r.applied ≤ r.log.processed
  processed : r.log.processed ≤ r.log.committed
  boot : boot ≤ r.log.committed
  committed : r.log.committed ≤ (p.log r.nodeID).length
  settled : SettledBy p r.term ((p.log r.nodeID).take r.log.committed)
  reads : r.readIndex.Ok r.log.committed
  msgs : ∀ m ∈ r.msgs, Sent members p m
  candidate : r.state = .candidate → p.bid r.term r.nodeID = some (p.log r.nodeID) ∧ p.leader r.term ≠ some r.nodeID ∧
    ∀ j, r.votes.lookup j = some true → j ∈ members ∧ p.voted j r.term = some r.nodeID
  leader : r.state = .leader → p.leader r.term = some r.nodeID ∧ p.announced r.term ≤ r.log.committed ∧
    r.electionTick < r.electionTimeout ∧ (p.log r.nodeID).length ≤ p.acked r.nodeID r.term ∧
    ∀ j rm, r.remotes.lookup j = some rm → RemoteOk (p.acked j r.term) r.log.lastIndex rm

/-- The history is one, and all that leaders wrote has its place. -/
structure World (members : List Nat) (boot : Nat) (p : History) : Prop where
  nodup : members.Nodup
  nodes : ∀ i ∈ members, i ≠ noNode
  inv : Inv (majority members) Entry.term 1 p
  shaped : ∀ {T L}, p.led T = some L → Shaped boot L

/-- What has happened at node i only. -/
structure Moves (members : List Nat) (i : Nat) (p p' : History) : Prop where
  steps : Steps (majority members) Entry.term p p'
  term : ∀ j ≠ i, p'.term j = p.term j
  log : ∀ j ≠ i, p'.log j = p.log j
  voted : ∀ j ≠ i, ∀ T, p'.voted j T = p.voted j T
  leader : ∀ j ≠ i, ∀ T, p'.leader T = some j → p.leader T = some j
  announced : ∀ j ≠ i, ∀ T, p.leader T = some j → p'.announced T = p.announced T

variable {members : List Nat} {boot i : Nat} {p p' p'' : History} {r r' : Raft} {m : Message}

section Shape
variable {l L : List Entry}

/-- What is before a place in a shaped log is shaped. -/
theorem Shaped.down (h : Shaped boot L) (hp : l <+: L) : Shaped boot l :=
  ⟨h.numbered.down hp,fun e he => h.changes e (hp.subset he)⟩

/-- All that leaders wrote is shaped. -/
theorem World.shaped_of_grounded (h : World members boot p) (hg : p.Grounded Entry.term l) : Shaped boot l := by
  rcases List.eq_nil_or_concat l with rfl | ⟨q,e,rfl⟩
  · exact ⟨fun q e r he => by simp at he,fun e he => by cases he⟩
  · rw [List.concat_eq_append] at hg ⊢
    obtain ⟨L,hL,hp⟩ := hg q e (List.prefix_refl _)
    exact (h.shaped hL).down hp

/-- In what leaders wrote terms never go down. -/
theorem World.sorted (h : World members boot p) (hg : p.Grounded Entry.term l) : Sorted l := h.inv.sorted hg

/-- Leaders write in terms beyond zero. -/
theorem World.term_pos (h : World members boot p) (hg : p.Grounded Entry.term l) {e : Entry} (he : e ∈ l) :
    0 < e.term := by
  obtain ⟨q,r,rfl⟩ := List.append_of_mem he
  obtain ⟨L,hL,-⟩ := hg q e ⟨r,by simp⟩
  exact (h.inv.written hL).1

/-- Logs that agree in the term at an index agree up to it. -/
theorem World.log_matching (h : World members boot p) {a b : List Entry} (ha : p.Grounded Entry.term a)
    (hb : p.Grounded Entry.term b) {k : Nat} (hka : k ≤ a.length) (hkb : k ≤ b.length)
    (he : termAt a k = termAt b k) : a.take k = b.take k := by
  have hga := ha.down (List.take_prefix k a)
  have hgb := hb.down (List.take_prefix k b)
  have hla : (a.take k).length = k := List.length_take_of_le hka
  have hlb : (b.take k).length = k := List.length_take_of_le hkb
  rcases Nat.eq_zero_or_pos k with rfl | h0
  · rw [List.take_zero,List.take_zero]
  · have hpos : 0 < termAt a k := by
      obtain ⟨n,rfl⟩ : ∃ n, k = n + 1 := ⟨k - 1,by omega⟩
      rw [termAt_succ (by omega)]
      exact h.term_pos ha (List.getElem_mem _)
    obtain ⟨L,hL,hpa⟩ := hga.last hpos
    obtain ⟨L',hL',hpb⟩ := hgb.last (show 0 < termAt b k from he ▸ hpos)
    rw [show lastStamp Entry.term (b.take k) = termAt a k from he.symm] at hL'
    cases hL.symm.trans hL'
    exact (List.prefix_of_prefix_length_le hpa hpb (by omega)).eq_of_length (by omega)

end Shape

section Growth

/-- What is settled by a term is settled by later ones. -/
theorem SettledBy.mono {T U : Nat} {P : List Entry} (h : SettledBy p T P) (hT : T ≤ U) : SettledBy p U P :=
  ⟨h.choose,Nat.le_trans h.choose_spec.1 hT,h.choose_spec.2⟩

/-- What is before a settled entry is settled. -/
theorem SettledBy.down {T : Nat} {P P' : List Entry} (h : SettledBy p T P) (hp : P' <+: P) : SettledBy p T P' := by
  obtain ⟨U,hU,L,hL,hP⟩ := h
  exact ⟨U,hU,L,hL,hp.trans hP⟩

/-- What is settled stays settled. -/
theorem SettledBy.grows {T : Nat} {P : List Entry} (h : SettledBy p T P) (hg : Grows p p') : SettledBy p' T P := by
  obtain ⟨U,hU,hs⟩ := h
  exact ⟨U,hU,hs.grows hg⟩

/-- Every leader from T on has what was announced up to then. -/
theorem World.settled_led (h : World members boot p) {T U : Nat} {P L : List Entry} (hs : SettledBy p T P) (hT : T ≤ U)
    (hL : p.led U = some L) : P <+: L := by
  obtain ⟨V,hV,hs⟩ := hs
  exact h.inv.settled_led hs (Nat.le_trans hV hT) hL

theorem take_of_isPrefix {L L' : List Entry} {k : Nat} (hp : L <+: L') (hk : k ≤ L.length) :
    L'.take k = L.take k := by
  obtain ⟨r,rfl⟩ := hp
  exact List.take_append_of_le_length hk

private theorem Backed.grows (h : Backed p m) (hg : Grows p p') : Backed p' m := by
  unfold Backed at h ⊢
  split at h
  · obtain ⟨L,P,hL,hP,hi,he,ht,hc,hs⟩ := h
    obtain ⟨L',hL',hp⟩ := hg.led hL
    exact ⟨L',P,hL',hP.trans hp,hi,he,ht,Nat.le_trans hc hp.length_le,take_of_isPrefix hp hc ▸ hs.grows hg⟩
  · obtain ⟨L,hL,hk,hc,hs⟩ := h
    obtain ⟨L',hL',hp⟩ := hg.led hL
    exact ⟨L',hL',Nat.le_trans hk (hg.acked _ _),Nat.le_trans hc hp.length_le,take_of_isPrefix hp hc ▸ hs.grows hg⟩
  · obtain ⟨L,hL,hc,ht,hs⟩ := h
    obtain ⟨L',hL',hp⟩ := hg.led hL
    refine ⟨L',hL',Nat.le_trans hc hp.length_le,?_,take_of_isPrefix hp hc ▸ hs.grows hg⟩
    rw [ht,termAt,termAt,take_of_isPrefix hp hc]
  · obtain ⟨B,hB,hrest⟩ := h
    exact ⟨B,hg.bid hB,hrest⟩
  · exact fun hr => hg.voted (h hr)
  · exact fun hr => Nat.le_trans (h hr) (hg.acked _ _)
  · exact h
  · exact h
  · exact h
  · trivial

/-- More acknowledged and a longer log leave a remote as true as it was. -/
theorem RemoteOk.mono {acked acked' last last' : Nat} {rm : Remote} (h : RemoteOk acked last rm) (ha : acked ≤ acked')
    (hl : last ≤ last') : RemoteOk acked' last' rm :=
  ⟨Nat.le_trans h.matched ha,Nat.le_trans h.known hl,h.pos,Nat.le_trans h.next (Nat.succ_le_succ hl),
    Nat.le_trans h.snapshot hl⟩

/-- A message that was true when it was sent stays true. -/
theorem Sent.grows (h : Sent members p m) (hg : Grows p p') : Sent members p' m :=
  ⟨h.member,h.remote,h.term,h.backed.grows hg⟩

theorem Moves.refl (i : Nat) (p : History) : Moves members i p p :=
  ⟨.refl p,fun _ _ => rfl,fun _ _ => rfl,fun _ _ _ => rfl,fun _ _ _ h => h,fun _ _ _ _ => rfl⟩

/-- Over the moves of a node the history keeps its invariant, and what has happened stays. -/
theorem World.grows (h : World members boot p) (hm : Moves members i p p') :
    Inv (majority members) Entry.term 1 p' ∧ Grows p p' := h.inv.steps hm.steps

private theorem Steps.append {s s' s'' : History} {Q : Quorums Nat} (h : Steps Q Entry.term s s')
    (h' : Steps Q Entry.term s' s'') : Steps Q Entry.term s s'' := by
  induction h' with
  | refl => exact h
  | tail _ hs ih => exact ih.tail hs

theorem Moves.trans (hw : World members boot p) (h : Moves members i p p') (h' : Moves members i p' p'') :
    Moves members i p p'' where
  steps := Steps.append h.steps h'.steps
  term j hj := (h'.term j hj).trans (h.term j hj)
  log j hj := (h'.log j hj).trans (h.log j hj)
  voted j hj T := (h'.voted j hj T).trans (h.voted j hj T)
  leader j hj T hl := h.leader j hj T (h'.leader j hj T hl)
  announced j hj T hl := (h'.announced j hj T ((hw.grows h).2.leader hl)).trans (h.announced j hj T hl)

/-- A node is as it should be after moves of another. -/
theorem NodeOk.other (h : NodeOk members boot p r) (hm : Moves members i p p') (hg : Grows p p') (hi : r.nodeID ≠ i) :
    NodeOk members boot p' r where
  member := h.member
  remotes := h.remotes
  timeout := h.timeout
  term := (hm.term _ hi).trans h.term
  vote := (hm.voted _ hi _).trans h.vote
  shows := hm.log _ hi ▸ h.shows
  marker := h.marker
  snapshot := h.snapshot
  snapshotTerm := hm.log _ hi ▸ h.snapshotTerm
  applied := h.applied
  processed := h.processed
  boot := h.boot
  committed := hm.log _ hi ▸ h.committed
  settled := hm.log _ hi ▸ h.settled.grows hg
  reads := h.reads
  msgs m hm' := (h.msgs m hm').grows hg
  candidate hc := by
    obtain ⟨hb,hl,hv⟩ := h.candidate hc
    rw [hm.log _ hi]
    refine ⟨hg.bid hb,fun hl' => hl (hm.leader _ hi _ hl'),fun j hj => ?_⟩
    obtain ⟨hmem,hvote⟩ := hv j hj
    exact ⟨hmem,hg.voted hvote⟩
  leader hl := by
    obtain ⟨hlead,ha,ht,hown,hr⟩ := h.leader hl
    refine ⟨hg.leader hlead,by rw [hm.announced _ hi _ hlead]; exact ha,ht,?_,fun j rm hj => ?_⟩
    · rw [hm.log _ hi]
      exact Nat.le_trans hown (hg.acked _ _)
    · exact (hr j rm hj).mono (hg.acked _ _) (Nat.le_refl _)

end Growth

section Actions

private theorem World.step (hw : World members boot p) (hs : Step (majority members) Entry.term p p')
    (hshaped : ∀ {T L}, p'.led T = some L → Shaped boot L) : World members boot p' :=
  ⟨hw.nodup,hw.nodes,hw.inv.step hs,hshaped⟩

private theorem Moves.of_step (hs : Step (majority members) Entry.term p p')
    (term : ∀ j ≠ i, p'.term j = p.term j) (log : ∀ j ≠ i, p'.log j = p.log j)
    (voted : ∀ j ≠ i, ∀ T, p'.voted j T = p.voted j T) (leader : ∀ j ≠ i, ∀ T, p'.leader T = some j → p.leader T = some j)
    (announced : ∀ j ≠ i, ∀ T, p.leader T = some j → p'.announced T = p.announced T) : Moves members i p p' :=
  ⟨.tail (.refl p) hs,term,log,voted,leader,announced⟩

/-- The node enters a later term. -/
theorem World.advance {T : Nat} (hw : World members boot p) (ht : p.term i ≤ T) :
    Moves members i p (p.advance i T) ∧ World members boot (p.advance i T) :=
  ⟨.of_step (.advance ht) (fun _ hj => Function.update_of_ne hj ..) (fun _ _ => rfl) (fun _ _ _ => rfl)
    (fun _ _ _ hl => hl) (fun _ _ _ _ => rfl),hw.step (.advance ht) hw.shaped⟩

/-- The node runs in a later term and votes for itself. -/
theorem World.campaign {T : Nat} (hw : World members boot p) (ht : p.term i < T) :
    Moves members i p (((p.advance i T).stand i T).vote i i T) ∧
      World members boot (((p.advance i T).stand i T).vote i i T) :=
  ⟨.of_step (.campaign ht) (fun _ hj => Function.update_of_ne hj ..) (fun _ _ => rfl)
    (fun _ hj _ => put_other _ (fun hx => hj hx.1)) (fun _ _ _ hl => hl) (fun _ _ _ _ => rfl),
    hw.step (.campaign ht) hw.shaped⟩

/-- The node votes in its own term, once. -/
theorem World.vote {c T : Nat} {B : List Entry} (hw : World members boot p) (ht : p.term i = T)
    (hv : ∀ c' ∈ p.voted i T, c' = c) (hb : p.bid T c = some B) (hu : UpToDate Entry.term B (p.log i)) :
    Moves members i p (p.vote i c T) ∧ World members boot (p.vote i c T) :=
  ⟨.of_step (.vote ht hv hb hu) (fun _ _ => rfl) (fun _ _ => rfl) (fun _ hj _ => put_other _ (fun hx => hj hx.1))
    (fun _ _ _ hl => hl) (fun _ _ _ _ => rfl),hw.step (.vote ht hv hb hu) hw.shaped⟩

private theorem World.write {T : Nat} {L : List Entry} (hw : World members boot p)
    (hs : Step (majority members) Entry.term p (p.write i T L)) (hL : Shaped boot L) :
    Moves members i p (p.write i T L) ∧ World members boot (p.write i T L) := by
  refine ⟨.of_step hs (fun _ _ => rfl) (fun _ hj => Function.update_of_ne hj ..) (fun _ _ _ => rfl)
    (fun j hj U hl => ?_) (fun _ _ _ _ => rfl),hw.step hs (fun {U K} hK => ?_)⟩
  · change Function.update p.leader T (some i) U = some j at hl
    rcases eq_or_ne U T with rfl | hU
    · rw [Function.update_self] at hl
      exact absurd (Option.some.inj hl).symm hj
    · rwa [Function.update_of_ne hU] at hl
  · change Function.update p.led T (some L) U = some K at hK
    rcases eq_or_ne U T with rfl | hU
    · rw [Function.update_self] at hK
      exact Option.some.inj hK ▸ hL
    · rw [Function.update_of_ne hU] at hK
      exact hw.shaped hK

/-- The node has the votes of a majority and writes its first entry. -/
theorem World.elect {T : Nat} {e : Entry} (hw : World members boot p) (ht : p.term i = T)
    (hb : p.bid T i = some (p.log i)) (hq : (majority members).Quorum (fun j => p.voted j T = some i))
    (hn : p.leader T ≠ some i) (he : e.term = T) (hL : Shaped boot (p.log i ++ [e])) :
    Moves members i p (p.write i T (p.log i ++ [e])) ∧ World members boot (p.write i T (p.log i ++ [e])) :=
  hw.write (.elect ht hb hq hn he) hL

/-- The leader writes more. -/
theorem World.append {T : Nat} {es : List Entry} (hw : World members boot p) (ht : p.term i = T)
    (hl : p.leader T = some i) (he : ∀ e ∈ es, e.term = T) (hL : Shaped boot (p.log i ++ es)) :
    Moves members i p (p.write i T (p.log i ++ es)) ∧ World members boot (p.write i T (p.log i ++ es)) :=
  hw.write (.append ht hl he) hL

/-- The node takes over what the leader of its term wrote. -/
theorem World.accept {T : Nat} {L P : List Entry} (hw : World members boot p) (ht : p.term i = T)
    (hl : p.led T = some L) (hp : P <+: L) : Moves members i p (p.accept i T P) ∧ World members boot (p.accept i T P) :=
  ⟨.of_step (.accept ht hl hp) (fun _ _ => rfl) (fun _ hj => Function.update_of_ne hj ..) (fun _ _ _ => rfl)
    (fun _ _ _ hl => hl) (fun _ _ _ _ => rfl),hw.step (.accept ht hl hp) hw.shaped⟩

/-- The leader announces what a majority has. -/
theorem World.announce {T k : Nat} {L : List Entry} (hw : World members boot p) (hi : p.leader T = some i)
    (hl : p.led T = some L) (hk : p.announced T ≤ k) (hk' : k ≤ L.length) (hs : lastStamp Entry.term (L.take k) = T)
    (hq : (majority members).Quorum (fun j => k ≤ p.acked j T)) :
    Moves members i p (p.announce T k) ∧ World members boot (p.announce T k) := by
  refine ⟨.of_step (.announce hl hk hk' hs hq) (fun _ _ => rfl) (fun _ _ => rfl) (fun _ _ _ => rfl) (fun _ _ _ hl => hl)
    (fun j hj U hU => Function.update_of_ne (fun he => hj ?_) ..),hw.step (.announce hl hk hk' hs hq) hw.shaped⟩
  rw [he,hi] at hU
  exact (Option.some.inj hU).symm

end Actions

/-- Node i of the group, as it should be. -/
structure At (members : List Nat) (boot : Nat) (p : History) (i : Nat) (r : Raft) : Prop where
  world : World members boot p
  node : NodeOk members boot p r
  self : r.nodeID = i

/-- The entries a node keeps show its log in the history. -/
theorem At.shows (h : At members boot p i r) : Shows (p.log i) r.log := by
  rw [← h.self]
  exact h.node.shows

/-- The term of a node is that of the history. -/
theorem At.term (h : At members boot p i r) : p.term i = r.term := by
  rw [← h.self]
  exact h.node.term

/-- What node i computes does not panic, and the history goes on with what it did. -/
def Does (members : List Nat) (boot : Nat) (p : History) (i : Nat) (x : Option Raft) (Post : Raft → Prop) : Prop :=
  ∃ r' p', x = some r' ∧ Moves members i p p' ∧ At members boot p' i r' ∧ Post r'

section Does
variable {x : Option Raft} {Post Post' : Raft → Prop}

/-- A node that stands well need do nothing. -/
theorem At.does (h : At members boot p i r) (hr : Post r) : Does members boot p i (some r) Post :=
  ⟨r,p,rfl,.refl i p,h,hr⟩

/-- What is known of the result may be weakened. -/
theorem Does.mono (h : Does members boot p i x Post) (hp : ∀ r, Post r → Post' r) : Does members boot p i x Post' := by
  obtain ⟨r,p',hx,hm,ha,hr⟩ := h
  exact ⟨r,p',hx,hm,ha,hp r hr⟩

/-- What the history says has happened first. -/
theorem Does.after (hw : World members boot p) (hm : Moves members i p p') (h : Does members boot p' i x Post) :
    Does members boot p i x Post := by
  obtain ⟨r,p'',hx,hm',ha,hr⟩ := h
  exact ⟨r,p'',hx,hm.trans hw hm',ha,hr⟩

/-- One thing done after the other. -/
theorem Does.bind {f : Raft → Option Raft} (hw : World members boot p) (h : Does members boot p i x Post)
    (hf : ∀ p' r, Grows p p' → At members boot p' i r → Post r → Does members boot p' i (f r) Post') :
    Does members boot p i (x.bind f) Post' := by
  obtain ⟨r,p',rfl,hm,ha,hr⟩ := h
  exact (hf p' r (hw.grows hm).2 ha hr).after hw hm

/-- What holds all along of a loop over the nodes. -/
theorem Does.foldlM {A : Type} {f : Raft → A → Option Raft} {l : List A} (h : At members boot p i r) (hr : Post r)
    (hf : ∀ p r a, a ∈ l → At members boot p i r → Post r → Does members boot p i (f r a) Post) :
    Does members boot p i (l.foldlM f r) Post := by
  induction l generalizing p r with
  | nil => exact h.does hr
  | cons a l ih =>
    refine Does.bind h.world (hf p r a List.mem_cons_self h hr) (fun p' r' _ h' hr' => ?_)
    exact ih h' hr' (fun p r b hb => hf p r b (List.mem_cons_of_mem a hb))

end Does

end Zuul.Dragonboat
