import Zuul.Raft.Membership
import Zuul.Raft.Replicas

/-! The meta shard. Its replicas keep who is reached where, and the resolver of every node
finds what the log says last. -/
namespace Zuul.Raft
open Lib Wire Marshaller Replication
open Fsm (Str str numbered)
variable {s t : Store} {cmds : List MetaCommand} {m : Member}

section Codec

def memberSchema : Schema Member :=
  ⟨"Member",numbered [.varint "ReplicaId" (fun v m => { m with replicaID := v.toNat }),
    .bytes "RaftAddress" (fun p m => .ok { m with raftAddress := p }),
    .bytes "ZuulGrpcAddress" (fun p m => .ok { m with zuulGrpcAddress := p }),
    .bytes "NodeHostId" (fun p m => .ok { m with nodeHostID := p })]⟩

/-- A put that is there already is merged into. -/
def metaCommandSchema : Schema (Option MetaCommand) :=
  ⟨"MetaCommand",numbered [.bytes "Put" (fun p cmd =>
      let m := match cmd with
        | some (.put m) => m
        | _ => ⟨0,[],[],[]⟩
      (memberSchema.decode m p).map (fun m => some (.put m))),
    .varint "Delete" (fun v _ => some (.delete v.toNat))]⟩

/-- UnmarshalVT of a command; none if its oneof is not set. -/
def unmarshalMetaCommand (s : Str) : Except WireError (Option MetaCommand) := metaCommandSchema.decode none s

/-- A result is the revision it carries. -/
def metaResultSchema : Schema Nat := ⟨"MetaResult",numbered [.varint "Revision" (fun v _ => v.toNat)]⟩

def unmarshalMetaResult (s : Str) : Except WireError Nat := metaResultSchema.decode 0 s

structure MetaSnapshot where
  revision : Nat
  members : List Member
  deriving DecidableEq

def metaSnapshotSchema : Schema MetaSnapshot :=
  ⟨"MetaSnapshot",numbered [.varint "Revision" (fun v s => { s with revision := v.toNat }),
    .bytes "Members" (fun p s =>
      (memberSchema.decode ⟨0,[],[],[]⟩ p).map (fun m => { s with members := s.members ++ [m] }))]⟩

def unmarshalMetaSnapshot (s : Str) : Except WireError MetaSnapshot := metaSnapshotSchema.decode ⟨0,[]⟩ s

def Member.marshaller (m : Member) : Marshaller :=
  fields [varint 0x08 m.replicaID.toUInt64,bytes 0x12 m.raftAddress,bytes 0x1A m.zuulGrpcAddress,
    bytes 0x22 m.nodeHostID]

/-- A deletion is written even of replica 0. -/
def MetaCommand.marshaller : MetaCommand → Marshaller
  | .put m => message 0x0A m.marshaller
  | .delete replicaID => number 0x10 replicaID.toUInt64

def MetaCommand.marshal (cmd : MetaCommand) : Option Str := cmd.marshaller.marshal

def metaResultMarshaller (revision : Nat) : Marshaller := fields [varint 0x08 revision.toUInt64]

def MetaSnapshot.marshaller (s : MetaSnapshot) : Marshaller :=
  fields [varint 0x08 s.revision.toUInt64,repeated 0x12 Member.marshaller s.members]

def MetaSnapshot.marshal (s : MetaSnapshot) : Option Str := s.marshaller.marshal

/-- The replica a command is about. -/
def MetaCommand.replicaID : MetaCommand → Nat
  | .put m => m.replicaID
  | .delete replicaID => replicaID

private theorem member_decodes (h : m.replicaID < UInt64.size) :
    m.marshaller.Decodes memberSchema ⟨0,[],[],[]⟩ m := by
  refine decodes_cons (decodes_nat (fun n (m : Member) => { m with replicaID := n }) (by decide) rfl h rfl) ?_
  refine decodes_cons (decodes_bytes (by decide) rfl (fun _ => rfl) (fun h => by rw [h])) ?_
  refine decodes_cons (decodes_bytes (by decide) rfl (fun _ => rfl) (fun h => by rw [h])) ?_
  exact decodes_cons (decodes_bytes (by decide) rfl (fun _ => rfl) (fun h => by rw [h])) decodes_nil

/-- The replica of a command is a uint64, and its size an int. -/
structure MetaCommand.Fits (cmd : MetaCommand) : Prop where
  replicaID : cmd.replicaID < UInt64.size
  size : cmd.marshaller.size ≤ maxInt

private theorem unmarshal_metaCommand {cmd : MetaCommand} (h : cmd.Fits) :
    ∃ bs, cmd.marshal = some bs ∧ unmarshalMetaCommand bs = .ok (some cmd) := by
  have hd : cmd.marshaller.Decodes metaCommandSchema none (some cmd) := by
    cases cmd with
    | put m =>
      refine decodes_message (by decide) rfl (member_decodes h.replicaID) (fun p hp => ?_)
      dsimp only
      rw [hp]
      rfl
    | delete id =>
      refine decodes_number (by decide) rfl ?_
      rw [show id.toUInt64.toNat = id from UInt64.toNat_ofNat_of_lt' h.replicaID]
  obtain ⟨bs,hm,-,hu⟩ := hd.round_trip h.size
  exact ⟨bs,hm,hu⟩

private theorem unmarshal_metaResult {n : Nat} (h : n < UInt64.size) :
    ∃ bs, (metaResultMarshaller n).marshal = some bs ∧ unmarshalMetaResult bs = .ok n := by
  have hd : (metaResultMarshaller n).Decodes metaResultSchema 0 n :=
    decodes_cons (decodes_nat (fun n _ => n) (by decide) rfl h rfl) decodes_nil
  have hsize : (metaResultMarshaller n).size ≤ maxInt := by
    have hlen := (varintBytes_varint n.toUInt64).short
    rw [varintBytes_length] at hlen
    change (varint 0x08 n.toUInt64).size + 0 ≤ 9223372036854775807
    rw [Marshaller.varint]
    split
    · change 1 + sizeOfVarint n.toUInt64 + 0 ≤ _
      omega
    · exact Nat.zero_le _
  obtain ⟨bs,hm,-,hu⟩ := hd.round_trip hsize
  exact ⟨bs,hm,hu⟩

private theorem members_decode {members : List Member} (h : ∀ m ∈ members, m.replicaID < UInt64.size)
    {s : MetaSnapshot} (hs : s.members = []) :
    (repeated 0x12 Member.marshaller members).Decodes metaSnapshotSchema s { s with members } := by
  have hd : (repeated 0x12 Member.marshaller members).Decodes metaSnapshotSchema s
      { s with members := members.map id } := by
    refine decodes_list (fun members => { s with members }) (fun m hm ms => ?_) (by rw [← hs])
    refine decodes_message (by decide) rfl (member_decodes (h m hm)) (fun p hp => ?_)
    rw [hp]
    rfl
  rwa [List.map_id] at hd

private theorem unmarshal_metaSnapshot {s : MetaSnapshot} (hr : s.revision < UInt64.size)
    (hm : ∀ m ∈ s.members, m.replicaID < UInt64.size) (hs : s.marshaller.size ≤ maxInt) :
    ∃ bs, s.marshal = some bs ∧ unmarshalMetaSnapshot bs = .ok s := by
  have hd : s.marshaller.Decodes metaSnapshotSchema ⟨0,[]⟩ s := by
    refine decodes_cons (decodes_nat (fun n (s : MetaSnapshot) => { s with revision := n }) (by decide) rfl hr rfl) ?_
    exact decodes_cons (members_decode hm rfl) decodes_nil
  obtain ⟨bs,hb,-,hu⟩ := hd.round_trip hs
  exact ⟨bs,hb,hu⟩

end Codec

section Adapter

/-- Apply on a command as it is decoded. The revision grows even if nothing is set. -/
def Store.applyMessage (s : Store) : Option MetaCommand → Store × Except String Nat
  | none => ({ s with revision := s.revision + 1 },.error "meta.Apply: unknown command type <nil>")
  | some cmd => (s.apply cmd,.ok (s.apply cmd).revision)

def Store.list (s : Store) : List Member := s.members.dump (fun _ m => m)

inductive MetaQuery where
  | member (replicaID : Nat)
  | list

inductive MetaAnswer where
  | member (m : Option Member)
  | list (members : List Member)

def Store.query (s : Store) : MetaQuery → MetaAnswer
  | .member replicaID => .member (s.members.lookup replicaID)
  | .list => .list s.list

def Store.snapshot (s : Store) : MetaSnapshot := ⟨s.revision,s.list⟩

def MetaSnapshot.restore (snap : MetaSnapshot) : Store :=
  { members := KeyedMap.fill Member.replicaID id snap.members ∅, revision := snap.revision }

/-- Update of the meta shard's adapter, with the revisions its entries are answered with. -/
def metaUpdate (s : Store) : List Entry → Store × Except UpdateError (List Nat)
  | [] => (s,.ok [])
  | e :: es =>
    match unmarshalMetaCommand e.cmd with
    | .error err => (s,.error (.corruptCommand e.index err))
    | .ok msg =>
      match s.applyMessage msg with
      | (s,.error err) => (s,.error (.apply e.index err))
      | (s,.ok revision) =>
        let u := metaUpdate s es
        (u.1,u.2.map (revision :: ·))

def metaAnswer (revision : Nat) : Option SmResult :=
  (metaResultMarshaller revision).marshal.map (fun data => ⟨revision.toUInt64,data⟩)

def metaUpdateEntries (s : Store) (first : Nat) (entries : List Str) : Option (Store × List SmResult) :=
  let u := metaUpdate s (entries.mapIdx (fun k cmd => ⟨first + k + 1,cmd⟩))
  match u.2 with
  | .error _ => none
  | .ok rs => (rs.mapM metaAnswer).map (fun answers => (u.1,answers))

/-- RecoverFromSnapshot of the meta shard's adapter. -/
def metaRecover (_ : Store) (file : Str) : Option Store :=
  match unmarshalMetaSnapshot file with
  | .error _ => none
  | .ok snap => some snap.restore

/-- The meta shard: the topology behind its adapter. -/
def metaShard : Machine Store MetaCommand Str (List SmResult) MetaSnapshot Str where
  init := {}
  encode := MetaCommand.marshal
  update := metaUpdateEntries
  prepare := Store.snapshot
  save := MetaSnapshot.marshal
  recover := metaRecover

/-- MetaMember of a host: a stale read of its replica of the meta shard, if it has one. -/
def metaMember (shard : Option Store) (replicaID : Nat) : Option Member :=
  shard.bind (fun s =>
    match s.query (.member replicaID) with
    | .member m => m
    | .list _ => none)

/-- Addr of the resolver. The seed is asked when nothing is recorded, or no address. -/
def resolveAddr (shard : Option Store) (seed : Nat → Option Str) (replicaID : Nat) : Option Str :=
  match metaMember shard replicaID with
  | some m => if m.zuulGrpcAddress ≠ [] then some m.zuulGrpcAddress else seed replicaID
  | none => seed replicaID

end Adapter

section Recorded

/-- What a log says about a replica: its last command about it is a put of it, or it is
not recorded. -/
def recorded (cmds : List MetaCommand) (replicaID : Nat) : Option Member :=
  match (cmds.filter (fun cmd => cmd.replicaID = replicaID)).getLast? with
  | some (.put m) => some m
  | _ => none

private theorem recorded_id {r : Nat} (h : recorded cmds r = some m) : m.replicaID = r := by
  unfold recorded at h
  split at h
  case h_1 m' hl =>
    cases h
    exact of_decide_eq_true (List.mem_filter.mp (List.mem_of_getLast? hl)).2
  case h_2 => cases h

private theorem recorded_append (cmd : MetaCommand) (r : Nat) : recorded (cmds ++ [cmd]) r =
    if cmd.replicaID = r then (match cmd with
      | .put m => some m
      | .delete _ => none) else recorded cmds r := by
  unfold recorded
  rw [List.filter_append,List.filter_singleton]
  by_cases hid : cmd.replicaID = r
  · rw [if_pos hid,decide_eq_true hid,cond_true,List.getLast?_concat]
    cases cmd <;> rfl
  · rw [if_neg hid,decide_eq_false hid,cond_false,List.append_nil]

/-- A store that holds what a log says, and how many commands there were. -/
structure Store.Records (s : Store) (cmds : List MetaCommand) : Prop where
  members : ∀ id, s.members.lookup id = recorded cmds id
  revision : s.revision = cmds.length

private theorem Store.Records.apply (h : s.Records cmds) (cmd : MetaCommand) :
    (s.apply cmd).Records (cmds ++ [cmd]) where
  members id := by
    rw [recorded_append]
    cases cmd with
    | put m =>
      change (s.members.insert m.replicaID m).lookup id = if m.replicaID = id then some m else recorded cmds id
      rw [KeyedMap.lookup_insert_eq,h.members]
      simp only [eq_comm]
    | delete replicaID =>
      change (s.members.erase replicaID).lookup id = if replicaID = id then none else recorded cmds id
      rw [KeyedMap.lookup_erase_eq,h.members]
      simp only [eq_comm]
  revision := by
    rw [List.length_append]
    cases cmd <;> exact congrArg (· + 1) h.revision

/-- One copy of the store after a log. -/
def Store.run (cmds : List MetaCommand) : Store := cmds.foldl Store.apply {}

private theorem foldl_records (h : s.Records cmds) (ds : List MetaCommand) :
    (ds.foldl Store.apply s).Records (cmds ++ ds) := by
  induction ds generalizing s cmds with
  | nil => rwa [List.append_nil]
  | cons d ds ih =>
    rw [List.append_cons]
    exact ih (h.apply d)

private theorem records_empty : ({} : Store).Records [] := ⟨fun _ => rfl,rfl⟩

private theorem run_records (cmds : List MetaCommand) :
    (Store.run cmds).Records cmds := foldl_records records_empty cmds

private theorem list_eq (hs : s.Records cmds) (ht : t.Records cmds) : s.list = t.list := by
  have hl : ∀ id, s.members.lookup id = t.members.lookup id := fun id => by rw [hs.members,ht.members]
  unfold Store.list KeyedMap.dump
  rw [KeyedMap.sortedKeys_congr s.members t.members (fun id => by
    rw [KeyedMap.mem_iff_lookup,KeyedMap.mem_iff_lookup,hl])]
  simp only [hl]

private theorem snapshot_eq (hs : s.Records cmds) (ht : t.Records cmds) : s.snapshot = t.snapshot := by
  rw [Store.snapshot,Store.snapshot,list_eq hs ht,hs.revision,ht.revision]

private theorem list_keyed (h : s.Records cmds) :
    s.list = s.members.dump (fun id m => { m with replicaID := id }) := by
  unfold Store.list KeyedMap.dump
  refine List.filterMap_congr (fun id _ => ?_)
  cases hm : s.members.lookup id with
  | none => rfl
  | some m =>
    rw [h.members] at hm
    rw [Option.map_some,Option.map_some,← recorded_id hm]

private theorem mem_list (h : s.Records cmds) : m ∈ s.list ↔ recorded cmds m.replicaID = some m := by
  rw [Store.list,KeyedMap.mem_dump]
  constructor
  · rintro ⟨id,m',hm,rfl⟩
    rw [h.members] at hm
    rw [recorded_id hm,hm]
  · intro hm
    exact ⟨m.replicaID,m,by rw [h.members,hm],rfl⟩

private theorem list_sorted (h : s.Records cmds) : (s.list.map Member.replicaID).Pairwise (· < ·) := by
  rw [list_keyed h,KeyedMap.dump_keys _ _ _ (fun _ _ => rfl)]
  exact (s.members.sortedKeys_pairwise.and s.members.sortedKeys_nodup).imp (fun hab => Nat.lt_of_le_of_ne hab.1 hab.2)

private theorem restore_records (h : s.Records cmds) : s.snapshot.restore.Records cmds where
  members id := by
    change (KeyedMap.fill Member.replicaID _ s.list ∅).lookup id = _
    rw [list_keyed h,KeyedMap.fill_dump_lookup _ _ _ _ (fun _ _ => rfl),h.members]
    cases hm : recorded cmds id with
    | none => rfl
    | some m => rw [Option.map_some,← recorded_id hm]; rfl
  revision := h.revision

end Recorded

section Representation

/-- The replicas are uint64s, and so is the revision; a snapshot's size is an int. -/
structure MetaLog (cmds : List MetaCommand) : Prop where
  replicaID : ∀ cmd ∈ cmds, cmd.replicaID < UInt64.size
  revision : cmds.length < UInt64.size
  snapshots : ∀ i ≤ cmds.length, (Store.run (cmds.take i)).snapshot.marshaller.size ≤ maxInt

private theorem MetaLog.initial {cs ds : List MetaCommand} (h : MetaLog (cs ++ ds)) : MetaLog cs where
  replicaID cmd hc := h.replicaID cmd (List.mem_append_left _ hc)
  revision := by
    have := h.revision
    rw [List.length_append] at this
    omega
  snapshots i hi := by
    have := h.snapshots i (by rw [List.length_append]; omega)
    rwa [List.take_append_of_le_length hi] at this

private theorem metaUpdate_run {es : List Entry} (hs : s.Records cmds) {ds : List MetaCommand}
    (h : List.Forall₂ (fun (e : Entry) cmd => unmarshalMetaCommand e.cmd = .ok (some cmd)) es ds) :
    (metaUpdate s es).1.Records (cmds ++ ds) ∧
      (metaUpdate s es).2 = .ok (List.range' (cmds.length + 1) ds.length) := by
  induction h generalizing s cmds with
  | nil =>
    rw [List.append_nil]
    exact ⟨hs,rfl⟩
  | @cons e d es ds he _ ih =>
    have hnext := hs.apply d
    obtain ⟨hrun,hrs⟩ := ih hnext
    have hrev := hnext.revision
    rw [List.length_append] at hrs hrev
    simp only [metaUpdate,he,Store.applyMessage,hrs]
    refine ⟨by rw [List.append_cons]; exact hrun,?_⟩
    rw [hrev]
    rfl

private theorem metaAnswer_decodes {n : Nat} (h : n < UInt64.size) :
    ∃ a, metaAnswer n = some a ∧ (a.value,unmarshalMetaResult a.data) = (n.toUInt64,.ok n) := by
  obtain ⟨data,hm,hu⟩ := unmarshal_metaResult h
  exact ⟨⟨n.toUInt64,data⟩,by rw [metaAnswer,hm]; rfl,by rw [hu]⟩

/-- Entry by entry, the answers are the revisions that follow. -/
def MetaAnswered (cs ds : List MetaCommand) (left : List SmResult) : Prop :=
  left.map (fun a => (a.value,unmarshalMetaResult a.data)) =
    (List.range' (cs.length + 1) ds.length).map (fun n => (n.toUInt64,.ok n))

def metaShardModel : Model metaShard MetaCommand where
  value := id
  Allowed := MetaCommand.Fits
  InRange := MetaLog
  Enc e cmd := unmarshalMetaCommand e = .ok (some cmd)
  Rep := Store.Records
  File file cmds := unmarshalMetaSnapshot file = .ok (Store.run cmds).snapshot
  Out := MetaAnswered
  mono := MetaLog.initial
  init := records_empty
  encode {cmd e} ha he := by
    obtain ⟨bs,hm,hu⟩ := unmarshal_metaCommand ha
    obtain rfl : bs = e := Option.some.inj (hm.symm.trans he)
    exact hu
  update {s cs ds es} first hl hs he := by
    obtain ⟨hrun,hrs⟩ := metaUpdate_run hs (numbered_entries he (fun k cmd => ⟨first + k + 1,cmd⟩) (fun _ _ => rfl))
    have hrev := hl.revision
    rw [List.length_append] at hrev
    have hlt : ∀ n ∈ List.range' (cs.length + 1) ds.length, n < UInt64.size := by
      intro n hn
      rw [List.mem_range'_1] at hn
      omega
    obtain ⟨answers,ha,hd⟩ := mapM_read (fun n hn => metaAnswer_decodes (hlt n hn))
    refine ⟨_,answers,?_,hrun,hd⟩
    change metaUpdateEntries s first es = _
    unfold metaUpdateEntries
    dsimp only
    rw [hrs]
    dsimp only
    rw [ha]
    rfl
  save {s cmds} hl hs := by
    have hsnap := snapshot_eq hs (run_records cmds)
    have hsize := hl.snapshots cmds.length (Nat.le_refl _)
    rw [List.take_length,← hsnap] at hsize
    have hids : ∀ m ∈ s.list, m.replicaID < UInt64.size := by
      intro m hm
      have hr := (mem_list hs).mp hm
      unfold recorded at hr
      split at hr
      case h_1 m' hlast =>
        cases hr
        exact hl.replicaID _ (List.mem_filter.mp (List.mem_of_getLast? hlast)).1
      case h_2 => cases hr
    obtain ⟨bs,hm,hu⟩ := unmarshal_metaSnapshot (s := s.snapshot)
      (by change s.revision < _; rw [hs.revision]; exact hl.revision) hids hsize
    exact ⟨bs,hm,by rw [← hsnap]; exact hu⟩
  recover {file cmds t ds} hf _ := by
    refine ⟨_,?_,restore_records (run_records cmds)⟩
    change metaRecover t file = _
    rw [metaRecover,hf]

instance (cmd : MetaCommand) : Decidable cmd.Fits :=
  decidable_of_iff (cmd.replicaID < UInt64.size ∧ cmd.marshaller.size ≤ maxInt) ⟨fun h => ⟨h.1,h.2⟩,fun h => ⟨h.1,h.2⟩⟩

instance (g : Group Store Str (List SmResult) MetaSnapshot Str) :
    (a : Act MetaCommand) → Decidable (metaShardModel.Allows g a)
  | .commit cmd => inferInstanceAs (Decidable cmd.Fits)
  | .apply .. | .prepare _ | .save _ | .recover .. | .restart _ => .isTrue trivial

end Representation

/-- The commands committed by a run. -/
def metaLogged (acts : List (Act MetaCommand)) : List MetaCommand :=
  acts.filterMap (fun
    | .commit cmd => some cmd
    | _ => none)

private theorem metaLogged_eq (acts : List (Act MetaCommand)) :
    acts.flatMap metaShardModel.committed = metaLogged acts := by
  induction acts with
  | nil => rfl
  | cons a acts ih =>
    rw [List.flatMap_cons,ih]
    cases a <;> rfl

private theorem resolveAddr_eq (h : s.Records cmds) (seed : Nat → Option Str) (r : Nat) :
    resolveAddr (some s) seed r =
      (((recorded cmds r).map Member.zuulGrpcAddress).filter (fun a => decide (a ≠ []))).or (seed r) := by
  change (match s.members.lookup r with
    | some m => if m.zuulGrpcAddress ≠ [] then some m.zuulGrpcAddress else seed r
    | none => seed r) = _
  rw [h.members]
  cases recorded cmds r with
  | none => rfl
  | some m =>
    rw [Option.map_some,Option.filter_some]
    dsimp only
    by_cases ha : m.zuulGrpcAddress = []
    · rw [if_neg (not_not.mpr ha),if_neg (by simp [ha]),Option.none_or]
    · rw [if_pos ha,if_pos (decide_eq_true ha),Option.some_or]

/-- Where only marshalled topology commands are committed, each with a uint64 for its
replica, and the revision and the sizes stay in bounds: whatever batches, snapshots and
restarts the replicas of the meta shard go through, none fails, and each lists, in order and
once, whom the log has put and not deleted since. A resolver asks the seed only where the
log has no address; entry n is answered with n. -/
theorem topology_follows_log {acts : List (Act MetaCommand)} {g : Group Store Str (List SmResult) MetaSnapshot Str}
    (he : exec metaShard.next metaShardModel.Allows metaShard.start acts = some g) (hb : MetaLog (metaLogged acts)) :
    (∀ r, let x := g.replica r
      let log := (metaLogged acts).take x.applied
      x.down = false ∧ x.applied ≤ (metaLogged acts).length ∧ x.state.revision = x.applied ∧
      (x.state.list.map Member.replicaID).Pairwise (· < ·) ∧
      (∀ m, m ∈ x.state.list ↔ recorded log m.replicaID = some m) ∧
      ∀ seed id, resolveAddr (some x.state) seed id =
        (((recorded log id).map Member.zuulGrpcAddress).filter (fun a => decide (a ≠ []))).or (seed id)) ∧
    ∀ b ∈ g.batches, b.first + b.count ≤ (metaLogged acts).length ∧
      b.left.map (fun a => (a.value,unmarshalMetaResult a.data)) =
        (List.range' (b.first + 1) b.count).map (fun n => (n.toUInt64,.ok n)) := by
  have hs := Model.sound_run (by rw [metaLogged_eq]; exact hb) he
  rw [metaLogged_eq] at hs
  refine ⟨fun r => ?_,fun b hm => ?_⟩
  · have hx := hs.replica r
    have hrec : (g.replica r).state.Records ((metaLogged acts).take (g.replica r).applied) := hx.state
    have hrev := hrec.revision
    rw [List.length_take_of_le hx.applied] at hrev
    exact ⟨hx.up,hx.applied,hrev,list_sorted hrec,fun m => mem_list hrec,resolveAddr_eq hrec⟩
  · obtain ⟨hle,ho⟩ := hs.batches b hm
    refine ⟨hle,?_⟩
    have ho : MetaAnswered _ _ b.left := ho
    rw [MetaAnswered,List.length_take_of_le (by omega),List.length_take_of_le (by rw [List.length_drop]; omega)] at ho
    exact ho

/-- A node moves. A replica that caught up by a snapshot finds the new address, and one
that is behind still the old. -/
theorem moved_node_resolved :
    let acts : List (Act MetaCommand) := [.commit (.put ⟨1,str "r1",str "a",[]⟩),.commit (.put ⟨2,str "r2",[],[]⟩),
      .apply 0 2,.prepare 0,.save 0,.commit (.put ⟨1,str "r1",str "b",[]⟩),.recover 1 0,.apply 1 1,.commit (.delete 0)]
    let seed : Nat → Option Str := fun id => if id = 2 then some (str "s") else none
    ∃ g, exec metaShard.next metaShardModel.Allows metaShard.start acts = some g ∧
      resolveAddr (some (g.replica 0).state) seed 1 = some (str "a") ∧
      resolveAddr (some (g.replica 1).state) seed 1 = some (str "b") ∧
      resolveAddr (some (g.replica 1).state) seed 2 = some (str "s") := by
  intro acts seed
  have hsome : (exec metaShard.next metaShardModel.Allows metaShard.start acts).map
      (fun g => ((g.replica 0).applied,(g.replica 1).applied)) = some (2,3) := by decide +kernel
  obtain ⟨g,he,hg⟩ := Option.map_eq_some_iff.mp hsome
  obtain ⟨h0,h1⟩ : (g.replica 0).applied = 2 ∧ (g.replica 1).applied = 3 := by simpa using hg
  have hb : MetaLog (metaLogged acts) := ⟨by decide +kernel,by decide +kernel,by decide +kernel⟩
  have hr := (topology_follows_log he hb).1
  refine ⟨g,he,?_,?_,?_⟩
  · rw [(hr 0).2.2.2.2.2,h0]
    decide +kernel
  · rw [(hr 1).2.2.2.2.2,h1]
    decide +kernel
  · rw [(hr 1).2.2.2.2.2,h1]
    decide +kernel

end Zuul.Raft
