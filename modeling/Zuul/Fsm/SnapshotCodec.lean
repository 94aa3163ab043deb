import Zuul.Fsm.Determinism
import Zuul.Fsm.Marshal

/-! The bytes of a snapshot: every field of every lock, waiter and lease comes back. -/
namespace Zuul.Fsm
open Lib Wire Marshaller

section Schemas

def waiterSchema : Schema WaiterState :=
  ⟨"Waiter",numbered [.bytes "ClientId" (fun p w => .ok { w with clientID := p }),
    .varint "EnqueueSeq" (fun v w => { w with enqueueSeq := v.toNat }),
    .bytes "Value" (fun p w => .ok { w with value := some p })]⟩

/-- The owner of a lock is its client id. -/
def ownerSchema : Schema Str := ⟨"Owner",numbered [.bytes "ClientId" (fun p _ => .ok p)]⟩

/-- An owner that is there already is merged into; every waiter is a new one. -/
def lockSchema : Schema LockState :=
  ⟨"LockState",numbered [.bytes "Name" (fun p l => .ok { l with name := p }),
    .bytes "Holder" (fun p l => (ownerSchema.decode (l.holder.getD []) p).map (fun o => { l with holder := some o })),
    .varint "Token" (fun v l => { l with token := v.toNat }),
    .bytes "Value" (fun p l => .ok { l with value := some p }),
    .bytes "Queue" (fun p l =>
      (waiterSchema.decode ⟨[],0,none⟩ p).map (fun w => { l with queue := l.queue ++ [w] }))]⟩

def leaseSchema : Schema LeaseState :=
  ⟨"LeaseState",numbered [.bytes "ClientId" (fun p l => .ok { l with clientID := p }),
    .varint "TtlMs" (fun v l => { l with ttlMS := v.toInt64 }),
    .varint "ExpireAtUnixNano" (fun v l => { l with expireAt := v.toInt64 }),
    .bytes "HeldKeys" (fun p l => .ok { l with heldKeys := l.heldKeys ++ [p] })]⟩

def snapshotSchema : Schema Snapshot :=
  ⟨"Snapshot",numbered [.varint "Seq" (fun v s => { s with seq := v.toNat }),
    .varint "Revision" (fun v s => { s with revision := v.toNat }),
    .bytes "Locks" (fun p s =>
      (lockSchema.decode ⟨[],none,0,none,[]⟩ p).map (fun l => { s with locks := s.locks ++ [l] })),
    .bytes "Leases" (fun p s =>
      (leaseSchema.decode ⟨[],0,0,[]⟩ p).map (fun l => { s with leases := s.leases ++ [l] }))]⟩

/-- UnmarshalVT of a snapshot. -/
def unmarshalSnapshot (s : Str) : Except WireError Snapshot := snapshotSchema.decode ⟨0,0,[],[]⟩ s

end Schemas

section Marshalling

def WaiterState.marshaller (w : WaiterState) : Marshaller :=
  fields [bytes 0x0A w.clientID,varint 0x10 w.enqueueSeq.toUInt64,bytes 0x1A (w.value.getD [])]

def ownerMarshaller (clientID : Str) : Marshaller := fields [bytes 0x0A clientID]

def LockState.marshaller (l : LockState) : Marshaller :=
  fields [bytes 0x0A l.name,l.holder.elim absent (fun o => message 0x12 (ownerMarshaller o)),
    varint 0x18 l.token.toUInt64,bytes 0x22 (l.value.getD []),repeated 0x2A WaiterState.marshaller l.queue]

def LeaseState.marshaller (l : LeaseState) : Marshaller :=
  fields [bytes 0x0A l.clientID,varint 0x10 l.ttlMS.toUInt64,varint 0x18 l.expireAt.toUInt64,
    fields (l.heldKeys.map (element 0x22))]

def Snapshot.marshaller (s : Snapshot) : Marshaller :=
  fields [varint 0x08 s.seq.toUInt64,varint 0x10 s.revision.toUInt64,repeated 0x1A LockState.marshaller s.locks,
    repeated 0x22 LeaseState.marshaller s.leases]

/-- MarshalVT of a snapshot. -/
def Snapshot.marshal (s : Snapshot) : Option Str := s.marshaller.marshal

/-- The counters, tokens and places are uint64s. -/
structure Snapshot.Counted (s : Snapshot) : Prop where
  seq : s.seq < UInt64.size
  revision : s.revision < UInt64.size
  token : ∀ l ∈ s.locks, l.token < UInt64.size
  place : ∀ l ∈ s.locks, ∀ w ∈ l.queue, w.enqueueSeq < UInt64.size

end Marshalling

section RoundTrips

private theorem waiter_decodes {w : WaiterState} (h : w.enqueueSeq < UInt64.size) :
    w.marshaller.Decodes waiterSchema ⟨[],0,none⟩ (w.mapValue decodeBytes) := by
  refine decodes_cons (decodes_bytes (by decide) rfl (fun _ => rfl) (fun h => by rw [h])) ?_
  refine decodes_cons (decodes_nat (fun n (w : WaiterState) => { w with enqueueSeq := n }) (by decide) rfl h rfl) ?_
  exact decodes_cons (decodes_value (fun v (w : WaiterState) => { w with value := v }) (by decide) rfl rfl) decodes_nil

private theorem owner_decodes (clientID : Str) : (ownerMarshaller clientID).Decodes ownerSchema [] clientID :=
  decodes_cons (decodes_bytes (by decide) rfl (fun _ => rfl) id) decodes_nil

private theorem holder_decodes {l : LockState} (o : Option Str) (hl : l.holder = none) :
    (o.elim absent (fun o => message 0x12 (ownerMarshaller o))).Decodes lockSchema l { l with holder := o } := by
  cases o with
  | none =>
    cases l
    cases hl
    exact decodes_nil
  | some o =>
    refine decodes_message (by decide) rfl (owner_decodes o) (fun p hp => ?_)
    rw [hl]
    change (ownerSchema.decode [] p).map _ = _
    rw [hp]
    rfl

private theorem queue_decodes {queue : List WaiterState} (h : ∀ w ∈ queue, w.enqueueSeq < UInt64.size)
    {l : LockState} (hl : l.queue = []) : (repeated 0x2A WaiterState.marshaller queue).Decodes lockSchema l
      { l with queue := queue.map (·.mapValue decodeBytes) } := by
  refine decodes_list (fun queue => { l with queue }) (fun w hw ws => ?_) (by rw [← hl])
  refine decodes_message (by decide) rfl (waiter_decodes (h w hw)) (fun p hp => ?_)
  rw [hp]
  rfl

private theorem lock_decodes {l : LockState} (ht : l.token < UInt64.size)
    (hq : ∀ w ∈ l.queue, w.enqueueSeq < UInt64.size) :
    l.marshaller.Decodes lockSchema ⟨[],none,0,none,[]⟩ (l.mapValue decodeBytes) := by
  refine decodes_cons (decodes_bytes (by decide) rfl (fun _ => rfl) (fun h => by rw [h])) ?_
  refine decodes_cons (holder_decodes l.holder rfl) ?_
  refine decodes_cons (decodes_nat (fun n (l : LockState) => { l with token := n }) (by decide) rfl ht rfl) ?_
  refine decodes_cons (decodes_value (fun v (l : LockState) => { l with value := v }) (by decide) rfl rfl) ?_
  exact decodes_cons (queue_decodes hq rfl) decodes_nil

private theorem heldKeys_decodes (keys : List Str) {l : LeaseState} (hl : l.heldKeys = []) :
    (fields (keys.map (element 0x22))).Decodes leaseSchema l { l with heldKeys := keys } := by
  have h : (fields (keys.map (element 0x22))).Decodes leaseSchema l { l with heldKeys := keys.map id } :=
    decodes_list (fun heldKeys => { l with heldKeys }) (fun k _ ks => decodes_element (by decide) rfl rfl)
      (by rw [← hl])
  rwa [List.map_id] at h

private theorem lease_decodes (l : LeaseState) : l.marshaller.Decodes leaseSchema ⟨[],0,0,[]⟩ l := by
  refine decodes_cons (decodes_bytes (by decide) rfl (fun _ => rfl) (fun h => by rw [h])) ?_
  refine decodes_cons (decodes_int64 (fun n (l : LeaseState) => { l with ttlMS := n }) (by decide) rfl rfl) ?_
  refine decodes_cons (decodes_int64 (fun n (l : LeaseState) => { l with expireAt := n }) (by decide) rfl rfl) ?_
  exact decodes_cons (heldKeys_decodes l.heldKeys rfl) decodes_nil

private theorem locks_decode {locks : List LockState} (ht : ∀ l ∈ locks, l.token < UInt64.size)
    (hq : ∀ l ∈ locks, ∀ w ∈ l.queue, w.enqueueSeq < UInt64.size) {s : Snapshot} (hs : s.locks = []) :
    (repeated 0x1A LockState.marshaller locks).Decodes snapshotSchema s
      { s with locks := locks.map (·.mapValue decodeBytes) } := by
  refine decodes_list (fun locks => { s with locks }) (fun l hl ls => ?_) (by rw [← hs])
  refine decodes_message (by decide) rfl (lock_decodes (ht l hl) (hq l hl)) (fun p hp => ?_)
  rw [hp]
  rfl

private theorem leases_decode (leases : List LeaseState) {s : Snapshot} (hs : s.leases = []) :
    (repeated 0x22 LeaseState.marshaller leases).Decodes snapshotSchema s { s with leases } := by
  have h : (repeated 0x22 LeaseState.marshaller leases).Decodes snapshotSchema s { s with leases := leases.map id } := by
    refine decodes_list (fun leases => { s with leases }) (fun l _ ls => ?_) (by rw [← hs])
    refine decodes_message (by decide) rfl (lease_decodes l) (fun p hp => ?_)
    rw [hp]
    rfl
  rwa [List.map_id] at h

/-- A snapshot fills a buffer of exactly its size, and what it writes decodes to it,
empty values apart. -/
theorem unmarshalSnapshot_marshal {s : Snapshot} (h : s.Counted) (hs : s.marshaller.size ≤ maxInt) :
    ∃ bs, s.marshal = some bs ∧ bs.length = s.marshaller.size ∧ unmarshalSnapshot bs = .ok s.wire := by
  have hd : s.marshaller.Decodes snapshotSchema ⟨0,0,[],[]⟩ s.wire := by
    refine decodes_cons (decodes_nat (fun n (s : Snapshot) => { s with seq := n }) (by decide) rfl h.seq rfl) ?_
    refine decodes_cons (decodes_nat (fun n (s : Snapshot) => { s with revision := n }) (by decide) rfl h.revision
      rfl) ?_
    refine decodes_cons (locks_decode h.token h.place rfl) ?_
    exact decodes_cons (leases_decode s.leases rfl) decodes_nil
  exact hd.round_trip hs

end RoundTrips

section Ranges
variable {f : FSM} {k c : Str} {v : Bytes}

/-- The numbers of an answer come from the counters of the state it leaves. -/
structure Applied.Counted (a : Applied) : Prop where
  revision : a.result.revision = a.fsm.revision
  token : a.result.fencingToken ≤ a.fsm.seq
  position : a.result.queuePosition < UInt32.size

private theorem uint32_lt (n : Nat) : uint32 n < UInt32.size := Nat.mod_lt n (by decide)

private theorem queuePos_lt (lk : Lock) (c : Str) : queuePos lk c < UInt32.size := by
  unfold queuePos
  split
  · exact uint32_lt _
  · decide

private theorem token_le (h : Inv f) {lk : Lock} (hk : f.locks.lookup k = some lk) : lk.token ≤ f.seq :=
  ((h.locks hk).bounded List.mem_cons_self).2

private theorem plain_counted (g : FSM) (o : Outcome) (k : Str) (evs : List Event) :
    Applied.Counted ⟨g,g.resultKey o k,evs⟩ := ⟨rfl,Nat.zero_le _,Nat.zero_lt_succ _⟩

private theorem lease_counted (g : FSM) (o : Outcome) (d : Int64) (evs : List Event) :
    Applied.Counted ⟨g,{ g.result o with leaseDeadline := d },evs⟩ := ⟨rfl,Nat.zero_le _,Nat.zero_lt_succ _⟩

private theorem acquire_counted (h : Inv f) (tryLock : Bool) : (f.acquire k c v tryLock).Counted := by
  have ht := acquire_cases h k c v tryLock
  generalize f.acquire k c v tryLock = out at ht
  cases ht with
  | noLease => exact plain_counted f _ k _
  | free => exact ⟨rfl,Nat.le_refl _,Nat.zero_lt_succ _⟩
  | holder _ hk _ => exact ⟨rfl,token_le h hk,Nat.zero_lt_succ _⟩
  | busy => exact ⟨rfl,Nat.zero_le _,Nat.zero_lt_succ _⟩
  | again => exact ⟨rfl,Nat.zero_le _,queuePos_lt _ c⟩
  | join => exact ⟨rfl,Nat.zero_le _,uint32_lt _⟩

private theorem release_counted (f : FSM) (k c : Str) (t : Nat) : (f.release k c t).Counted := by
  unfold FSM.release
  split
  · exact plain_counted f _ k _
  · split_ifs
    · exact plain_counted f _ k _
    · exact plain_counted f _ k _
    · exact plain_counted _ _ k _

private theorem cancelWait_counted (f : FSM) (k c : Str) : (f.cancelWait k c).Counted := by
  unfold FSM.cancelWait
  split
  · exact plain_counted f _ k _
  · split_ifs
    · exact plain_counted _ _ k _
    · exact plain_counted f _ k _

private theorem proclaim_counted (h : Inv f) (t : Nat) : (f.proclaim k c t v).Counted := by
  unfold FSM.proclaim
  split
  · exact plain_counted f _ k _
  case h_2 lk hk =>
    split_ifs
    · exact plain_counted f _ k _
    · exact plain_counted f _ k _
    · exact ⟨rfl,token_le h hk,Nat.zero_lt_succ _⟩

private theorem leaseKeepAlive_counted (f : FSM) (c : Str) (now : Int64) : (f.leaseKeepAlive c now).Counted := by
  unfold FSM.leaseKeepAlive
  split
  · exact lease_counted f _ 0 _
  · exact lease_counted _ _ _ _

private theorem leaseRevoke_counted (f : FSM) (c : Str) : (f.leaseRevoke c).Counted := by
  unfold FSM.leaseRevoke
  split
  · exact lease_counted f _ 0 _
  · exact lease_counted _ _ 0 _

private theorem leaseExpire_counted (f : FSM) (c : Str) (now : Int64) : (f.leaseExpire c now).Counted := by
  unfold FSM.leaseExpire
  split
  · exact lease_counted f _ 0 _
  · split_ifs
    · exact lease_counted f _ 0 _
    · exact lease_counted _ _ 0 _

/-- The numbers of every answer come from the counters of the state it leaves. -/
theorem step_counted (h : Inv f) (cmd : Command) : (f.step cmd).Counted := by
  have hb : Inv f.bump := h.bump
  unfold FSM.step
  cases cmd with
  | acquireLock name c tryLock => exact acquire_counted hb tryLock
  | campaign name c value => exact acquire_counted hb false
  | releaseLock name c token => exact release_counted _ name c token
  | resign name c token => exact release_counted _ name c token
  | cancelWait name c => exact cancelWait_counted _ name c
  | proclaim name c token value => exact proclaim_counted hb token
  | leaseGrant c ttlMS now => exact lease_counted _ _ _ _
  | leaseKeepAlive c now => exact leaseKeepAlive_counted _ c now
  | leaseRevoke c => exact leaseRevoke_counted _ c
  | leaseExpire c now => exact leaseExpire_counted _ c now

/-- A snapshot of a state whose counters are in range. -/
theorem snapshot_counted (h : Inv f) (hs : f.seq < UInt64.size) (hr : f.revision < UInt64.size) :
    f.snapshot.Counted where
  seq := hs
  revision := hr
  token l hl := by
    obtain ⟨k,lk,hk,rfl⟩ := (KeyedMap.mem_dump _ _ _).mp hl
    exact Nat.lt_of_le_of_lt (token_le h hk) hs
  place l hl w hw := by
    obtain ⟨k,lk,hk,rfl⟩ := (KeyedMap.mem_dump _ _ _).mp hl
    obtain ⟨w,hq,rfl⟩ := List.mem_map.mp hw
    exact Nat.lt_of_le_of_lt ((h.locks hk).bounded (List.mem_cons_of_mem _ (List.mem_map_of_mem hq))).2 hs

end Ranges

section Canonical
variable {f g : FSM}

/-- The snapshot of a state can be written: its counters are uint64s and its size is an int. -/
structure FSM.Writable (f : FSM) : Prop where
  seq : f.seq < UInt64.size
  revision : f.revision < UInt64.size
  size : f.snapshot.marshaller.size ≤ maxInt

/-- The bytes of a snapshot say everything about a reachable state and nothing else: two
states are written alike just when they agree in every lookup. -/
theorem snapshot_bytes_canonical (hf : Reachable Command.FromWire f) (hg : Reachable Command.FromWire g)
    (hwf : f.Writable) (hwg : g.Writable) (hn : f.notifier = g.notifier) :
    (∃ bs, f.snapshot.marshal = some bs ∧ bs.length = f.snapshot.marshaller.size ∧
      ∀ r : FSM, r.notifier = f.notifier → ∃ snap, unmarshalSnapshot bs = .ok snap ∧ (r.restore snap).1.Same f) ∧
    (f.snapshot.marshal = g.snapshot.marshal ↔ f.Same g) := by
  obtain ⟨bs,hm,hl,hu⟩ := unmarshalSnapshot_marshal (snapshot_counted (reachable_clean hf).1 hwf.seq hwf.revision) hwf.size
  obtain ⟨bs',hm',-,hu'⟩ := unmarshalSnapshot_marshal (snapshot_counted (reachable_clean hg).1 hwg.seq hwg.revision)
    hwg.size
  refine ⟨⟨bs,hm,hl,fun r hr => ⟨_,hu,?_⟩⟩,fun he => ?_,fun he => by rw [snapshot_same he]⟩
  · have ht := (restore_indistinguishable hf r).1
    rwa [hr] at ht
  · obtain rfl : bs = bs' := Option.some.inj (by rw [← hm,← hm',he])
    have hw : f.snapshot.wire = g.snapshot.wire := Except.ok.inj (hu.symm.trans hu')
    -- a replica that restores either of them becomes both
    have htf := (restore_indistinguishable hf f).1
    have htg := (restore_indistinguishable hg f).1
    rw [hw] at htf
    rw [hn] at htg
    exact htf.symm.trans htg

/-- Two orders of the same grants: what is held is the same, and so are the bytes. -/
theorem snapshot_of_either_order :
    let f := (new true).run [.leaseGrant (str "a") 5 0,.leaseGrant (str "b") 5 0,.acquireLock (str "k") (str "a") false]
    let g := (new true).run [.leaseGrant (str "b") 5 0,.leaseGrant (str "a") 5 0,.acquireLock (str "k") (str "a") false]
    f.snapshot.marshal = g.snapshot.marshal ∧ f.Same g := by
  intro f g
  have hs : f.snapshot.marshal = g.snapshot.marshal := by decide +kernel
  have hc := snapshot_bytes_canonical (f := f) (g := g) ((Reachable.start true).run (by decide))
    ((Reachable.start true).run (by decide)) ⟨by decide +kernel,by decide +kernel,by decide +kernel⟩
    ⟨by decide +kernel,by decide +kernel,by decide +kernel⟩ (by decide +kernel)
  exact ⟨hs,hc.2.mp hs⟩

end Canonical
end Zuul.Fsm
