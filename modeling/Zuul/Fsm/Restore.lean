import Zuul.Fsm.Extensional
import Zuul.Fsm.Invariant

/-! What Restore rebuilds: the locks and leases of the snapshot and both indexes. -/
namespace Zuul.Fsm
open Lib
variable {φ : Bytes → Bytes} {f g r : FSM} {k c : Str} {lk : Lock}

/-- A lease after some index entries were added to it. -/
structure Lease.Gains (held waiting : Str → Prop) (a b : Lease) : Prop where
  clientID : b.clientID = a.clientID
  ttlMS : b.ttlMS = a.ttlMS
  expireAt : b.expireAt = a.expireAt
  held : ∀ k, k ∈ b.held ↔ k ∈ a.held ∨ held k
  waiting : ∀ k, k ∈ b.waiting ↔ k ∈ a.waiting ∨ waiting k

/-- The leases after index entries were added, client by client. -/
def Indexed (held waiting : Str → Str → Prop) (m m' : Leases) : Prop :=
  ∀ c, Option.Rel (Lease.Gains (held c) (waiting c)) (m.lookup c) (m'.lookup c)

namespace Indexed
variable {m m' m'' : Leases} {held waiting held' waiting' : Str → Str → Prop}

private theorem of_same (hh : ∀ c k, m.lookup c ≠ none → ¬ held c k) (hw : ∀ c k, m.lookup c ≠ none → ¬ waiting c k) :
    Indexed held waiting m m := by
  intro c
  cases hc : m.lookup c with
  | none => exact .none
  | some ls =>
    have hne : m.lookup c ≠ none := by rw [hc]; exact Option.some_ne_none ls
    exact .some ⟨rfl,rfl,rfl,fun k => by simp [hh c k hne],fun k => by simp [hw c k hne]⟩

private theorem trans (h : Indexed held waiting m m') (j : Indexed held' waiting' m' m'') :
    Indexed (fun c k => held c k ∨ held' c k) (fun c k => waiting c k ∨ waiting' c k) m m'' := by
  intro c
  refine KeyedMap.rel_trans (h c) (j c) (fun _ _ _ a b => ?_)
  refine ⟨b.clientID.trans a.clientID,b.ttlMS.trans a.ttlMS,b.expireAt.trans a.expireAt,?_,?_⟩
  · intro k; rw [b.held,a.held,or_assoc]
  · intro k; rw [b.waiting,a.waiting,or_assoc]

private theorem congr (h : Indexed held waiting m m') (hh : ∀ c k, held c k ↔ held' c k)
    (hw : ∀ c k, waiting c k ↔ waiting' c k) : Indexed held' waiting' m m' := by
  have e1 : held = held' := by funext c k; exact propext (hh c k)
  have e2 : waiting = waiting' := by funext c k; exact propext (hw c k)
  exact e1 ▸ e2 ▸ h

/-- Writing one lease back with more index entries. -/
theorem of_insert {ls ls' : Lease} (hc : m.lookup c = some ls) (hg : ls.Gains (held c) (waiting c) ls')
    (ho : ∀ d, d ≠ c → ∀ k, ¬ held d k ∧ ¬ waiting d k) : Indexed held waiting m (m.insert c ls') := by
  intro d
  rw [KeyedMap.lookup_insert_eq]
  split
  · rename_i hd
    rw [hd,hc]
    exact .some hg
  · rename_i hd
    cases m.lookup d with
    | none => exact .none
    | some ld => exact .some ⟨rfl,rfl,rfl,fun k => by simp [(ho d hd k).1],fun k => by simp [(ho d hd k).2]⟩

/-- A loop whose rounds each add entries adds the entries of all its rounds. -/
theorem foldl {A : Type} {round : Leases → A → Leases} {held waiting : A → Str → Str → Prop}
    (hr : ∀ m x, Indexed (held x) (waiting x) m (round m x)) (xs : List A) (m : Leases) :
    Indexed (fun c k => ∃ x ∈ xs, held x c k) (fun c k => ∃ x ∈ xs, waiting x c k) m (xs.foldl round m) := by
  induction xs generalizing m with
  | nil => exact of_same (by simp) (by simp)
  | cons x xs ih => exact ((hr m x).trans (ih (round m x))).congr (by simp) (by simp)

end Indexed

private theorem indexHolder_indexed (m : Leases) (lk : Lock) :
    Indexed (fun c k => lk.holder ≠ [] ∧ lk.holder = c ∧ lk.name = k) (fun _ _ => False) m (indexHolder m lk) := by
  rw [indexHolder]
  split
  · rename_i hne
    cases hl : m.lookup lk.holder with
    | none =>
      refine Indexed.of_same ?_ (fun _ _ _ => id)
      rintro c k hc ⟨_,rfl,_⟩
      exact hc hl
    | some ls =>
      refine Indexed.of_insert hl ⟨rfl,rfl,rfl,fun k => ?_,fun k => by simp⟩ (fun d hd k => ⟨?_,id⟩)
      · rw [AList.mem_insert]
        simp [hne,or_comm,eq_comm]
      · exact fun hx => hd hx.2.1.symm
  · rename_i hne
    exact Indexed.of_same (fun _ _ _ hx => hne hx.1) (fun _ _ _ => id)

private theorem indexWaiter_indexed (name : Str) (m : Leases) (w : Waiter) :
    Indexed (fun _ _ => False) (fun c k => w.clientID = c ∧ name = k) m (indexWaiter name m w) := by
  rw [indexWaiter]
  cases hl : m.lookup w.clientID with
  | none =>
    refine Indexed.of_same (fun _ _ _ => id) ?_
    rintro c k hc ⟨rfl,_⟩
    exact hc hl
  | some ls =>
    refine Indexed.of_insert hl ⟨rfl,rfl,rfl,fun k => by simp,fun k => ?_⟩ (fun d hd k => ⟨id,?_⟩)
    · rw [AList.mem_insert]
      simp [or_comm,eq_comm]
    · exact fun hx => hd hx.1.symm

/-- One lock adds its name to its holder's and its waiters' indexes. -/
theorem indexLock_indexed (m : Leases) (lk : Lock) :
    Indexed (fun c k => lk.holder ≠ [] ∧ lk.holder = c ∧ lk.name = k)
      (fun c k => c ∈ lk.queue.map Waiter.clientID ∧ lk.name = k) m (indexLock m lk) := by
  refine ((indexHolder_indexed m lk).trans
    (Indexed.foldl (indexWaiter_indexed lk.name) lk.queue (indexHolder m lk))).congr ?_ ?_
  · intro c k; simp
  · intro c k
    simp only [false_or,List.mem_map]
    constructor
    · rintro ⟨w,hw,hc,hk⟩; exact ⟨⟨w,hw,hc⟩,hk⟩
    · rintro ⟨⟨w,hw,hc⟩,hk⟩; exact ⟨w,hw,hc,hk⟩

def Waiter.mapValue (φ : Bytes → Bytes) (w : Waiter) : Waiter := { w with value := φ w.value }

/-- A lock with its published values re-encoded. -/
def Lock.mapValue (φ : Bytes → Bytes) (lk : Lock) : Lock :=
  { lk with value := φ lk.value, queue := lk.queue.map (·.mapValue φ) }

private theorem mapValue_queue_clients (lk : Lock) :
    (lk.mapValue φ).queue.map Waiter.clientID = lk.queue.map Waiter.clientID := by
  simp only [Lock.mapValue,List.map_map]
  rfl

private theorem mapValue_line (lk : Lock) : (lk.mapValue φ).line = lk.line := by
  rw [Lock.line,mapValue_queue_clients]
  rfl

private theorem mapValue_queue_seqs (lk : Lock) : (lk.mapValue φ).queue.map Waiter.seq = lk.queue.map Waiter.seq := by
  simp only [Lock.mapValue,List.map_map]
  rfl

private theorem mapValue_stamps (lk : Lock) : (lk.mapValue φ).stamps = lk.stamps := by
  rw [Lock.stamps,mapValue_queue_seqs]
  rfl

theorem mapValue_eq_self (hv : φ lk.value = lk.value) (hq : ∀ w ∈ lk.queue, φ w.value = w.value) :
    lk.mapValue φ = lk := by
  have hm : lk.queue.map (·.mapValue φ) = lk.queue := by
    conv_rhs => rw [← List.map_id lk.queue]
    apply List.map_congr_left
    intro w hw
    rw [Waiter.mapValue,hq w hw]
    rfl
  rw [Lock.mapValue,hv,hm]

private theorem state_lock (k : Str) (lk : Lock) :
    ((lk.state k).mapValue φ).lock = { lk.mapValue φ with name := k } := by
  have hh : (if lk.holder ≠ [] then some lk.holder else none).getD [] = lk.holder := by
    split
    · rfl
    · rename_i hne
      exact (not_not.mp hne).symm
  simp only [LockState.lock,LockState.mapValue,Lock.state,Lock.mapValue,hh,List.map_map]
  rfl

/-- The first state carries the snapshot of the second, values re-encoded. -/
structure Carried (φ : Bytes → Bytes) (g r : FSM) : Prop where
  locks : ∀ k, g.locks.lookup k = (r.locks.lookup k).map (Lock.mapValue φ)
  leases : ∀ c, Option.Rel Lease.Same (g.leases.lookup c) (r.leases.lookup c)
  seq : g.seq = r.seq
  revision : g.revision = r.revision

private theorem restore_locks (h : Inv r) (f : FSM) (k : Str) :
    (f.restore (r.snapshot.mapValue φ)).1.locks.lookup k = (r.locks.lookup k).map (Lock.mapValue φ) := by
  change (KeyedMap.fill LockState.name LockState.lock ((r.locks.dump Lock.state).map (·.mapValue φ)) ∅).lookup k = _
  rw [KeyedMap.dump_map,KeyedMap.fill_dump_lookup r.locks _ LockState.name LockState.lock (fun _ _ => rfl)]
  cases hk : r.locks.lookup k with
  | none => rfl
  | some lk =>
    rw [Option.map_some,Option.map_some,state_lock]
    have hn : (lk.mapValue φ).name = k := (h.locks hk).named
    rw [← hn]

private theorem exists_restored (h : Inv r) (f : FSM) (P : Lock → Prop) (k : Str) :
    (∃ lk ∈ (f.restore (r.snapshot.mapValue φ)).1.locks.entries.map Sigma.snd, P lk ∧ lk.name = k) ↔
    ∃ old, r.locks.lookup k = some old ∧ P (old.mapValue φ) := by
  have hlocks := restore_locks (φ := φ) h f
  generalize (f.restore (r.snapshot.mapValue φ)).1.locks = locks at hlocks
  constructor
  · rintro ⟨lk,hm,hp,rfl⟩
    obtain ⟨⟨k,lk⟩,he,rfl⟩ := List.mem_map.mp hm
    have hk := (KeyedMap.mem_entries_iff locks k lk).mp he
    rw [hlocks k] at hk
    obtain ⟨old,ho,rfl⟩ := Option.map_eq_some_iff.mp hk
    have hn : (old.mapValue φ).name = k := (h.locks ho).named
    exact ⟨old,by rw [hn,ho],hp⟩
  · rintro ⟨old,ho,hp⟩
    have hk : locks.lookup k = some (old.mapValue φ) := by rw [hlocks k,ho]; rfl
    have he := (KeyedMap.mem_entries_iff locks k _).mpr hk
    exact ⟨old.mapValue φ,List.mem_map.mpr ⟨_,he,rfl⟩,hp,(h.locks ho).named⟩

/-- Snapshot then Restore: every lock comes back, and the rebuilt indexes are
those of the source because its own indexes agree with its locks. -/
theorem restore_carried (h : Inv r) (f : FSM) : Carried φ (f.restore (r.snapshot.mapValue φ)).1 r where
  locks := restore_locks h f
  leases c := by
    have hx : Indexed _ _ (KeyedMap.fill LeaseState.clientID LeaseState.lease (r.leases.dump Lease.state) ∅)
        (f.restore (r.snapshot.mapValue φ)).1.leases := Indexed.foldl indexLock_indexed _ _
    have hr := hx c
    change Option.Rel (Lease.Gains _ _) _ _ at hr
    rw [KeyedMap.fill_dump_lookup r.leases _ _ _ (fun _ _ => rfl)] at hr
    generalize (f.restore (r.snapshot.mapValue φ)).1.leases.lookup c = new at hr
    cases hc : r.leases.lookup c with
    | none => rw [hc] at hr; cases hr; exact .none
    | some ls =>
      rw [hc] at hr
      cases hr with
      | some hg =>
        have hne : c ≠ [] := (h.owned hc).2
        refine .some ⟨hg.clientID.trans (h.owned hc).1.symm,hg.ttlMS,hg.expireAt,fun k => ?_,fun k => ?_⟩
        · have hi := exists_restored (φ := φ) h f (fun lk => lk.holder ≠ [] ∧ lk.holder = c) k
          simp only [and_assoc] at hi
          refine ((hg.held k).trans ((or_iff_right (AList.notMem_empty k)).trans hi)).trans ?_
          rw [h.held id hc]
          constructor
          · rintro ⟨lk,hk,_,hh⟩; exact ⟨lk,hk,hh⟩
          · rintro ⟨lk,hk,hh⟩; exact ⟨lk,hk,fun he => hne (hh.symm.trans he),hh⟩
        · have hi := exists_restored (φ := φ) h f (fun lk => c ∈ lk.queue.map Waiter.clientID) k
          simp only [mapValue_queue_clients] at hi
          refine ((hg.waiting k).trans ((or_iff_right (AList.notMem_empty k)).trans hi)).trans ?_
          rw [h.waiting id hc]
  seq := rfl
  revision := rfl

namespace Carried

/-- A lock that was carried over was there before. -/
theorem lookup_back (hc : Carried φ g r) (hk : g.locks.lookup k = some lk) :
    ∃ old, r.locks.lookup k = some old ∧ old.mapValue φ = lk := Option.map_eq_some_iff.mp ((hc.locks k).symm.trans hk)

/-- Holds are carried over as they are. -/
theorem hold (hc : Carried φ g r) (k : Str) : g.hold k = r.hold k := by
  rw [FSM.hold,FSM.hold,hc.locks k,Option.map_map]
  rfl

private theorem mem_leases (hc : Carried φ g r) (c : Str) : c ∈ g.leases ↔ c ∈ r.leases :=
  (KeyedMap.rel_mem_iff hc.leases c).symm

private theorem lease_back (hc : Carried φ g r) {ls : Lease} (hl : g.leases.lookup c = some ls) :
    ∃ old, r.leases.lookup c = some old ∧ ls.Same old := KeyedMap.rel_forth hc.leases hl

/-- A carried state is as sound as its source. -/
theorem inv (hc : Carried φ g r) (h : Inv r) : Inv g where
  locks hk := by
    obtain ⟨old,ho,rfl⟩ := hc.lookup_back hk
    have hok := h.locks ho
    refine ⟨hok.named,?_,?_,?_,?_,?_⟩
    · rw [mapValue_line]; exact hok.distinct
    · intro c hm
      rw [mapValue_line] at hm
      exact (hc.mem_leases c).mpr (hok.leased hm)
    · rw [mapValue_queue_seqs]; exact hok.ordered
    · intro n hn
      rw [mapValue_stamps] at hn
      exact hc.seq ▸ hok.bounded hn
    · rw [mapValue_stamps]; exact hok.fresh
  owned hl := by
    obtain ⟨old,ho,hs⟩ := hc.lease_back hl
    exact ⟨hs.clientID.trans (h.owned ho).1,(h.owned ho).2⟩
  held {c ls k} _ hl := by
    obtain ⟨old,ho,hs⟩ := hc.lease_back hl
    rw [hs.held k,h.held id ho,hc.locks k]
    simp only [Option.map_eq_some_iff]
    constructor
    · rintro ⟨lk,hk,hh⟩; exact ⟨_,⟨lk,hk,rfl⟩,hh⟩
    · rintro ⟨_,⟨lk,hk,rfl⟩,hh⟩; exact ⟨lk,hk,hh⟩
  waiting {c ls k} _ hl := by
    obtain ⟨old,ho,hs⟩ := hc.lease_back hl
    rw [hs.waiting k,h.waiting id ho,hc.locks k]
    simp only [Option.map_eq_some_iff]
    constructor
    · rintro ⟨lk,hk,hq⟩; exact ⟨_,⟨lk,hk,rfl⟩,by rwa [mapValue_queue_clients]⟩
    · rintro ⟨_,⟨lk,hk,rfl⟩,hq⟩; exact ⟨lk,hk,by rwa [mapValue_queue_clients] at hq⟩
  apart hk hk' hn hn' := by
    obtain ⟨old,ho,rfl⟩ := hc.lookup_back hk
    obtain ⟨old',ho',rfl⟩ := hc.lookup_back hk'
    rw [mapValue_stamps] at hn hn'
    exact h.apart ho ho' hn hn'

end Carried

/-- The two ways a snapshot reaches Restore: in memory, or over the wire. -/
inductive Snapshot.Read (snap : Snapshot) : Snapshot → Prop where
  | memory : Read snap snap
  | wire : Read snap snap.wire

theorem snapshot_mapValue_id (snap : Snapshot) : snap.mapValue id = snap := by
  have hw : WaiterState.mapValue id = id := rfl
  have hl : LockState.mapValue id = id := by
    funext l
    simp only [LockState.mapValue,hw,id_eq,List.map_id']
  simp only [Snapshot.mapValue,hl,id_eq,List.map_id']

/-- However a snapshot was read, all but some values is carried over. -/
theorem read_carried (h : Inv r) (f : FSM) {snap : Snapshot} (hs : r.snapshot.Read snap) :
    ∃ φ, Carried φ (f.restore snap).1 r := by
  cases hs with
  | memory =>
    have hc := restore_carried (φ := id) h f
    rw [snapshot_mapValue_id] at hc
    exact ⟨id,hc⟩
  | wire => exact ⟨decodeBytes,restore_carried h f⟩

end Zuul.Fsm
