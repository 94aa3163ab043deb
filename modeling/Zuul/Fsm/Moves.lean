import Zuul.Fsm.Invariant

/-! What each primitive change does to the lookups, and that it keeps the invariant.
Every command is a sequence of these changes. -/
namespace Zuul.Fsm
open Lib
variable {exempt exempt' : Str → Str → Prop} {f : FSM} {k c : Str} {lk : Lock} {ls : Lease} {v : Bytes}

/-- Lookups after a lock and a lease were written back. -/
theorem setBoth_lock (f : FSM) (k c k' : Str) (lk : Lock) (ls : Lease) :
    ((f.setLock k lk).setLease c ls).locks.lookup k' = if k' = k then some lk else f.locks.lookup k' :=
  KeyedMap.lookup_insert_eq _ _ _ _

/-- Writing a lock and a lease writes no other lease. -/
theorem setBoth_lease (f : FSM) (k c d : Str) (lk : Lock) (ls : Lease) :
    ((f.setLock k lk).setLease c ls).leases.lookup d = if d = c then some ls else f.leases.lookup d :=
  KeyedMap.lookup_insert_eq _ _ _ _

/-- Writing one lock and one lease, with the counter moved up, edits one key. -/
theorem setBoth_edit {n : Nat} (hc : f.leases.lookup c = some ls) {ls' : Lease} (he : LeaseEdit k ls ls')
    (hn : f.seq ≤ n) (lk : Lock) : KeyEdit k f (({ f with seq := n }.setLock k lk).setLease c ls') where
  locks hk := by rw [setBoth_lock,if_neg hk]
  leases d := KeyEdit.leases_insert hc he d
  seq := hn
  revision := rfl
  notifier := rfl

/-- A key set after an insertion or a removal at one key. -/
theorem mem_insert_other {m : KeySet} {k' : Str} (h : k' ≠ k) : k' ∈ m.insert k () ↔ k' ∈ m := by
  simp [AList.mem_insert,h]

/-- Other keys stay in a set. -/
theorem mem_erase_other {m : KeySet} {k' : Str} (h : k' ≠ k) : k' ∈ m.erase k ↔ k' ∈ m := by
  simp [AList.mem_erase,h]

/-- The record a grant writes for a key that was absent. -/
def Lock.granted (k c : Str) (n : Nat) (v : Bytes) : Lock := { name := k, holder := c, token := n, value := v }

section Grant

/-- A grant counts up and writes the lock and the lease. -/
theorem grant_fsm (hk : f.locks.lookup k = none) : (f.grant k c ls v).fsm =
    ({ f with seq := f.seq + 1 }.setLock k (Lock.granted k ls.clientID (f.seq + 1) v)).setLease c
      { ls with held := ls.held.insert k (), waiting := ls.waiting.erase k } := by
  simp only [FSM.grant,hk,Option.getD_none]
  rfl

/-- A grant edits one key. -/
theorem grant_edit (hk : f.locks.lookup k = none) (hc : f.leases.lookup c = some ls) :
    KeyEdit k f (f.grant k c ls v).fsm := by
  have he : LeaseEdit k ls { ls with held := ls.held.insert k (), waiting := ls.waiting.erase k } :=
    ⟨rfl,rfl,rfl,mem_insert_other,mem_erase_other⟩
  rw [grant_fsm hk]
  exact setBoth_edit hc he (Nat.le_succ _) _

/-- The client holds the key under the next token. -/
theorem grant_lock (h : Inv f) (hk : f.locks.lookup k = none) (hc : f.leases.lookup c = some ls) :
    (f.grant k c ls v).fsm.locks.lookup k = some (Lock.granted k c (f.seq + 1) v) := by
  rw [grant_fsm hk,setBoth_lock,if_pos rfl,(h.owned hc).1]

/-- A grant keeps the invariant. -/
theorem grant_inv (h : Inv f) (hk : f.locks.lookup k = none) (hc : f.leases.lookup c = some ls) :
    Inv (f.grant k c ls v).fsm := by
  have he := grant_edit (v := v) hk hc
  have hl := grant_lock (v := v) h hk hc
  have hseq : (f.grant k c ls v).fsm.seq = f.seq + 1 := by rw [grant_fsm hk]; rfl
  have hleft : ∀ {d ls'}, (f.grant k c ls v).fsm.leases.lookup d = some ls' →
      (k ∈ ls'.held ↔ d = c) ∧ k ∉ ls'.waiting := by
    intro d ls' hd
    rw [grant_fsm hk,setBoth_lease] at hd
    by_cases hdc : d = c
    · rw [if_pos hdc] at hd
      cases hd
      simp [hdc,AList.mem_insert,AList.mem_erase]
    · rw [if_neg hdc] at hd
      have hh := h.held (k := k) id hd
      have hw := h.waiting (k := k) id hd
      simp only [hk,reduceCtorEq,false_and,exists_false] at hh hw
      exact ⟨⟨fun hm => (hh.mp hm).elim,fun hm => (hdc hm).elim⟩,hw.mp⟩
  apply h.update he (fun _ => id)
  · intro lk hlk
    cases hl.symm.trans hlk
    refine ⟨⟨rfl,?_,?_,.nil,?_,?_⟩,?_⟩
    · exact List.nodup_singleton c
    · intro d hd
      cases List.mem_singleton.mp hd
      exact (he.mem_leases c).mpr ((KeyedMap.mem_iff_lookup _ _).mpr ⟨ls,hc⟩)
    · intro n hn
      cases List.mem_singleton.mp hn
      exact ⟨Nat.succ_pos _,hseq.ge⟩
    · exact List.nodup_singleton _
    · intro n hn hle
      cases List.mem_singleton.mp hn
      exact (Nat.not_succ_le_self _ hle).elim
  · intro d ls' _ hd
    rw [(hleft hd).1,hl]
    constructor
    · rintro rfl; exact ⟨_,rfl,rfl⟩
    · rintro ⟨lk,hlk,hh⟩; cases hlk; exact hh.symm
  · intro d ls' _ hd
    rw [hl]
    constructor
    · intro hm; exact ((hleft hd).2 hm).elim
    · rintro ⟨lk,hlk,hh⟩; cases hlk; cases hh

end Grant

section Enqueue

/-- The record after the client joined the queue. -/
def Lock.enqueued (lk : Lock) (c : Str) (n : Nat) (v : Bytes) : Lock :=
  { lk with queue := lk.queue ++ [⟨c,n,v⟩] }

/-- Whoever comes last stands at the end of the line. -/
theorem enqueued_line (lk : Lock) (c : Str) (n : Nat) (v : Bytes) :
    (lk.enqueued c n v).line = lk.line ++ [c] := by simp [Lock.enqueued,Lock.line]

private theorem enqueued_stamps (lk : Lock) (c : Str) (n : Nat) (v : Bytes) :
    (lk.enqueued c n v).stamps = lk.stamps ++ [n] := by simp [Lock.enqueued,Lock.stamps]

/-- Joining a queue edits one key. -/
theorem enqueue_edit (hc : f.leases.lookup c = some ls) (lk : Lock) (v : Bytes) :
    KeyEdit k f (f.enqueue k c lk ls v).fsm := by
  have he : LeaseEdit k ls { ls with waiting := ls.waiting.insert k () } :=
    ⟨rfl,rfl,rfl,fun _ => .rfl,mem_insert_other⟩
  exact setBoth_edit hc he (Nat.le_succ _) _

/-- The lock is as it was, with one waiter more. -/
theorem enqueue_lock (f : FSM) (k c : Str) (lk : Lock) (ls : Lease) (v : Bytes) :
    (f.enqueue k c lk ls v).fsm.locks.lookup k = some (lk.enqueued c (f.seq + 1) v) := by
  rw [FSM.enqueue,setBoth_lock,if_pos rfl]
  rfl

private theorem enqueued_ok (h : Inv f) (hk : f.locks.lookup k = some lk) (hc : c ∈ f.leases) (hn : c ∉ lk.line)
    {g : FSM} (hg : ∀ d, d ∈ g.leases ↔ d ∈ f.leases) (hs : g.seq = f.seq + 1) (v : Bytes) :
    (lk.enqueued c (f.seq + 1) v).Ok g k := by
  have ho := h.locks hk
  refine ⟨ho.named,?_,?_,?_,?_,?_⟩
  · rw [enqueued_line]
    exact List.nodup_append.mpr ⟨ho.distinct,List.nodup_singleton c,by
      intro a ha b hb hab
      cases List.mem_singleton.mp hb
      exact hn (hab ▸ ha)⟩
  · intro d hd
    rw [hg]
    rw [enqueued_line,List.mem_append,List.mem_singleton] at hd
    rcases hd with hd | rfl
    · exact ho.leased hd
    · exact hc
  · simp only [Lock.enqueued,List.map_append,List.map_cons,List.map_nil]
    refine List.pairwise_append.mpr ⟨ho.ordered,List.pairwise_singleton _ _,?_⟩
    intro a ha b hb
    cases List.mem_singleton.mp hb
    exact Nat.lt_succ_of_le (ho.bounded (List.mem_cons_of_mem _ ha)).2
  · intro n hm
    rw [enqueued_stamps,List.mem_append,List.mem_singleton] at hm
    rw [hs]
    rcases hm with hm | rfl
    · have := ho.bounded hm; omega
    · omega
  · rw [enqueued_stamps]
    refine List.nodup_append.mpr ⟨ho.fresh,List.nodup_singleton _,?_⟩
    intro a ha b hb hab
    cases List.mem_singleton.mp hb
    have := (ho.bounded ha).2
    omega

/-- Joining a queue keeps the invariant. -/
theorem enqueue_inv (h : Inv f) (hk : f.locks.lookup k = some lk) (hc : f.leases.lookup c = some ls)
    (hn : c ∉ lk.line) : Inv (f.enqueue k c lk ls v).fsm := by
  have he := enqueue_edit (k := k) hc lk v
  have hl := enqueue_lock f k c lk ls v
  have hlease : ∀ d, (f.enqueue k c lk ls v).fsm.leases.lookup d =
      if d = c then some { ls with waiting := ls.waiting.insert k () } else f.leases.lookup d :=
    fun d => setBoth_lease _ _ _ _ _ _
  apply h.update he (fun _ => id)
  · intro lk' hlk
    cases hl.symm.trans hlk
    refine ⟨enqueued_ok h hk ((KeyedMap.mem_iff_lookup _ _).mpr ⟨ls,hc⟩) hn he.mem_leases rfl v,?_⟩
    intro n hm hle
    rw [enqueued_stamps,List.mem_append,List.mem_singleton] at hm
    rcases hm with hm | rfl
    · exact ⟨lk,hk,hm⟩
    · omega
  · intro d ls' _ hd
    have hheld : k ∈ ls'.held ↔ lk.holder = d := by
      rw [hlease] at hd
      split at hd
      · rename_i hdc
        cases hd
        rw [hdc,h.held (k := k) id hc,hk]
        simp
      · rw [h.held (k := k) id hd,hk]
        simp
    rw [hheld,hl]
    simp [Lock.enqueued]
  · intro d ls' _ hd
    have hwait : k ∈ ls'.waiting ↔ d ∈ lk.queue.map Waiter.clientID ∨ d = c := by
      rw [hlease] at hd
      split at hd
      · rename_i hdc
        cases hd
        simp [hdc,AList.mem_insert]
      · rename_i hdc
        rw [h.waiting (k := k) id hd,hk]
        simp [hdc]
    rw [hwait,hl]
    simp [Lock.enqueued,eq_comm]

end Enqueue
end Zuul.Fsm
