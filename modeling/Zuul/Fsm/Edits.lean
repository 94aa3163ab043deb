import Zuul.Fsm.Handover

/-! The remaining primitive changes: giving up a key, leaving a queue, publishing
a value, and writing or deleting a lease. -/
namespace Zuul.Fsm
open Lib
variable {exempt : Str → Str → Prop} {f g : FSM} {k c : Str} {lk : Lock} {ls : Lease} {v : Bytes}

section GiveUp

private theorem unhold_eq (hc : f.leases.lookup c = some ls) :
    f.unhold c k = f.setLease c { ls with held := ls.held.erase k } := by rw [FSM.unhold,hc]

private theorem unhold_lease (hc : f.leases.lookup c = some ls) (d : Str) : (f.unhold c k).leases.lookup d =
    if d = c then some { ls with held := ls.held.erase k } else f.leases.lookup d := by
  rw [unhold_eq hc]
  exact KeyedMap.lookup_insert_eq _ _ _ _

/-- Forgetting a hold in the index edits one key. -/
theorem unhold_edit (hc : f.leases.lookup c = some ls) : KeyEdit k f (f.unhold c k) where
  locks _ := by rw [unhold_eq hc]; rfl
  leases d := by
    have he : LeaseEdit k ls { ls with held := ls.held.erase k } :=
      ⟨rfl,rfl,rfl,mem_erase_other,fun _ => .rfl⟩
    rw [unhold_eq hc]
    exact KeyEdit.leases_insert hc he d
  seq := by rw [unhold_eq hc]; exact Nat.le_refl _
  revision := by rw [unhold_eq hc]; rfl
  notifier := by rw [unhold_eq hc]; rfl

private theorem unhold_locks (hc : f.leases.lookup c = some ls) : (f.unhold c k).locks = f.locks := by
  rw [unhold_eq hc]; rfl

private theorem unhold_seq (hc : f.leases.lookup c = some ls) : (f.unhold c k).seq = f.seq := by
  rw [unhold_eq hc]; rfl

private theorem unhold_inv (h : Inv f) (hk : f.locks.lookup k = some lk)
    (hc : f.leases.lookup lk.holder = some ls) :
    InvBut (fun d k' => d = lk.holder ∧ k' = k) (f.unhold lk.holder k) := by
  have he := unhold_edit (k := k) hc
  have hkeep : ∀ {d ls'}, d ≠ lk.holder → (f.unhold lk.holder k).leases.lookup d = some ls' →
      f.leases.lookup d = some ls' := by
    intro d ls' hd hl
    rwa [unhold_lease hc,if_neg hd] at hl
  apply h.update he (fun _ hx => hx.elim)
  · intro lk' hl
    rw [unhold_locks hc,hk] at hl
    cases hl
    have ho := h.locks hk
    exact ⟨⟨ho.named,ho.distinct,fun hd => (he.mem_leases _).mpr (ho.leased hd),ho.ordered,
      fun hn => by rw [unhold_seq hc]; exact ho.bounded hn,ho.fresh⟩,fun n hn _ => ⟨lk,hk,hn⟩⟩
  · intro d ls' hx hl
    rw [h.held id (hkeep (fun hd => hx ⟨hd,rfl⟩) hl),unhold_locks hc]
  · intro d ls' hx hl
    rw [h.waiting id (hkeep (fun hd => hx ⟨hd,rfl⟩) hl),unhold_locks hc]

/-- The holder gives the key up: what release does once it has verified the token. -/
def FSM.giveUp (f : FSM) (k : Str) (lk : Lock) : FSM × List Event := (f.unhold lk.holder k).promote k lk

/-- Giving a key up edits that key only. -/
theorem giveUp_edit (h : Inv f) (hk : f.locks.lookup k = some lk) : KeyEdit k f (f.giveUp k lk).1 := by
  obtain ⟨ls,hc⟩ := h.holder_lease hk
  exact (unhold_edit hc).trans (promote_edit (unhold_inv h hk hc) (by rw [unhold_locks hc]; exact hk))

/-- The key goes to the first in the queue under a new token, or becomes free. -/
theorem giveUp_lock (h : Inv f) (hk : f.locks.lookup k = some lk) :
    (f.giveUp k lk).1.locks.lookup k = lk.next (f.seq + 1) := by
  obtain ⟨ls,hc⟩ := h.holder_lease hk
  have hl := promote_lock (unhold_inv h hk hc) (by rw [unhold_locks hc]; exact hk)
  rwa [unhold_seq hc] at hl

/-- Giving a key up announces what became of it. -/
theorem giveUp_events (h : Inv f) (hk : f.locks.lookup k = some lk) :
    (f.giveUp k lk).2 = (f.giveUp k lk).1.announce k := by
  obtain ⟨ls,hc⟩ := h.holder_lease hk
  exact promote_events (unhold_inv h hk hc) (by rw [unhold_locks hc]; exact hk)

/-- A token is spent where somebody takes over. -/
theorem giveUp_seq (h : Inv f) (hk : f.locks.lookup k = some lk) :
    (f.giveUp k lk).1.seq = if lk.queue = [] then f.seq else f.seq + 1 := by
  obtain ⟨ls,hc⟩ := h.holder_lease hk
  have hs := promote_seq (unhold_inv h hk hc) (by rw [unhold_locks hc]; exact hk)
  rwa [unhold_seq hc] at hs

/-- Giving a key up keeps the invariant. -/
theorem giveUp_inv (h : Inv f) (hk : f.locks.lookup k = some lk) : Inv (f.giveUp k lk).1 := by
  obtain ⟨ls,hc⟩ := h.holder_lease hk
  apply promote_inv (unhold_inv h hk hc) (by rw [unhold_locks hc]; exact hk)
  · exact fun hne hx => hne hx.2
  · exact fun hne hx => hne hx.1
  · right
    intro ls' hl
    rw [unhold_lease hc,if_pos rfl] at hl
    cases hl
    refine ⟨by simp [AList.mem_erase],?_⟩
    rw [h.waiting id hc,hk]
    rintro ⟨lk',hlk,hm⟩
    cases hlk
    exact h.holder_not_queued hk hm

end GiveUp

section Dequeue

/-- The queue without the client, in the same order. -/
theorem dequeue_clients (lk : Lock) (c : Str) :
    (lk.dequeue c).queue.map Waiter.clientID = (lk.queue.map Waiter.clientID).erase c := by
  have hp : (fun w : Waiter => w.clientID == c) = (fun x => c == x) ∘ Waiter.clientID := by
    funext w
    exact BEq.comm
  rw [List.erase_eq_eraseP,List.eraseP_map,Lock.dequeue,hp]

/-- Nobody gets into a queue by somebody leaving it. -/
theorem dequeue_sublist (lk : Lock) (c : Str) : (lk.dequeue c).queue.Sublist lk.queue := List.eraseP_sublist

/-- All others are still waiting. -/
theorem mem_dequeue_clients (h : InvBut exempt f) (hk : f.locks.lookup k = some lk) (d : Str) :
    d ∈ (lk.dequeue c).queue.map Waiter.clientID ↔ d ≠ c ∧ d ∈ lk.queue.map Waiter.clientID := by
  have hn := (List.nodup_cons.mp (h.locks hk).distinct).2
  rw [dequeue_clients,hn.mem_erase_iff]

/-- A client leaves the queue of a key, and its waiting entry goes with it
unless its indexes are exempt. -/
theorem dequeue_inv (h : InvBut exempt f) (hk : f.locks.lookup k = some lk) (he : KeyEdit k f g)
    (hl : g.locks.lookup k = some (lk.dequeue c)) (hs : g.seq = f.seq)
    (hi : ∀ {d ls'}, ¬ exempt d k → g.leases.lookup d = some ls' → ∃ old, f.leases.lookup d = some old ∧
      (k ∈ ls'.held ↔ k ∈ old.held) ∧ (k ∈ ls'.waiting ↔ d ≠ c ∧ k ∈ old.waiting)) : InvBut exempt g := by
  have ho := h.locks hk
  have hsub := dequeue_sublist lk c
  apply h.update he (fun _ => id)
  · intro lk' hlk
    cases hl.symm.trans hlk
    have hst : (lk.dequeue c).stamps.Sublist lk.stamps := (hsub.map _).cons_cons _
    have hln : (lk.dequeue c).line.Sublist lk.line := (hsub.map _).cons_cons _
    exact ⟨⟨ho.named,ho.distinct.sublist hln,fun hd => (he.mem_leases _).mpr (ho.leased (hln.subset hd)),
      ho.ordered.sublist (hsub.map _),fun hn => by rw [hs]; exact ho.bounded (hst.subset hn),
      ho.fresh.sublist hst⟩,fun n hn _ => ⟨lk,hk,hst.subset hn⟩⟩
  · intro d ls' hx hd
    obtain ⟨old,hf,hh,_⟩ := hi hx hd
    rw [hh,h.held hx hf,hk,hl]
    simp [Lock.dequeue]
  · intro d ls' hx hd
    obtain ⟨old,hf,_,hw⟩ := hi hx hd
    rw [hw,h.waiting hx hf,hk,hl]
    simp only [Option.some.injEq,exists_eq_left',mem_dequeue_clients h hk]

/-- What cancelWait does once it has found the client. -/
def FSM.cut (f : FSM) (k c : Str) (lk : Lock) : FSM := (f.setLock k (lk.dequeue c)).unwait c k

private theorem cut_eq (hc : f.leases.lookup c = some ls) : f.cut k c lk =
    (f.setLock k (lk.dequeue c)).setLease c { ls with waiting := ls.waiting.erase k } := by
  have hc' : (f.setLock k (lk.dequeue c)).leases.lookup c = some ls := hc
  rw [FSM.cut,FSM.unwait,hc']

/-- Leaving a queue edits one key. -/
theorem cut_edit (hc : f.leases.lookup c = some ls) : KeyEdit k f (f.cut k c lk) := by
  have he : LeaseEdit k ls { ls with waiting := ls.waiting.erase k } :=
    ⟨rfl,rfl,rfl,fun _ => .rfl,mem_erase_other⟩
  rw [cut_eq hc]
  exact setBoth_edit hc he (Nat.le_refl f.seq) _

/-- The lock is there still, with one waiter fewer. -/
theorem cut_lock (hc : f.leases.lookup c = some ls) :
    (f.cut k c lk).locks.lookup k = some (lk.dequeue c) := by
  rw [cut_eq hc,setBoth_lock,if_pos rfl]

private theorem cut_seq (hc : f.leases.lookup c = some ls) : (f.cut k c lk).seq = f.seq := by rw [cut_eq hc]; rfl

/-- Leaving a queue keeps the invariant. -/
theorem cut_inv (h : Inv f) (hk : f.locks.lookup k = some lk) (hc : f.leases.lookup c = some ls) :
    Inv (f.cut k c lk) := by
  apply dequeue_inv h hk (cut_edit hc) (cut_lock hc) (cut_seq hc)
  intro d ls' _ hd
  rw [cut_eq hc,setBoth_lease] at hd
  split at hd
  · rename_i hdc
    cases hd
    exact ⟨ls,hdc ▸ hc,.rfl,by simp [hdc,AList.mem_erase]⟩
  · rename_i hdc
    exact ⟨ls',hd,.rfl,by simp [hdc]⟩

end Dequeue

section Value

/-- Writing one lock edits one key. -/
theorem setValue_edit (f : FSM) (k : Str) (lk : Lock) : KeyEdit k f (f.setLock k lk) where
  locks hk := AList.lookup_insert_ne hk
  leases _ := KeyedMap.rel_refl (.refl k) _
  seq := Nat.le_refl _
  revision := rfl
  notifier := rfl

/-- Another value keeps the invariant. -/
theorem setValue_inv (h : Inv f) (hk : f.locks.lookup k = some lk) :
    Inv (f.setLock k { lk with value := v }) := by
  have ho := h.locks hk
  have hl : (f.setLock k { lk with value := v }).locks.lookup k = some { lk with value := v } :=
    AList.lookup_insert _
  apply h.update (setValue_edit f k _) (fun _ => id)
  · intro lk' hlk
    cases hl.symm.trans hlk
    exact ⟨⟨ho.named,ho.distinct,ho.leased,ho.ordered,ho.bounded,ho.fresh⟩,fun n hn _ => ⟨lk,hk,hn⟩⟩
  · intro d ls' _ hd
    rw [h.held id (show f.leases.lookup d = some ls' from hd),hk,hl]
    simp
  · intro d ls' _ hd
    rw [h.waiting id (show f.leases.lookup d = some ls' from hd),hk,hl]
    simp

end Value

section LeaseRecord

private theorem not_in_line (h : Inv f) (hc : f.leases.lookup c = none) {lk : Lock} (hk : f.locks.lookup k = some lk) :
    c ∉ lk.line := by
  intro hm
  obtain ⟨ls,hl⟩ := h.lease_of_mem hk hm
  cases hc.symm.trans hl

private theorem index_or_empty (h : Inv f) (c k : Str) :
    (k ∈ ((f.leases.lookup c).getD { clientID := c }).held ↔ ∃ lk, f.locks.lookup k = some lk ∧ lk.holder = c) ∧
    (k ∈ ((f.leases.lookup c).getD { clientID := c }).waiting ↔
      ∃ lk, f.locks.lookup k = some lk ∧ c ∈ lk.queue.map Waiter.clientID) := by
  cases hc : f.leases.lookup c with
  | some ls => exact ⟨h.held id hc,h.waiting id hc⟩
  | none =>
    refine ⟨iff_of_false (AList.notMem_empty k) ?_,iff_of_false (AList.notMem_empty k) ?_⟩
    · rintro ⟨lk,hk,rfl⟩
      exact not_in_line h hc hk List.mem_cons_self
    · rintro ⟨lk,hk,hm⟩
      exact not_in_line h hc hk (List.mem_cons_of_mem _ hm)

/-- A lease is written with new times and the indexes it had. -/
theorem setLease_inv (h : Inv f) (hn : c ≠ []) {ls' : Lease} (ho : ls'.clientID = c)
    (hi : ls'.held = ((f.leases.lookup c).getD { clientID := c }).held ∧
      ls'.waiting = ((f.leases.lookup c).getD { clientID := c }).waiting) : Inv (f.setLease c ls') := by
  have hl : ∀ d, (f.setLease c ls').leases.lookup d = if d = c then some ls' else f.leases.lookup d :=
    fun d => KeyedMap.lookup_insert_eq _ _ _ _
  refine ⟨?_,?_,?_,?_,h.apart⟩
  · intro k lk hk
    have ok := h.locks hk
    refine ⟨ok.named,ok.distinct,fun hd => ?_,ok.ordered,ok.bounded,ok.fresh⟩
    exact (AList.mem_insert _).mpr (.inr (ok.leased hd))
  · intro d ls hd
    rw [hl] at hd
    split at hd
    · rename_i hdc
      cases hd
      exact ⟨ho.trans hdc.symm,hdc ▸ hn⟩
    · exact h.owned hd
  · intro d ls k _ hd
    rw [hl] at hd
    split at hd
    · rename_i hdc
      cases hd
      subst hdc
      rw [hi.1]
      exact (index_or_empty h d k).1
    · exact h.held id hd
  · intro d ls k _ hd
    rw [hl] at hd
    split at hd
    · rename_i hdc
      cases hd
      subst hdc
      rw [hi.2]
      exact (index_or_empty h d k).2
    · exact h.waiting id hd

/-- A lease whose client stands in no line can be deleted, whatever its indexes say. -/
theorem retire_inv (h : InvBut (fun d _ => d = c) f)
    (hn : ∀ {k lk}, f.locks.lookup k = some lk → c ∉ lk.line) :
    Inv { f with leases := f.leases.erase c } := by
  have hl : ∀ d, (f.leases.erase c).lookup d = if d = c then none else f.leases.lookup d :=
    fun d => KeyedMap.lookup_erase_eq _ _ _
  have hback : ∀ {d ls}, (f.leases.erase c).lookup d = some ls → d ≠ c ∧ f.leases.lookup d = some ls := by
    intro d ls hd
    rw [hl] at hd
    split at hd
    · cases hd
    · exact ⟨‹_›,hd⟩
  refine ⟨?_,fun hd => h.owned (hback hd).2,fun _ hd => h.held (hback hd).1 (hback hd).2,
    fun _ hd => h.waiting (hback hd).1 (hback hd).2,h.apart⟩
  intro k lk hk
  have ok := h.locks hk
  refine ⟨ok.named,ok.distinct,fun {d} hd => ?_,ok.ordered,ok.bounded,ok.fresh⟩
  refine AList.mem_erase.mpr ⟨?_,ok.leased hd⟩
  rintro rfl
  exact hn hk hd

end LeaseRecord
end Zuul.Fsm
