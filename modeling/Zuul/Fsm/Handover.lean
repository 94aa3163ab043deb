import Zuul.Fsm.Moves

/-! Promotion: a key that its holder gave up goes to the first waiter or vanishes. -/
namespace Zuul.Fsm
open Lib
variable {exempt exempt' : Str → Str → Prop} {f : FSM} {k c : Str} {lk : Lock} {ls : Lease}

/-- The record after the waiter at the head took over. -/
def Lock.promoted (lk : Lock) (w : Waiter) (n : Nat) (queue : List Waiter) : Lock :=
  { lk with holder := w.clientID, token := n, value := w.value, queue := queue }

/-- What becomes of a lock its holder gave up, the next number being n. -/
def Lock.next (lk : Lock) (n : Nat) : Option Lock :=
  match lk.queue with
  | [] => none
  | w :: queue => some (lk.promoted w n queue)

/-- The tail of the line moves up. -/
theorem next_line (lk : Lock) (n : Nat) : ((lk.next n).map Lock.line).getD [] = lk.queue.map Waiter.clientID := by
  cases hq : lk.queue with
  | nil => simp [Lock.next,hq]
  | cons w queue => simp [Lock.next,hq,Lock.promoted,Lock.line]

/-- When the first in the queue takes over, the line moves up by one. -/
theorem line_of_next {lk' : Lock} {n : Nat} (hn : lk.next n = some lk') :
    lk'.line = lk.queue.map Waiter.clientID := by
  rw [← next_line lk n,hn]
  rfl

/-- Whoever takes over was waiting. -/
theorem next_holder_mem {lk' : Lock} {n : Nat} (hn : lk.next n = some lk') :
    lk'.holder ∈ lk.queue.map Waiter.clientID := line_of_next hn ▸ List.mem_cons_self

private theorem next_holds (n : Nat) {d : Str} :
    (∃ lk', lk.next n = some lk' ∧ lk'.holder = d) ↔ lk.queue.head?.map Waiter.clientID = some d := by
  cases hq : lk.queue with
  | nil => simp [Lock.next,hq]
  | cons w queue => simp [Lock.next,hq,Lock.promoted]

private theorem next_waits (n : Nat) (hd : (lk.queue.map Waiter.clientID).Nodup) {d : Str} :
    (∃ lk', lk.next n = some lk' ∧ d ∈ lk'.queue.map Waiter.clientID) ↔
      lk.queue.head?.map Waiter.clientID ≠ some d ∧ d ∈ lk.queue.map Waiter.clientID := by
  cases hq : lk.queue with
  | nil => simp [Lock.next,hq]
  | cons w queue =>
    rw [hq,List.map_cons,List.nodup_cons] at hd
    simp only [Lock.next,hq,Lock.promoted,Option.some.injEq,exists_eq_left',List.head?_cons,Option.map_some,ne_eq,
      List.map_cons,List.mem_cons]
    constructor
    · intro hm
      refine ⟨?_,.inr hm⟩
      rintro rfl
      exact hd.1 hm
    · rintro ⟨hw,rfl | hm⟩
      · exact absurd rfl hw
      · exact hm

/-- The event that reports a key as it now stands. -/
def FSM.announce (f : FSM) (k : Str) : List Event :=
  match f.locks.lookup k with
  | none => f.emit k [] 0 none
  | some lk => f.emit k lk.holder lk.token lk.value

private theorem promote_nil (f : FSM) (hq : lk.queue = []) :
    f.promote k lk = ({ f with locks := f.locks.erase lk.name }, f.emit lk.name [] 0 none) := by
  rw [FSM.promote,hq]
  rfl

private theorem promote_cons {w : Waiter} {queue : List Waiter} (hq : lk.queue = w :: queue)
    (hw : f.leases.lookup w.clientID = some ls) :
    f.promote k lk = (({ f with seq := f.seq + 1 }.setLock k (lk.promoted w (f.seq + 1) queue)).setLease w.clientID
      { ls with waiting := ls.waiting.erase lk.name, held := ls.held.insert lk.name () },
      f.emit lk.name w.clientID (f.seq + 1) w.value) := by
  rw [FSM.promote,hq,FSM.promoteFrom,hw]
  rfl

/-- In a sound state promotion never skips: the head of the queue has a lease. -/
theorem promote_shape (h : InvBut exempt f) (hk : f.locks.lookup k = some lk) :
    (lk.queue = [] ∧ f.promote k lk = ({ f with locks := f.locks.erase k }, f.emit k [] 0 none)) ∨
    ∃ w queue ls, lk.queue = w :: queue ∧ f.leases.lookup w.clientID = some ls ∧
      f.promote k lk = (({ f with seq := f.seq + 1 }.setLock k (lk.promoted w (f.seq + 1) queue)).setLease w.clientID
        { ls with waiting := ls.waiting.erase k, held := ls.held.insert k () },
        f.emit k w.clientID (f.seq + 1) w.value) := by
  have hn := (h.locks hk).named
  cases hq : lk.queue with
  | nil =>
    refine .inl ⟨rfl,?_⟩
    rw [promote_nil f hq,hn]
  | cons w queue =>
    obtain ⟨ls,hw⟩ := h.waiter_lease hk (w := w) (by rw [hq]; exact List.mem_cons_self)
    refine .inr ⟨w,queue,ls,rfl,hw,?_⟩
    rw [promote_cons hq hw,hn]

/-- A promotion edits one key. -/
theorem promote_edit (h : InvBut exempt f) (hk : f.locks.lookup k = some lk) :
    KeyEdit k f (f.promote k lk).1 := by
  rcases promote_shape h hk with ⟨_,he⟩ | ⟨w,queue,ls,_,hw,he⟩
  · rw [he]
    exact ⟨fun hne => AList.lookup_erase_ne hne,fun _ => KeyedMap.rel_refl (.refl k) _,Nat.le_refl _,rfl,rfl⟩
  · have hle : LeaseEdit k ls { ls with waiting := ls.waiting.erase k, held := ls.held.insert k () } :=
      ⟨rfl,rfl,rfl,mem_insert_other,mem_erase_other⟩
    rw [he]
    exact setBoth_edit hw hle (Nat.le_succ _) _

/-- The key goes to the first in the queue under a new token, or becomes free. -/
theorem promote_lock (h : InvBut exempt f) (hk : f.locks.lookup k = some lk) :
    (f.promote k lk).1.locks.lookup k = lk.next (f.seq + 1) := by
  rcases promote_shape h hk with ⟨hq,he⟩ | ⟨w,queue,ls,hq,_,he⟩
  · rw [he,Lock.next,hq]
    exact AList.lookup_erase k f.locks
  · rw [he,setBoth_lock,if_pos rfl,Lock.next,hq]

/-- A promotion announces what became of the key. -/
theorem promote_events (h : InvBut exempt f) (hk : f.locks.lookup k = some lk) :
    (f.promote k lk).2 = (f.promote k lk).1.announce k := by
  have hl := promote_lock h hk
  rcases promote_shape h hk with ⟨hq,he⟩ | ⟨w,queue,ls,hq,_,he⟩
  · rw [Lock.next,hq] at hl
    rw [FSM.announce,hl,he]
    rfl
  · rw [Lock.next,hq] at hl
    rw [FSM.announce,hl,he]
    rfl

/-- A promotion only raises the counter to the token it hands out. -/
theorem promote_seq (h : InvBut exempt f) (hk : f.locks.lookup k = some lk) :
    (f.promote k lk).1.seq = if lk.queue = [] then f.seq else f.seq + 1 := by
  rcases promote_shape h hk with ⟨hq,he⟩ | ⟨w,queue,ls,hq,_,he⟩
  · rw [he,if_pos hq]
  · rw [he,hq]
    rfl

/-- Index entries of the key after a promotion: the new holder moves over. -/
theorem promote_index (h : InvBut exempt f) (hk : f.locks.lookup k = some lk) {d : Str} {ls' : Lease}
    (hd : (f.promote k lk).1.leases.lookup d = some ls') : ∃ old, f.leases.lookup d = some old ∧
      (k ∈ ls'.held ↔ lk.queue.head?.map Waiter.clientID = some d ∨ k ∈ old.held) ∧
      (k ∈ ls'.waiting ↔ lk.queue.head?.map Waiter.clientID ≠ some d ∧ k ∈ old.waiting) := by
  rcases promote_shape h hk with ⟨hq,he⟩ | ⟨w,queue,ls,hq,hw,he⟩
  · rw [he] at hd
    exact ⟨ls',hd,by simp [hq],by simp [hq]⟩
  · rw [he,setBoth_lease] at hd
    split at hd
    · rename_i hdw
      cases hd
      refine ⟨ls,hdw ▸ hw,?_,?_⟩ <;> simp [hq,hdw,AList.mem_insert,AList.mem_erase]
    · rename_i hdw
      exact ⟨ls',hd,by simp [hq,Ne.symm hdw],by simp [hq,Ne.symm hdw]⟩

private theorem promoted_ok (h : InvBut exempt f) (hk : f.locks.lookup k = some lk) {w : Waiter}
    {queue : List Waiter} (hq : lk.queue = w :: queue) {g : FSM} (hg : ∀ d, d ∈ g.leases ↔ d ∈ f.leases)
    (hs : g.seq = f.seq + 1) : (lk.promoted w (f.seq + 1) queue).Ok g k := by
  have ho := h.locks hk
  have hline : lk.line = lk.holder :: (lk.promoted w (f.seq + 1) queue).line := by
    simp [Lock.line,Lock.promoted,hq]
  have hstamps : lk.stamps = lk.token :: w.seq :: queue.map Waiter.seq := by simp [Lock.stamps,hq]
  refine ⟨ho.named,?_,?_,?_,?_,?_⟩
  · exact (List.nodup_cons.mp (hline ▸ ho.distinct)).2
  · intro d hd
    rw [hg]
    exact ho.leased (hline ▸ List.mem_cons_of_mem _ hd)
  · have hord := ho.ordered
    rw [hq,List.map_cons] at hord
    exact (List.pairwise_cons.mp hord).2
  · intro n hn
    rw [hs]
    rcases List.mem_cons.mp hn with rfl | hn
    · exact ⟨Nat.succ_pos _,Nat.le_refl _⟩
    · have := ho.bounded (n := n) (by rw [hstamps]; exact List.mem_cons_of_mem _ (List.mem_cons_of_mem _ hn))
      omega
  · have hf := ho.fresh
    rw [hstamps] at hf
    refine List.nodup_cons.mpr ⟨?_,(List.nodup_cons.mp (List.nodup_cons.mp hf).2).2⟩
    intro hn
    have := (ho.bounded (n := f.seq + 1) (by rw [hstamps]; exact List.mem_cons_of_mem _ (List.mem_cons_of_mem _ hn))).2
    omega

private theorem vacated_index (h : InvBut exempt f) (hk : f.locks.lookup k = some lk)
    (hd : ∀ {d}, d ≠ lk.holder → exempt d k → exempt' d k)
    (hc : exempt' lk.holder k ∨ ∀ ls, f.leases.lookup lk.holder = some ls → k ∉ ls.held ∧ k ∉ ls.waiting) {d : Str}
    (hx : ¬ exempt' d k) (hl : f.leases.lookup d = some ls) :
    k ∉ ls.held ∧ (k ∈ ls.waiting ↔ d ∈ lk.queue.map Waiter.clientID) := by
  -- once the leaving holder is accounted for, nobody has the key in the held index
  by_cases hdc : d = lk.holder
  · subst hdc
    obtain ⟨hheld,hwait⟩ := hc.resolve_left hx ls hl
    exact ⟨hheld,iff_of_false hwait (h.holder_not_queued hk)⟩
  · have hx' : ¬ exempt d k := fun he => hx (hd hdc he)
    rw [h.held hx' hl,h.waiting hx' hl,hk]
    refine ⟨?_,by simp⟩
    rintro ⟨_,he,hh⟩
    cases he
    exact hdc hh.symm

private theorem next_stamps {lk' : Lock} {n m : Nat} (hn : lk.next n = some lk') (hm : m ∈ lk'.stamps) (hlt : m < n) :
    m ∈ lk.stamps := by
  cases hq : lk.queue with
  | nil =>
    rw [Lock.next,hq] at hn
    cases hn
  | cons w queue =>
    rw [Lock.next,hq] at hn
    cases hn
    rcases List.mem_cons.mp hm with rfl | hm
    · exact absurd hlt (Nat.lt_irrefl _)
    · rw [Lock.stamps,hq]
      exact List.mem_cons_of_mem _ (List.mem_cons_of_mem _ hm)

/-- Promotion keeps the invariant. The index entry of the leaving holder is
either waived afterwards or was cleared before. -/
theorem promote_inv (h : InvBut exempt f) (hk : f.locks.lookup k = some lk)
    (ho : ∀ {d k'}, k' ≠ k → exempt d k' → exempt' d k')
    (hd : ∀ {d}, d ≠ lk.holder → exempt d k → exempt' d k)
    (hc : exempt' lk.holder k ∨ ∀ ls, f.leases.lookup lk.holder = some ls → k ∉ ls.held ∧ k ∉ ls.waiting) :
    InvBut exempt' (f.promote k lk).1 := by
  have he := promote_edit h hk
  have hl := promote_lock h hk
  apply h.update he ho
  · intro lk' hlk
    rw [hl] at hlk
    refine ⟨?_,fun n hn hle => ⟨lk,hk,next_stamps hlk hn (Nat.lt_succ_of_le hle)⟩⟩
    rcases promote_shape h hk with ⟨hq,_⟩ | ⟨w,queue,ls,hq,_,hp⟩
    · rw [Lock.next,hq] at hlk
      cases hlk
    · rw [Lock.next,hq] at hlk
      cases hlk
      exact promoted_ok h hk hq he.mem_leases (by rw [hp]; rfl)
  · intro d ls' hx hd'
    obtain ⟨old,hf,hh,_⟩ := promote_index h hk hd'
    rw [hh,hl,next_holds]
    exact or_iff_left (vacated_index h hk hd hc hx hf).1
  · intro d ls' hx hd'
    obtain ⟨old,hf,_,hw⟩ := promote_index h hk hd'
    rw [hw,hl,next_waits _ (List.nodup_cons.mp (h.locks hk).distinct).2,(vacated_index h hk hd hc hx hf).2]

end Zuul.Fsm
