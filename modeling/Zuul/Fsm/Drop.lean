import Zuul.Fsm.Edits

/-! A lease drop: the held loop, the waiting loop, and what they leave of every line. -/
namespace Zuul.Fsm
open Lib
variable {exempt : Str → Str → Prop} {f g : FSM} {k c : Str} {lk : Lock} {ls : Lease}

/-- The index clauses of the client being dropped are waived. -/
abbrev Dropping (c : Str) : Str → Str → Prop := fun d _ => d = c

/-- A lease that kept its owner, duration and deadline. -/
def Lease.SameTimes (a b : Lease) : Prop := b.clientID = a.clientID ∧ b.ttlMS = a.ttlMS ∧ b.expireAt = a.expireAt

/-- The frame of a loop round: nothing but locks, indexes and the counter moved. -/
structure LoopFrame (f g : FSM) : Prop where
  leases : ∀ d, Option.Rel Lease.SameTimes (f.leases.lookup d) (g.leases.lookup d)
  seq : f.seq ≤ g.seq
  revision : g.revision = f.revision
  notifier : g.notifier = f.notifier

namespace LoopFrame

private theorem refl (f : FSM) : LoopFrame f f where
  leases _ := KeyedMap.rel_refl (fun _ => ⟨rfl,rfl,rfl⟩) _
  seq := Nat.le_refl _
  revision := rfl
  notifier := rfl

private theorem trans {e : FSM} (h : LoopFrame e f) (j : LoopFrame f g) : LoopFrame e g where
  leases d := KeyedMap.rel_trans (h.leases d) (j.leases d)
    (fun _ _ _ hl jl => ⟨jl.1.trans hl.1,jl.2.1.trans hl.2.1,jl.2.2.trans hl.2.2⟩)
  seq := h.seq.trans j.seq
  revision := j.revision.trans h.revision
  notifier := j.notifier.trans h.notifier

private theorem of_edit (h : KeyEdit k f g) : LoopFrame f g where
  leases d := KeyedMap.rel_mono (h.leases d) (fun _ _ he => ⟨he.clientID,he.ttlMS,he.expireAt⟩)
  seq := h.seq
  revision := h.revision
  notifier := h.notifier

end LoopFrame

private theorem announce_congr (hl : g.locks.lookup k = f.locks.lookup k) (hr : g.revision = f.revision)
    (hn : g.notifier = f.notifier) : g.announce k = f.announce k := by
  simp only [FSM.announce,FSM.emit,hl,hr,hn]

/-- After the held loop over some keys of the client: each of them was handed
over under a fresh token, and the other keys and the lease are untouched. -/
structure HeldLoop (c : Str) (names : List Str) (f : FSM) (out : FSM × List Event) : Prop where
  inv : InvBut (Dropping c) out.1
  frame : LoopFrame f out.1
  lease : out.1.leases.lookup c = f.leases.lookup c
  other : ∀ {k}, k ∉ names → out.1.locks.lookup k = f.locks.lookup k
  taken : ∀ {k lk}, k ∈ names → f.locks.lookup k = some lk →
    ∃ n, f.seq < n ∧ (lk.queue ≠ [] → n ≤ out.1.seq) ∧ out.1.locks.lookup k = lk.next n

private theorem dropHeld_eq {evs : List Event} (hk : f.locks.lookup k = some lk) (hc : lk.holder = c) :
    FSM.dropHeld c (f,evs) k = ((f.promote k lk).1,evs ++ (f.promote k lk).2) := by
  simp only [FSM.dropHeld,hk,hc,ne_eq,not_true_eq_false,if_false]

private theorem promote_dropping (h : InvBut (Dropping c) f) (hk : f.locks.lookup k = some lk)
    (hc : lk.holder = c) : InvBut (Dropping c) (f.promote k lk).1 :=
  promote_inv h hk (fun _ => id) (fun _ => id) (.inl hc)

private theorem promote_lease (h : InvBut (Dropping c) f) (hk : f.locks.lookup k = some lk)
    (hc : lk.holder = c) : (f.promote k lk).1.leases.lookup c = f.leases.lookup c := by
  -- the client itself is not in the queue, so its lease record stays as it is
  rcases promote_shape h hk with ⟨_,he⟩ | ⟨w,queue,ls,hq,_,he⟩
  · rw [he]
  · rw [he,setBoth_lease,if_neg]
    rintro rfl
    apply h.holder_not_queued hk
    rw [hc,hq]
    exact List.mem_cons_self

/-- The loop over the held keys, by induction on the keys still to come: each
round promotes on one key and the later rounds do not touch it again. -/
theorem heldLoop (names : List Str) (h : InvBut (Dropping c) f) (hn : names.Nodup)
    (hh : ∀ k ∈ names, ∃ lk, f.locks.lookup k = some lk ∧ lk.holder = c) (evs : List Event) :
    HeldLoop c names f (names.foldl (FSM.dropHeld c) (f,evs)) ∧
    (names.foldl (FSM.dropHeld c) (f,evs)).2 =
      evs ++ names.flatMap (names.foldl (FSM.dropHeld c) (f,evs)).1.announce := by
  induction names generalizing f evs with
  | nil =>
    refine ⟨⟨h,.refl f,rfl,fun _ => rfl,fun hk => ?_⟩,?_⟩
    · cases hk
    · simp
  | cons k names ih =>
    obtain ⟨hkn,hn⟩ := List.nodup_cons.mp hn
    obtain ⟨lk,hk,hc⟩ := hh k List.mem_cons_self
    have he := promote_edit h hk
    have hl := promote_lock h hk
    have hne : ∀ {a}, a ∈ names → a ≠ k := by rintro a ha rfl; exact hkn ha
    rw [List.foldl_cons,dropHeld_eq hk hc]
    obtain ⟨hr,hev⟩ := ih (promote_dropping h hk hc) hn (fun a ha => by
      obtain ⟨la,hla,hca⟩ := hh a (List.mem_cons_of_mem _ ha)
      exact ⟨la,(he.locks (hne ha)).trans hla,hca⟩) (evs ++ (f.promote k lk).2)
    generalize names.foldl (FSM.dropHeld c) ((f.promote k lk).1,evs ++ (f.promote k lk).2) = out at hr hev
    refine ⟨⟨hr.inv,(LoopFrame.of_edit he).trans hr.frame,hr.lease.trans (promote_lease h hk hc),?_,?_⟩,?_⟩
    · intro a ha
      rw [List.mem_cons,not_or] at ha
      exact (hr.other ha.2).trans (he.locks ha.1)
    · intro a la ha hla
      rcases List.mem_cons.mp ha with rfl | ha
      · cases hk.symm.trans hla
        refine ⟨f.seq + 1,Nat.lt_succ_self _,fun hq => ?_,(hr.other hkn).trans hl⟩
        have hs := promote_seq h hk
        rw [if_neg hq] at hs
        exact hs ▸ hr.frame.seq
      · obtain ⟨n,h1,h2,h3⟩ := hr.taken ha ((he.locks (hne ha)).trans hla)
        exact ⟨n,he.seq.trans_lt h1,h2,h3⟩
    · rw [hev,promote_events h hk,List.flatMap_cons,List.append_assoc]
      congr 2
      exact (announce_congr (hr.other hkn) hr.frame.revision hr.frame.notifier).symm

/-- After the waiting loop over some keys: the client left exactly their queues. -/
structure WaitingLoop (c : Str) (names : List Str) (f g : FSM) : Prop where
  inv : InvBut (Dropping c) g
  leases : g.leases = f.leases
  seq : g.seq = f.seq
  revision : g.revision = f.revision
  notifier : g.notifier = f.notifier
  other : ∀ {k}, k ∉ names → g.locks.lookup k = f.locks.lookup k
  left : ∀ {k}, k ∈ names → g.locks.lookup k = (f.locks.lookup k).map (·.dequeue c)

private theorem dropWaiting_round (h : InvBut (Dropping c) f) (k : Str) :
    WaitingLoop c [k] f (f.dropWaiting c k) := by
  cases hk : f.locks.lookup k with
  | none =>
    have he : f.dropWaiting c k = f := by simp only [FSM.dropWaiting,hk]
    rw [he]
    refine ⟨h,rfl,rfl,rfl,rfl,fun _ => rfl,fun ha => ?_⟩
    cases List.mem_singleton.mp ha
    rw [hk]
    rfl
  | some lk =>
    have he : f.dropWaiting c k = f.setLock k (lk.dequeue c) := by simp only [FSM.dropWaiting,hk]
    have hl : (f.setLock k (lk.dequeue c)).locks.lookup k = some (lk.dequeue c) := AList.lookup_insert _
    rw [he]
    refine ⟨?_,rfl,rfl,rfl,rfl,fun ha => ?_,fun ha => ?_⟩
    · refine dequeue_inv h hk (setValue_edit f k _) hl rfl ?_
      intro d ls' hx hd
      exact ⟨ls',hd,.rfl,⟨fun hm => ⟨hx,hm⟩,fun hm => hm.2⟩⟩
    · exact AList.lookup_insert_ne (fun hak => ha (List.mem_singleton.mpr hak))
    · cases List.mem_singleton.mp ha
      rw [hl,hk]
      rfl

private theorem waitingLoop (names : List Str) (h : InvBut (Dropping c) f) (hn : names.Nodup) :
    WaitingLoop c names f (names.foldl (FSM.dropWaiting c) f) := by
  induction names generalizing f with
  | nil => exact ⟨h,rfl,rfl,rfl,rfl,fun _ => rfl,fun ha => by cases ha⟩
  | cons k names ih =>
    obtain ⟨hkn,hn⟩ := List.nodup_cons.mp hn
    have hr := dropWaiting_round h k
    have hi := ih hr.inv hn
    rw [List.foldl_cons]
    refine ⟨hi.inv,hi.leases.trans hr.leases,hi.seq.trans hr.seq,hi.revision.trans hr.revision,
      hi.notifier.trans hr.notifier,?_,?_⟩
    · intro a ha
      rw [List.mem_cons,not_or] at ha
      exact (hi.other ha.2).trans (hr.other (fun hk => ha.1 (List.mem_singleton.mp hk)))
    · intro a ha
      rcases List.mem_cons.mp ha with rfl | ha
      · exact (hi.other hkn).trans (hr.left (List.mem_singleton.mpr rfl))
      · rw [hi.left ha,hr.other (fun hk => hkn (List.mem_singleton.mp hk ▸ ha))]

/-- Everything a lease drop does, key by key. -/
structure Dropped (c : Str) (ls : Lease) (f : FSM) (out : FSM × List Event) : Prop where
  inv : Inv out.1
  gone : out.1.leases.lookup c = none
  times : ∀ {d}, d ≠ c → Option.Rel Lease.SameTimes (f.leases.lookup d) (out.1.leases.lookup d)
  absent : ∀ {k}, f.locks.lookup k = none → out.1.locks.lookup k = none
  taken : ∀ {k lk}, f.locks.lookup k = some lk → lk.holder = c →
    ∃ n, f.seq < n ∧ (lk.queue ≠ [] → n ≤ out.1.seq) ∧ out.1.locks.lookup k = lk.next n
  left : ∀ {k lk}, f.locks.lookup k = some lk → lk.holder ≠ c → out.1.locks.lookup k = some (lk.dequeue c)
  seq : f.seq ≤ out.1.seq
  revision : out.1.revision = f.revision
  notifier : out.1.notifier = f.notifier
  events : out.2 = (sortedSet ls.held).flatMap out.1.announce

/-- Taking out a client that does not wait changes nothing. -/
theorem dequeue_of_not_mem (hn : c ∉ lk.queue.map Waiter.clientID) : lk.dequeue c = lk := by
  have he : lk.queue.eraseP (fun w => w.clientID == c) = lk.queue := by
    apply List.eraseP_of_forall_not
    intro w hw hb
    exact hn (List.mem_map.mpr ⟨w,hw,beq_iff_eq.mp hb⟩)
  rw [Lock.dequeue,he]

private theorem mem_sortedHeld (h : Inv f) (hc : f.leases.lookup c = some ls) :
    k ∈ sortedSet ls.held ↔ ∃ lk, f.locks.lookup k = some lk ∧ lk.holder = c := by
  rw [sortedSet,KeyedMap.mem_sortedKeys]
  exact h.held id hc

private theorem mem_sortedWaiting (h : Inv f) (hc : f.leases.lookup c = some ls) :
    k ∈ sortedSet ls.waiting ↔ ∃ lk, f.locks.lookup k = some lk ∧ c ∈ lk.queue.map Waiter.clientID := by
  rw [sortedSet,KeyedMap.mem_sortedKeys]
  exact h.waiting id hc

private theorem held_not_waiting (h : Inv f) (hc : f.leases.lookup c = some ls) (hk : k ∈ sortedSet ls.held) :
    k ∉ sortedSet ls.waiting := by
  -- no key is in both loops: its holder does not wait for it
  rw [mem_sortedWaiting h hc]
  rintro ⟨lk,hlk,hm⟩
  obtain ⟨lk',hlk',rfl⟩ := (mem_sortedHeld h hc).mp hk
  cases hlk.symm.trans hlk'
  exact h.holder_not_queued hlk hm

private theorem out_of_line (h : Inv f) (habsent : ∀ {k}, f.locks.lookup k = none → g.locks.lookup k = none)
    (htaken : ∀ {k lk}, f.locks.lookup k = some lk → lk.holder = c → ∃ n, g.locks.lookup k = lk.next n)
    (hleft : ∀ {k lk}, f.locks.lookup k = some lk → lk.holder ≠ c → g.locks.lookup k = some (lk.dequeue c))
    {lk' : Lock} (hk' : g.locks.lookup k = some lk') : c ∉ lk'.line := by
  cases hk : f.locks.lookup k with
  | none => cases (habsent hk).symm.trans hk'
  | some lk =>
    by_cases hh : lk.holder = c
    · obtain ⟨n,hn⟩ := htaken hk hh
      rw [line_of_next (hn.symm.trans hk'),← hh]
      exact h.holder_not_queued hk
    · cases (hleft hk hh).symm.trans hk'
      intro hm
      rcases List.mem_cons.mp hm with hm | hm
      · exact hh hm.symm
      · exact ((mem_dequeue_clients h hk c).mp hm).1 rfl

/-- What is left when a lease is dropped, with all its holds and waits. -/
theorem dropLease_spec (h : Inv f) (hc : f.leases.lookup c = some ls) : Dropped c ls f (f.dropLease c ls) := by
  have hid := (h.owned hc).1
  have hheld : ∀ {k}, k ∈ sortedSet ls.held ↔ _ := fun {k} => mem_sortedHeld (k := k) h hc
  have hwait : ∀ {k}, k ∈ sortedSet ls.waiting ↔ _ := fun {k} => mem_sortedWaiting (k := k) h hc
  have hd : InvBut (Dropping c) f := h.weaken (fun _ _ hx => hx.elim)
  obtain ⟨h1,hev⟩ := heldLoop (sortedSet ls.held) hd (KeyedMap.sortedKeys_nodup _) (fun _ => hheld.mp) []
  rw [FSM.dropLease,hid]
  generalize (sortedSet ls.held).foldl (FSM.dropHeld c) (f,[]) = mid at h1 hev
  have hmid : (mid.1.leases.lookup c).getD ls = ls := by rw [h1.lease,hc]; rfl
  simp only [hmid,hid]
  have h2 := waitingLoop (sortedSet ls.waiting) h1.inv (KeyedMap.sortedKeys_nodup _)
  generalize (sortedSet ls.waiting).foldl (FSM.dropWaiting c) mid.1 = g at h2
  have hrev : g.revision = f.revision := h2.revision.trans h1.frame.revision
  have hnot : g.notifier = f.notifier := h2.notifier.trans h1.frame.notifier
  have hleft : ∀ {k lk}, f.locks.lookup k = some lk → lk.holder ≠ c → g.locks.lookup k = some (lk.dequeue c) := by
    intro k lk hk hne
    have hnh : k ∉ sortedSet ls.held := by
      rw [hheld]
      rintro ⟨lk',hk',hh⟩
      cases hk.symm.trans hk'
      exact hne hh
    by_cases hw : k ∈ sortedSet ls.waiting
    · rw [h2.left hw,h1.other hnh,hk]
      rfl
    · rw [h2.other hw,h1.other hnh,hk,dequeue_of_not_mem]
      exact fun hm => hw (hwait.mpr ⟨lk,hk,hm⟩)
  have htaken : ∀ {k lk}, f.locks.lookup k = some lk → lk.holder = c →
      ∃ n, f.seq < n ∧ (lk.queue ≠ [] → n ≤ g.seq) ∧ g.locks.lookup k = lk.next n := by
    intro k lk hk hh
    have hmem := hheld.mpr ⟨lk,hk,hh⟩
    obtain ⟨n,h3,h4,h5⟩ := h1.taken hmem hk
    refine ⟨n,h3,fun hq => h2.seq ▸ h4 hq,?_⟩
    rw [h2.other (held_not_waiting h hc hmem),h5]
  have habsent : ∀ {k}, f.locks.lookup k = none → g.locks.lookup k = none := by
    intro k hk
    rw [h2.other,h1.other,hk]
    · rw [hheld]; rintro ⟨lk,hk',_⟩; cases hk.symm.trans hk'
    · rw [hwait]; rintro ⟨lk,hk',_⟩; cases hk.symm.trans hk'
  have hout : ∀ {k lk}, g.locks.lookup k = some lk → c ∉ lk.line :=
    out_of_line h habsent (fun hk hh => (htaken hk hh).imp (fun _ hn => hn.2.2)) hleft
  refine ⟨retire_inv h2.inv hout,AList.lookup_erase _ _,?_,habsent,htaken,hleft,?_,hrev,hnot,?_⟩
  · intro d hdc
    change Option.Rel _ _ ((g.leases.erase c).lookup d)
    rw [AList.lookup_erase_ne hdc,h2.leases]
    exact h1.frame.leases d
  · exact h1.frame.seq.trans h2.seq.ge
  · rw [hev,List.nil_append]
    apply List.flatMap_congr
    intro k hk
    exact (announce_congr (h2.other (held_not_waiting h hc hk)) h2.revision h2.notifier).symm

end Zuul.Fsm
