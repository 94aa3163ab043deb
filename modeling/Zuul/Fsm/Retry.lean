import Zuul.Fsm.Reachable

/-! A command that is applied twice in a row. The dispatcher proposes the same
bytes again when it cannot tell whether the first attempt was committed. -/
namespace Zuul.Fsm
open Lib
variable {f : FSM} {k c : Str} {lk : Lock} {ls : Lease} {v : Bytes} {t : Nat}

/-- The state already shows the effect of the command: applying it again only
counts the revision up. -/
def FSM.Settled (f : FSM) (cmd : Command) : Prop := (f.step cmd).fsm.Same f.bump

section Rewrites

/-- Writing back what is stored changes nothing. -/
theorem setLock_stored (hk : f.locks.lookup k = some lk) : (f.setLock k lk).Same f where
  locks a := by
    change (f.locks.insert k lk).lookup a = _
    rw [KeyedMap.lookup_insert_eq]
    split
    · rename_i ha
      rw [ha,hk]
    · rfl
  leases _ := KeyedMap.rel_refl .refl _
  seq := rfl
  revision := rfl
  notifier := rfl

private theorem setLease_stored (hc : f.leases.lookup c = some ls) : (f.setLease c ls).Same f where
  locks _ := rfl
  leases d := by
    change Option.Rel _ ((f.leases.insert c ls).lookup d) _
    rw [KeyedMap.lookup_insert_eq]
    split
    · rename_i hd
      rw [hd,hc]
      exact .some (.refl ls)
    · exact KeyedMap.rel_refl .refl _
  seq := rfl
  revision := rfl
  notifier := rfl

end Rewrites

section Locks

/-- The position of a client that joined the queue last. -/
theorem queuePos_enqueued (hq : c ∉ lk.queue.map Waiter.clientID) (n : Nat) :
    queuePos (lk.enqueued c n v) c = uint32 (lk.queue.length + 1) := by
  have hnone : lk.queue.findIdx? (fun w => w.clientID == c) = none := by
    rw [List.findIdx?_eq_none_iff]
    intro w hw
    exact beq_false_of_ne (fun he => hq (List.mem_map.mpr ⟨w,hw,he⟩))
  simp [queuePos,Lock.enqueued,List.findIdx?_append,hnone]

/-- Holder, waiter and bystander are answered alike the second time. -/
theorem acquire_twice (h : Inv f) (tryLock : Bool) :
    let once := f.acquire k c v tryLock
    once.fsm.bump.acquire k c v tryLock =
      ⟨once.fsm.bump,{ once.result with revision := once.fsm.bump.revision },[]⟩ := by
  have ht := acquire_cases h k c v tryLock
  generalize f.acquire k c v tryLock = once at ht
  cases ht with
  | noLease hc => exact acquire_noLease (f := f.bump) hc tryLock
  | @free _ ls hc hk =>
    have hl := grant_lock (v := v) h hk hc
    refine (acquire_holder (c := c) (v := v) (grant_inv h hk hc).bump hl rfl tryLock).trans ?_
    simp [FSM.grant,hk,FSM.resultKey,FSM.result,Lock.granted]
  | holder hc hk hh => exact acquire_holder h.bump hk hh tryLock
  | busy hc hk hh => exact acquire_try h.bump hc hk hh
  | again hc hk hh hq => exact acquire_again h.bump hk hq
  | @join lk ls hc hk hh hq =>
    have hl := enqueue_lock f k c lk ls v
    have hi := (enqueue_inv (v := v) h hk hc (not_mem_line hh hq)).bump
    have hm : c ∈ (lk.enqueued c (f.seq + 1) v).queue.map Waiter.clientID := by simp [Lock.enqueued]
    refine (acquire_again (v := v) hi hl hm).trans ?_
    simp [queuePos_enqueued hq,FSM.enqueue,FSM.resultKey,FSM.result]

/-- The head of the queue that took over is another client. -/
theorem release_twice (h : Inv f) (k c : Str) (t : Nat) :
    let once := f.release k c t
    (once.fsm.bump.release k c t).fsm = once.fsm.bump := by
  rcases holder_cases f k c with ⟨lk,hk,hh⟩ | hn
  · by_cases ht : lk.token = t
    · have hg : ∀ lk', (f.giveUp k lk).1.bump.locks.lookup k = some lk' → lk'.holder ≠ c := by
        intro lk' hl he
        have hm := next_holder_mem ((giveUp_lock h hk).symm.trans hl)
        rw [he,← hh] at hm
        exact h.holder_not_queued hk hm
      rw [release_holder h hk hh ht]
      exact congrArg Applied.fsm (release_other hg)
    · rw [release_stale h hk hh ht]
      exact congrArg Applied.fsm (release_stale h.bump hk hh ht)
  · rw [release_other hn]
    exact congrArg Applied.fsm (release_other (f := f.bump) hn)

private theorem cancelWait_twice (h : Inv f) (k c : Str) :
    let once := f.cancelWait k c
    (once.fsm.bump.cancelWait k c).fsm = once.fsm.bump := by
  by_cases hq : ∃ lk, f.locks.lookup k = some lk ∧ c ∈ lk.queue.map Waiter.clientID
  · obtain ⟨lk,hk,hq⟩ := hq
    obtain ⟨ls,hc⟩ := h.lease_of_mem hk (List.mem_cons_of_mem _ hq)
    have hg : ∀ lk', (f.cut k c lk).bump.locks.lookup k = some lk' → c ∉ lk'.queue.map Waiter.clientID := by
      intro lk' hl
      cases hl.symm.trans (cut_lock hc)
      rw [mem_dequeue_clients h hk]
      exact fun hx => hx.1 rfl
    rw [cancelWait_found hk hq]
    exact congrArg Applied.fsm (cancelWait_idle hg)
  · have hn : ∀ lk, f.locks.lookup k = some lk → c ∉ lk.queue.map Waiter.clientID := fun lk hk hm => hq ⟨lk,hk,hm⟩
    rw [cancelWait_idle hn]
    exact congrArg Applied.fsm (cancelWait_idle (f := f.bump) hn)

private theorem proclaim_twice (h : Inv f) (k c : Str) (t : Nat) (v : Bytes) :
    let once := f.proclaim k c t v
    (once.fsm.bump.proclaim k c t v).fsm.Same once.fsm.bump := by
  rcases holder_cases f k c with ⟨lk,hk,hh⟩ | hn
  · by_cases ht : lk.token = t
    · have hl : (f.setLock k { lk with value := v }).bump.locks.lookup k = some { lk with value := v } :=
        AList.lookup_insert _
      have hi : Inv (f.setLock k { lk with value := v }).bump := (setValue_inv h hk).bump
      rw [proclaim_holder h hk hh ht]
      simp only [proclaim_holder hi hl hh ht]
      exact setLock_stored hl
    · rw [proclaim_stale h hk hh ht]
      simp only [proclaim_stale h.bump hk hh ht]
      exact .refl _
  · rw [proclaim_other hn]
    simp only [proclaim_other (f := f.bump) hn]
    exact .refl _

end Locks

section Leases

private theorem leaseGrant_twice (f : FSM) (c : Str) (ttlMS now : Int64) :
    let once := f.leaseGrant c ttlMS now
    (once.fsm.bump.leaseGrant c ttlMS now).fsm.Same once.fsm.bump := by
  set ls := { (f.leases.lookup c).getD { clientID := c } with
    ttlMS := ttlMS, expireAt := leaseDeadline now ttlMS }
  have hc : (f.setLease c ls).bump.leases.lookup c = some ls := AList.lookup_insert _
  change ((f.setLease c ls).bump.leaseGrant c ttlMS now).fsm.Same (f.setLease c ls).bump
  simp only [FSM.leaseGrant,hc,Option.getD_some]
  exact setLease_stored hc

private theorem leaseKeepAlive_twice (f : FSM) (c : Str) (now : Int64) :
    let once := f.leaseKeepAlive c now
    (once.fsm.bump.leaseKeepAlive c now).fsm.Same once.fsm.bump := by
  cases hc : f.leases.lookup c with
  | none =>
    have hb : f.bump.leases.lookup c = none := hc
    simp only [FSM.leaseKeepAlive,hc,hb]
    exact .refl _
  | some ls =>
    have hc' : (f.setLease c { ls with expireAt := leaseDeadline now ls.ttlMS }).bump.leases.lookup c =
        some { ls with expireAt := leaseDeadline now ls.ttlMS } := AList.lookup_insert _
    simp only [FSM.leaseKeepAlive,hc,hc']
    exact setLease_stored hc'

/-- A dropped lease is not found any more. -/
theorem leaseRevoke_twice (h : Inv f) (c : Str) :
    let once := f.leaseRevoke c
    (once.fsm.bump.leaseRevoke c).fsm = once.fsm.bump := by
  cases hc : f.leases.lookup c with
  | none =>
    have hb : f.bump.leases.lookup c = none := hc
    simp only [FSM.leaseRevoke,hc,hb]
  | some ls =>
    have hg : (f.dropLease c ls).1.bump.leases.lookup c = none := (dropLease_spec h hc).gone
    simp only [FSM.leaseRevoke,hc,hg]

private theorem leaseExpire_twice (h : Inv f) (c : Str) (now : Int64) :
    let once := f.leaseExpire c now
    (once.fsm.bump.leaseExpire c now).fsm = once.fsm.bump := by
  cases hc : f.leases.lookup c with
  | none =>
    have hb : f.bump.leases.lookup c = none := hc
    simp only [FSM.leaseExpire,hc,hb]
  | some ls =>
    have hb : f.bump.leases.lookup c = some ls := hc
    have hg : (f.dropLease c ls).1.bump.leases.lookup c = none := (dropLease_spec h hc).gone
    by_cases ht : now < ls.expireAt
    · simp only [FSM.leaseExpire,hc,ht,if_true,hb]
    · simp only [FSM.leaseExpire,hc,ht,if_false,hg]

end Leases

private theorem dispatch_twice (h : Inv f) (cmd : Command) :
    ((f.dispatch cmd).fsm.bump.dispatch cmd).fsm.Same (f.dispatch cmd).fsm.bump := by
  have same : ∀ {a b : FSM}, a = b → a.Same b := fun he => he ▸ .refl _
  cases cmd with
  | acquireLock name c tryLock => exact same (congrArg Applied.fsm (acquire_twice h tryLock))
  | campaign name c value => exact same (congrArg Applied.fsm (acquire_twice h false))
  | releaseLock name c token => exact same (release_twice h name c token)
  | resign name c token => exact same (release_twice h name c token)
  | cancelWait name c => exact same (cancelWait_twice h name c)
  | proclaim name c token value => exact proclaim_twice h name c token value
  | leaseGrant c ttlMS now => exact leaseGrant_twice f c ttlMS now
  | leaseKeepAlive c now => exact leaseKeepAlive_twice f c now
  | leaseRevoke c => exact same (leaseRevoke_twice h c)
  | leaseExpire c now => exact same (leaseExpire_twice h c now)

/-- A command applied twice leaves what it left the first time, up to the
revision, and an acquire or a campaign is answered alike both times. -/
theorem step_twice (h : Reachable Command.Named f) (cmd : Command) :
    (f.step cmd).fsm.Settled cmd ∧
    ((∃ k c b, cmd = .acquireLock k c b) ∨ (∃ k c v, cmd = .campaign k c v) →
      ((f.step cmd).fsm.step cmd).result =
        { (f.step cmd).result with revision := (f.step cmd).fsm.revision + 1 }) := by
  have hi := (reachable_inv h).bump
  refine ⟨dispatch_twice hi cmd,?_⟩
  rintro (⟨k,c,b,rfl⟩ | ⟨k,c,v,rfl⟩)
  · exact congrArg Applied.result (acquire_twice hi b)
  · exact congrArg Applied.result (acquire_twice hi false)

/-- A second client queues up twice: it keeps its place and is told the same position. -/
theorem queued_acquire_twice :
    let f := (new true).run [.leaseGrant (str "a") 5 0,.leaseGrant (str "b") 5 0,.acquireLock (str "k") (str "a") false]
    let cmd := Command.acquireLock (str "k") (str "b") false
    (f.step cmd).result.queuePosition = 1 ∧ (f.step cmd).fsm.Settled cmd ∧
    ((f.step cmd).fsm.step cmd).result = { (f.step cmd).result with revision := (f.step cmd).fsm.revision + 1 } := by
  intro f cmd
  have hr : Reachable Command.Named f := (Reachable.start true).run (by decide)
  obtain ⟨hs,ha⟩ := step_twice hr cmd
  exact ⟨by decide,hs,ha (.inl ⟨_,_,_,rfl⟩)⟩

end Zuul.Fsm
