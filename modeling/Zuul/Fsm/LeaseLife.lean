import Zuul.Fsm.Commands

/-! What a command does to the lease of one client: its record of times. -/
namespace Zuul.Fsm
open Lib
variable {f g : FSM} {k c d : Str} {ls : Lease} {cmd : Command}

/-- The key a lock or election command is about. -/
def Command.lockName : Command → Option Str
  | acquireLock k _ _ | releaseLock k _ _ | cancelWait k _ | campaign k _ _ | proclaim k _ _ _ | resign k _ _ => some k
  | leaseGrant _ _ _ | leaseKeepAlive _ _ | leaseRevoke _ | leaseExpire _ _ => none

/-- The clock reading with which a command grants or renews the lease of the client. -/
def Command.stamp (c : Str) : Command → Option Int64
  | leaseGrant d _ now | leaseKeepAlive d now => if d = c then some now else none
  | _ => none

/-- The clock reading with which a command expires the lease of the client. -/
def Command.expires (c : Str) : Command → Option Int64
  | leaseExpire d now => if d = c then some now else none
  | _ => none

/-- The command is an expiry that finds the client's lease due. -/
def FSM.Lapses (f : FSM) (c : Str) (cmd : Command) : Prop :=
  ∃ now ∈ cmd.expires c, ∃ ls ∈ f.leases.lookup c, ls.expireAt ≤ now

instance (f : FSM) (c : Str) (cmd : Command) : Decidable (f.Lapses c cmd) :=
  inferInstanceAs (Decidable (∃ now ∈ cmd.expires c, ∃ ls ∈ f.leases.lookup c, ls.expireAt ≤ now))

private theorem KeyEdit.refl (k : Str) (f : FSM) : KeyEdit k f f :=
  ⟨fun _ => rfl,fun _ => KeyedMap.rel_refl (.refl k) _,Nat.le_refl _,rfl,rfl⟩

section Edits

private theorem acquire_edit (h : Inv f) (k c : Str) (v : Bytes) (tryLock : Bool) :
    KeyEdit k f (f.acquire k c v tryLock).fsm := by
  have ht := acquire_cases h k c v tryLock
  generalize f.acquire k c v tryLock = out at ht
  cases ht with
  | free hc hk => exact grant_edit hk hc
  | join hc hk hh hq => exact enqueue_edit hc _ v
  | _ => exact .refl k f

private theorem release_edit (h : Inv f) (k c : Str) (t : Nat) : KeyEdit k f (f.release k c t).fsm := by
  rcases holder_cases f k c with ⟨lk,hk,hh⟩ | hn
  · by_cases ht : lk.token = t
    · rw [release_holder h hk hh ht]; exact giveUp_edit h hk
    · rw [release_stale h hk hh ht]; exact .refl k f
  · rw [release_other hn]; exact .refl k f

private theorem proclaim_edit (h : Inv f) (k c : Str) (t : Nat) (v : Bytes) : KeyEdit k f (f.proclaim k c t v).fsm := by
  rcases holder_cases f k c with ⟨lk,hk,hh⟩ | hn
  · by_cases ht : lk.token = t
    · rw [proclaim_holder h hk hh ht]; exact setValue_edit f k _
    · rw [proclaim_stale h hk hh ht]; exact .refl k f
  · rw [proclaim_other hn]; exact .refl k f

/-- Cancelling a wait edits one key. -/
theorem cancelWait_edit (h : Inv f) (k c : Str) : KeyEdit k f (f.cancelWait k c).fsm := by
  by_cases hq : ∃ lk, f.locks.lookup k = some lk ∧ c ∈ lk.queue.map Waiter.clientID
  · obtain ⟨lk,hk,hq⟩ := hq
    obtain ⟨ls,hc⟩ := h.lease_of_mem hk (List.mem_cons_of_mem _ hq)
    rw [cancelWait_found hk hq]
    exact cut_edit hc
  · rw [cancelWait_idle (fun lk hk hm => hq ⟨lk,hk,hm⟩)]
    exact .refl k f

/-- A lock or election command touches its own key only. -/
theorem dispatch_edit (h : Inv f) (hk : cmd.lockName = some k) : KeyEdit k f (f.dispatch cmd).fsm := by
  cases cmd with
  | acquireLock | campaign => cases hk; exact acquire_edit h k _ _ _
  | releaseLock | resign => cases hk; exact release_edit h k _ _
  | cancelWait => cases hk; exact cancelWait_edit h k _
  | proclaim => cases hk; exact proclaim_edit h k _ _ _
  | _ => cases hk

end Edits

/-- What becomes of the lease of the client c under a command. -/
inductive LeaseTurn (cmd : Command) (c : Str) : Option Lease → Option Lease → Prop where
  | kept {x y : Option Lease} (ht : Option.Rel Lease.SameTimes x y) (hn : ∀ ls, y = some ls → cmd.stamp c = none) :
      LeaseTurn cmd c x y
  | granted {x : Option Lease} {b : Lease} {ttlMS now : Int64} (hc : cmd = .leaseGrant c ttlMS now)
      (ht : b.ttlMS = ttlMS) (he : b.expireAt = leaseDeadline now ttlMS) : LeaseTurn cmd c x (some b)
  | renewed {a b : Lease} {now : Int64} (hc : cmd = .leaseKeepAlive c now) (ht : b.ttlMS = a.ttlMS)
      (he : b.expireAt = leaseDeadline now a.ttlMS) : LeaseTurn cmd c (some a) (some b)
  | revoked {a : Lease} (hc : cmd = .leaseRevoke c) : LeaseTurn cmd c (some a) none
  | expired {a : Lease} {now : Int64} (hc : cmd = .leaseExpire c now) (he : a.expireAt ≤ now) :
      LeaseTurn cmd c (some a) none

section Turn

private theorem turn_idle (hn : ∀ ls, f.leases.lookup c = some ls → cmd.stamp c = none) :
    LeaseTurn cmd c (f.leases.lookup c) (f.leases.lookup c) :=
  .kept (KeyedMap.rel_refl (fun _ => ⟨rfl,rfl,rfl⟩) _) hn

private theorem turn_edit (he : KeyEdit k f g) (hn : cmd.stamp c = none) :
    LeaseTurn cmd c (f.leases.lookup c) (g.leases.lookup c) :=
  .kept (KeyedMap.rel_mono (he.leases c) (fun _ _ hl => ⟨hl.clientID,hl.ttlMS,hl.expireAt⟩)) (fun _ _ => hn)

private theorem setLease_lookup (f : FSM) (d c : Str) (ls : Lease) :
    (f.setLease d ls).leases.lookup c = if c = d then some ls else f.leases.lookup c :=
  KeyedMap.lookup_insert_eq _ _ _ _

private theorem turn_drop (h : Inv f) (hd : f.leases.lookup d = some ls) (hn : cmd.stamp c = none)
    (hc : c = d → LeaseTurn cmd c (some ls) none) :
    LeaseTurn cmd c (f.leases.lookup c) ((f.dropLease d ls).1.leases.lookup c) := by
  have hs := dropLease_spec h hd
  by_cases hcd : c = d
  · rw [hcd,hd,hs.gone,← hcd]
    exact hc hcd
  · exact .kept (hs.times hcd) (fun _ _ => hn)

private theorem dispatch_lease (h : Inv f) (cmd : Command) (c : Str) :
    LeaseTurn cmd c (f.leases.lookup c) ((f.dispatch cmd).fsm.leases.lookup c) := by
  cases cmd with
  | leaseGrant d ttlMS now =>
    rw [FSM.dispatch,FSM.leaseGrant,setLease_lookup]
    split
    · rename_i hcd
      subst hcd
      exact .granted rfl rfl rfl
    · rename_i hcd
      exact turn_idle (fun _ _ => if_neg (Ne.symm hcd))
  | leaseKeepAlive d now =>
    cases hd : f.leases.lookup d with
    | none =>
      simp only [FSM.dispatch,FSM.leaseKeepAlive,hd]
      refine turn_idle (fun ls hl => if_neg ?_)
      rintro rfl
      cases hd.symm.trans hl
    | some a =>
      simp only [FSM.dispatch,FSM.leaseKeepAlive,hd]
      rw [setLease_lookup]
      split
      · rename_i hcd
        subst hcd
        rw [hd]
        exact .renewed rfl rfl rfl
      · rename_i hcd
        exact turn_idle (fun _ _ => if_neg (Ne.symm hcd))
  | leaseRevoke d =>
    cases hd : f.leases.lookup d with
    | none => simp only [FSM.dispatch,FSM.leaseRevoke,hd]; exact turn_idle (fun _ _ => rfl)
    | some a =>
      simp only [FSM.dispatch,FSM.leaseRevoke,hd]
      refine turn_drop h hd rfl ?_
      rintro rfl
      exact .revoked rfl
  | leaseExpire d now =>
    cases hd : f.leases.lookup d with
    | none => simp only [FSM.dispatch,FSM.leaseExpire,hd]; exact turn_idle (fun _ _ => rfl)
    | some a =>
      simp only [FSM.dispatch,FSM.leaseExpire,hd]
      split
      · exact turn_idle (fun _ _ => rfl)
      · rename_i hlt
        refine turn_drop h hd rfl ?_
        rintro rfl
        exact .expired rfl (Int64.not_lt.mp hlt)
  | _ => exact turn_edit (dispatch_edit h rfl) rfl

/-- Only a grant makes a lease, only a grant or a renewal moves its deadline, and
only a revocation or a due expiry ends it. -/
theorem step_lease (h : Inv f) (cmd : Command) (c : Str) :
    LeaseTurn cmd c (f.leases.lookup c) ((f.step cmd).fsm.leases.lookup c) := dispatch_lease h.bump cmd c

/-- A renewal counts from its own clock with the TTL of the lease. -/
theorem keepAlive_lease (f : FSM) (c : Str) (now : Int64) :
    (f.step (.leaseKeepAlive c now)).fsm.leases.lookup c =
      (f.leases.lookup c).map (fun ls => { ls with expireAt := leaseDeadline now ls.ttlMS }) := by
  have hb : f.bump.leases = f.leases := rfl
  cases hc : f.leases.lookup c with
  | none => simp only [FSM.step,FSM.dispatch,FSM.leaseKeepAlive,hb,hc,Option.map_none]
  | some ls =>
    simp only [FSM.step,FSM.dispatch,FSM.leaseKeepAlive,hb,hc,setLease_lookup,if_true,Option.map_some]

/-- A renewal leaves the locks. -/
theorem keepAlive_locks (f : FSM) (c : Str) (now : Int64) : (f.step (.leaseKeepAlive c now)).fsm.locks = f.locks := by
  simp only [FSM.step,FSM.dispatch,FSM.leaseKeepAlive]
  split
  · rfl
  · rfl

/-- A renewal is refused just where there is no lease. -/
theorem keepAlive_notFound (f : FSM) (c : Str) (now : Int64) :
    (f.step (.leaseKeepAlive c now)).result.outcome = .notFound ↔ f.leases.lookup c = none := by
  have hb : f.bump.leases = f.leases := rfl
  cases hc : f.leases.lookup c with
  | none =>
    simp only [FSM.step,FSM.dispatch,FSM.leaseKeepAlive,hb,hc]
    exact iff_of_true rfl trivial
  | some ls =>
    simp only [FSM.step,FSM.dispatch,FSM.leaseKeepAlive,hb,hc]
    exact iff_of_false (fun h => by cases h) (fun h => by cases h)

/-- A revoked lease is gone. -/
theorem revoke_gone (h : Inv f) (c : Str) : (f.step (.leaseRevoke c)).fsm.leases.lookup c = none := by
  have ht := step_lease h (.leaseRevoke c) c
  cases hc : f.leases.lookup c with
  | none =>
    rw [hc] at ht
    generalize (f.step (.leaseRevoke c)).fsm.leases.lookup c = y at ht
    cases ht with
    | kept ht => cases ht; rfl
    | granted hc => cases hc
  | some ls =>
    have hb : f.bump.leases.lookup c = some ls := hc
    simp only [FSM.step,FSM.dispatch,FSM.leaseRevoke,hb]
    exact (dropLease_spec h.bump hb).gone

private theorem lapse_gone (h : Inv f) (hl : f.Lapses c cmd) : (f.step cmd).fsm.leases.lookup c = none := by
  obtain ⟨now,hnow,ls,hc,he⟩ := hl
  have hb : f.bump.leases.lookup c = some ls := hc
  cases cmd with
  | leaseExpire d now' =>
    rw [Command.expires] at hnow
    split at hnow
    · rename_i hd
      cases hnow
      subst hd
      simp only [FSM.step,FSM.dispatch,FSM.leaseExpire,hb,if_neg (Int64.not_lt.mpr he)]
      exact (dropLease_spec h.bump hb).gone
    · cases hnow
  | _ => cases hnow

/-- A lock stays as it is under the drop of a lease exactly if the client is not in its line. -/
theorem dropLease_lock_iff (h : Inv f) (hc : f.leases.lookup c = some ls) (k : Str) :
    (f.dropLease c ls).1.locks.lookup k = f.locks.lookup k ↔ c ∉ f.line k := by
  have hs := dropLease_spec h hc
  cases hk : f.locks.lookup k with
  | none =>
    rw [FSM.line_of_absent hk]
    exact iff_of_true (hs.absent hk) List.not_mem_nil
  | some lk =>
    rw [FSM.line_of_lookup hk]
    by_cases hh : lk.holder = c
    · obtain ⟨n,_,_,hn⟩ := hs.taken hk hh
      refine iff_of_false (fun he => ?_) (fun hm => hm (hh ▸ List.mem_cons_self))
      exact h.holder_not_queued hk (next_holder_mem (hn.symm.trans he))
    · rw [hs.left hk hh]
      by_cases hq : c ∈ lk.queue.map Waiter.clientID
      · refine iff_of_false (fun he => ?_) (fun hm => hm (List.mem_cons_of_mem _ hq))
        rw [← Option.some.inj he] at hq
        exact ((mem_dequeue_clients h hk c).mp hq).1 rfl
      · rw [dequeue_of_not_mem hq]
        exact iff_of_true rfl (fun hm => (List.mem_cons.mp hm).elim (fun he => hh he.symm) hq)

/-- Revoking a lease changes exactly the locks whose line has the client. -/
theorem revoke_lock_iff (h : Inv f) (k c : Str) :
    (f.step (.leaseRevoke c)).fsm.locks.lookup k = f.locks.lookup k ↔ c ∉ f.line k := by
  cases hc : f.bump.leases.lookup c with
  | none =>
    simp only [FSM.step,FSM.dispatch,FSM.leaseRevoke,hc]
    refine iff_of_true rfl (fun hm => ?_)
    cases hk : f.locks.lookup k with
    | none =>
      rw [FSM.line_of_absent hk] at hm
      cases hm
    | some lk =>
      rw [FSM.line_of_lookup hk] at hm
      obtain ⟨ls,hl⟩ := h.lease_of_mem hk hm
      cases hc.symm.trans hl
  | some ls =>
    simp only [FSM.step,FSM.dispatch,FSM.leaseRevoke,hc]
    exact dropLease_lock_iff h.bump hc k

/-- A lease outlives exactly the commands that neither revoke it nor find it due. -/
theorem mem_leases_step (h : Inv f) (hm : c ∈ f.leases) (cmd : Command) :
    c ∈ (f.step cmd).fsm.leases ↔ cmd ≠ .leaseRevoke c ∧ ¬ f.Lapses c cmd := by
  obtain ⟨ls,hl⟩ := (KeyedMap.mem_iff_lookup _ _).mp hm
  rw [KeyedMap.mem_iff_lookup]
  constructor
  · rintro ⟨ls',hl'⟩
    refine ⟨?_,fun hlap => ?_⟩
    · rintro rfl
      cases (revoke_gone h c).symm.trans hl'
    · cases (lapse_gone h hlap).symm.trans hl'
  · rintro ⟨hrev,hlap⟩
    have ht := step_lease h cmd c
    rw [hl] at ht
    generalize (f.step cmd).fsm.leases.lookup c = y at ht
    cases ht with
    | kept ht => cases ht; exact ⟨_,rfl⟩
    | granted | renewed => exact ⟨_,rfl⟩
    | revoked hc => exact (hrev hc).elim
    | expired hc he =>
      subst hc
      exact (hlap ⟨_,if_pos rfl,ls,hl,he⟩).elim

/-- Lock commands, commands of other clients and expiries that come too early
leave the times of the client's lease. -/
theorem times_step (h : Inv f)
    (hn : cmd.lockName ≠ none ∨ cmd.clientID ≠ c ∨ (cmd.expires c ≠ none ∧ ¬ f.Lapses c cmd)) :
    Option.Rel Lease.SameTimes (f.leases.lookup c) ((f.step cmd).fsm.leases.lookup c) := by
  have ht := step_lease h cmd c
  generalize hx : f.leases.lookup c = x, (f.step cmd).fsm.leases.lookup c = y at ht
  cases ht with
  | kept ht => exact ht
  | granted hc | renewed hc | revoked hc =>
    subst hc
    rcases hn with hn | hn | hn
    · exact (hn rfl).elim
    · exact (hn rfl).elim
    · exact (hn.1 rfl).elim
  | @expired a now hc he =>
    subst hc
    rcases hn with hn | hn | hn
    · exact (hn rfl).elim
    · exact (hn rfl).elim
    · exact (hn.2 ⟨now,if_pos rfl,a,hx,he⟩).elim

end Turn
end Zuul.Fsm
