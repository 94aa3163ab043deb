import Zuul.Fsm.Drop

/-! What each command does in a sound state, branch by branch, and the summary
that every command is one primitive change or a lease drop. -/
namespace Zuul.Fsm
open Lib
variable {f : FSM} {k c : Str} {lk : Lock} {ls : Lease} {v : Bytes} {t : Nat}

section Acquire

/-- An acquire without a lease is refused. -/
theorem acquire_noLease (hc : f.leases.lookup c = none) (tryLock : Bool) :
    f.acquire k c v tryLock = ⟨f,f.resultKey .noLease k,[]⟩ := by simp only [FSM.acquire,hc]

private theorem acquire_free (hc : f.leases.lookup c = some ls) (hk : f.locks.lookup k = none) (tryLock : Bool) :
    f.acquire k c v tryLock = f.grant k c ls v := by simp only [FSM.acquire,hc,hk]

/-- The holder that asks again gets its old token. -/
theorem acquire_holder (h : Inv f) (hk : f.locks.lookup k = some lk) (hh : lk.holder = c) (tryLock : Bool) :
    f.acquire k c v tryLock =
      ⟨f,{ f.resultKey .granted k with fencingToken := lk.token, value := lk.value },[]⟩ := by
  subst hh
  obtain ⟨ls,hc⟩ := h.holder_lease hk
  simp only [FSM.acquire,hc,hk,h.holder_ne hk,if_false,if_true]

/-- A try on a held key names the holder. -/
theorem acquire_try (h : Inv f) (hc : f.leases.lookup c = some ls) (hk : f.locks.lookup k = some lk)
    (hh : lk.holder ≠ c) : f.acquire k c v true =
      ⟨f,{ f.resultKey .notAcquired k with currentHolder := lk.holder },[]⟩ := by
  simp only [FSM.acquire,hc,hk,h.holder_ne hk,hh,if_false,if_true]

/-- A waiter that asks again keeps its place and its value. -/
theorem acquire_again (h : Inv f) (hk : f.locks.lookup k = some lk) (hq : c ∈ lk.queue.map Waiter.clientID) :
    f.acquire k c v false = ⟨f,{ f.resultKey .queued k with queuePosition := queuePos lk c },[]⟩ := by
  obtain ⟨ls,hc⟩ := h.lease_of_mem hk (List.mem_cons_of_mem _ hq)
  have hh : lk.holder ≠ c := by
    rintro rfl
    exact h.holder_not_queued hk hq
  have hw : k ∈ ls.waiting := (h.waiting id hc).mpr ⟨lk,hk,hq⟩
  simp only [FSM.acquire,hc,hk,h.holder_ne hk,hh,hw,Bool.false_eq_true,if_false,if_true]

private theorem acquire_join (h : Inv f) (hc : f.leases.lookup c = some ls) (hk : f.locks.lookup k = some lk)
    (hn : c ∉ lk.line) : f.acquire k c v false = f.enqueue k c lk ls v := by
  have hh : lk.holder ≠ c := by
    rintro rfl
    exact hn List.mem_cons_self
  have hw : k ∉ ls.waiting := by
    rw [h.waiting id hc,hk]
    rintro ⟨lk',hlk,hm⟩
    cases hlk
    exact hn (List.mem_cons_of_mem _ hm)
  simp only [FSM.acquire,hc,hk,h.holder_ne hk,hh,hw,Bool.false_eq_true,if_false]

/-- The six ways an acquire goes in a sound state. -/
inductive Acquired (f : FSM) (k c : Str) (v : Bytes) : Bool → Applied → Prop where
  | noLease {b : Bool} (hc : f.leases.lookup c = none) : Acquired f k c v b ⟨f,f.resultKey .noLease k,[]⟩
  | free {b : Bool} {ls : Lease} (hc : f.leases.lookup c = some ls) (hk : f.locks.lookup k = none) :
      Acquired f k c v b (f.grant k c ls v)
  | holder {b : Bool} {lk : Lock} {ls : Lease} (hc : f.leases.lookup c = some ls) (hk : f.locks.lookup k = some lk)
      (hh : lk.holder = c) : Acquired f k c v b
        ⟨f,{ f.resultKey .granted k with fencingToken := lk.token, value := lk.value },[]⟩
  | busy {lk : Lock} {ls : Lease} (hc : f.leases.lookup c = some ls) (hk : f.locks.lookup k = some lk)
      (hh : lk.holder ≠ c) : Acquired f k c v true
        ⟨f,{ f.resultKey .notAcquired k with currentHolder := lk.holder },[]⟩
  | again {lk : Lock} {ls : Lease} (hc : f.leases.lookup c = some ls) (hk : f.locks.lookup k = some lk)
      (hh : lk.holder ≠ c) (hq : c ∈ lk.queue.map Waiter.clientID) : Acquired f k c v false
        ⟨f,{ f.resultKey .queued k with queuePosition := queuePos lk c },[]⟩
  | join {lk : Lock} {ls : Lease} (hc : f.leases.lookup c = some ls) (hk : f.locks.lookup k = some lk)
      (hh : lk.holder ≠ c) (hq : c ∉ lk.queue.map Waiter.clientID) : Acquired f k c v false (f.enqueue k c lk ls v)

/-- Neither holding nor waiting is not standing in line. -/
theorem not_mem_line (hh : lk.holder ≠ c) (hq : c ∉ lk.queue.map Waiter.clientID) : c ∉ lk.line := by
  rw [Lock.line,List.mem_cons,not_or]
  exact ⟨Ne.symm hh,hq⟩

/-- Every acquire is one of the cases. -/
theorem acquire_cases (h : Inv f) (k c : Str) (v : Bytes) (tryLock : Bool) :
    Acquired f k c v tryLock (f.acquire k c v tryLock) := by
  cases hc : f.leases.lookup c with
  | none => rw [acquire_noLease hc]; exact .noLease hc
  | some ls =>
    cases hk : f.locks.lookup k with
    | none => rw [acquire_free hc hk]; exact .free hc hk
    | some lk =>
      by_cases hh : lk.holder = c
      · rw [acquire_holder h hk hh]; exact .holder hc hk hh
      · cases tryLock with
        | true => rw [acquire_try h hc hk hh]; exact .busy hc hk hh
        | false =>
          by_cases hq : c ∈ lk.queue.map Waiter.clientID
          · rw [acquire_again h hk hq]; exact .again hc hk hh hq
          · rw [acquire_join h hc hk (not_mem_line hh hq)]; exact .join hc hk hh hq

/-- A granted acquire leaves the client as the holder under the token it was told. -/
theorem acquire_granted_hold (h : Inv f) (tryLock : Bool)
    (ho : (f.acquire k c v tryLock).result.outcome = .granted) :
    (f.acquire k c v tryLock).fsm.hold k = some (c,(f.acquire k c v tryLock).result.fencingToken) := by
  have ht := acquire_cases h k c v tryLock
  generalize f.acquire k c v tryLock = out at ht ho
  cases ht with
  | free hc hk =>
    have hl := grant_lock (v := v) h hk hc
    rw [FSM.hold_of_lookup hl]
    rfl
  | holder hc hk hh => rw [FSM.hold_of_lookup hk,hh]
  | _ => cases ho

/-- A queued acquire leaves another client as the holder. -/
theorem acquire_queued_hold (h : Inv f) (tryLock : Bool)
    (ho : (f.acquire k c v tryLock).result.outcome = .queued) (t : Nat) :
    (f.acquire k c v tryLock).fsm.hold k ≠ some (c,t) := by
  have ht := acquire_cases h k c v tryLock
  generalize f.acquire k c v tryLock = out at ht ho
  cases ht with
  | again hc hk hh hq =>
    rw [FSM.hold_of_lookup hk]
    exact fun he => hh (Prod.mk.inj (Option.some.inj he)).1
  | @join lk ls hc hk hh hq =>
    rw [FSM.hold_of_lookup (enqueue_lock f k c lk ls v)]
    exact fun he => hh (Prod.mk.inj (Option.some.inj he)).1
  | _ => cases ho

end Acquire

section Holder

/-- Both holder commands check the holder before the token. -/
theorem release_other (hn : ∀ lk, f.locks.lookup k = some lk → lk.holder ≠ c) :
    f.release k c t = ⟨f,f.resultKey .notHolder k,[]⟩ := by
  cases hk : f.locks.lookup k with
  | none => simp only [FSM.release,hk]
  | some lk => simp only [FSM.release,hk,ne_eq,hn lk hk,not_false_eq_true,or_true,if_true]

/-- A release under an old token is refused. -/
theorem release_stale (h : Inv f) (hk : f.locks.lookup k = some lk) (hh : lk.holder = c) (ht : lk.token ≠ t) :
    f.release k c t = ⟨f,f.resultKey .staleToken k,[]⟩ := by
  subst hh
  simp only [FSM.release,hk,h.holder_ne hk,ne_eq,not_true_eq_false,or_self,if_false,ht,not_false_eq_true,if_true]

/-- A release by the holder gives the key up. -/
theorem release_holder (h : Inv f) (hk : f.locks.lookup k = some lk) (hh : lk.holder = c) (ht : lk.token = t) :
    f.release k c t = ⟨(f.giveUp k lk).1,(f.giveUp k lk).1.resultKey .released k,(f.giveUp k lk).2⟩ := by
  subst hh ht
  simp only [FSM.release,hk,h.holder_ne hk,ne_eq,not_true_eq_false,or_self,if_false]
  rfl

/-- A proclamation by a client that does not hold the key is refused. -/
theorem proclaim_other (hn : ∀ lk, f.locks.lookup k = some lk → lk.holder ≠ c) :
    f.proclaim k c t v = ⟨f,f.resultKey .notHolder k,[]⟩ := by
  cases hk : f.locks.lookup k with
  | none => simp only [FSM.proclaim,hk]
  | some lk => simp only [FSM.proclaim,hk,ne_eq,hn lk hk,not_false_eq_true,or_true,if_true]

/-- A proclamation under an old token is refused. -/
theorem proclaim_stale (h : Inv f) (hk : f.locks.lookup k = some lk) (hh : lk.holder = c) (ht : lk.token ≠ t) :
    f.proclaim k c t v = ⟨f,f.resultKey .staleToken k,[]⟩ := by
  subst hh
  simp only [FSM.proclaim,hk,h.holder_ne hk,ne_eq,not_true_eq_false,or_self,if_false,ht,not_false_eq_true,if_true]

/-- A proclamation by the holder publishes its value. -/
theorem proclaim_holder (h : Inv f) (hk : f.locks.lookup k = some lk) (hh : lk.holder = c) (ht : lk.token = t) :
    f.proclaim k c t v = ⟨f.setLock k { lk with value := v },
      { f.resultKey .valueUpdated k with fencingToken := t, value := v },
      f.emit k lk.holder lk.token v⟩ := by
  subst hh ht
  simp only [FSM.proclaim,hk,h.holder_ne hk,ne_eq,not_true_eq_false,or_self,if_false]
  rfl

end Holder

section Cancel

/-- Cancelling a wait that is not there does nothing. -/
theorem cancelWait_idle (hn : ∀ lk, f.locks.lookup k = some lk → c ∉ lk.queue.map Waiter.clientID) :
    f.cancelWait k c = ⟨f,f.resultKey .noop k,[]⟩ := by
  cases hk : f.locks.lookup k with
  | none => simp only [FSM.cancelWait,hk]
  | some lk =>
    have ha : lk.queue.any (fun w => w.clientID == c) = false := by
      rw [List.any_eq_false]
      intro w hw hb
      exact hn lk hk (List.mem_map.mpr ⟨w,hw,beq_iff_eq.mp hb⟩)
    simp only [FSM.cancelWait,hk,ha,Bool.false_eq_true,if_false]

/-- Cancelling a wait takes the client out of the queue. -/
theorem cancelWait_found (hk : f.locks.lookup k = some lk) (hq : c ∈ lk.queue.map Waiter.clientID) :
    f.cancelWait k c = ⟨f.cut k c lk,(f.cut k c lk).resultKey .released k,[]⟩ := by
  have ha : lk.queue.any (fun w => w.clientID == c) = true := by
    obtain ⟨w,hw,he⟩ := List.mem_map.mp hq
    exact List.any_eq_true.mpr ⟨w,hw,beq_iff_eq.mpr he⟩
  simp only [FSM.cancelWait,hk,ha,if_true]
  rfl

end Cancel

private theorem announce_of_lookup (hk : f.locks.lookup k = some lk) :
    f.announce k = f.emit k lk.holder lk.token lk.value := by rw [FSM.announce,hk]

/-- The state changes a command with value v can make, and the events that go along. -/
inductive Effect (f : FSM) (v : Bytes) : FSM → List Event → Prop where
  | idle : Effect f v f []
  | grant {k c : Str} {ls : Lease} (hk : f.locks.lookup k = none) (hc : f.leases.lookup c = some ls) :
      Effect f v (f.grant k c ls v).fsm ((f.grant k c ls v).fsm.announce k)
  | enqueue {k c : Str} {lk : Lock} {ls : Lease} (hk : f.locks.lookup k = some lk)
      (hc : f.leases.lookup c = some ls) (hn : c ∉ lk.line) :
      Effect f v (f.enqueue k c lk ls v).fsm []
  | giveUp {k : Str} {lk : Lock} (hk : f.locks.lookup k = some lk) :
      Effect f v (f.giveUp k lk).1 ((f.giveUp k lk).1.announce k)
  | cut {k c : Str} {lk : Lock} {ls : Lease} (hk : f.locks.lookup k = some lk) (hc : f.leases.lookup c = some ls) :
      Effect f v (f.cut k c lk) []
  | publish {k : Str} {lk : Lock} (hk : f.locks.lookup k = some lk) :
      Effect f v (f.setLock k { lk with value := v }) ((f.setLock k { lk with value := v }).announce k)
  | lease {c : Str} {ls' : Lease} (hn : c ≠ []) (ho : ls'.clientID = c)
      (hi : ls'.held = ((f.leases.lookup c).getD { clientID := c }).held ∧
        ls'.waiting = ((f.leases.lookup c).getD { clientID := c }).waiting) :
      Effect f v (f.setLease c ls') []
  | drop {c : Str} {ls : Lease} (hc : f.leases.lookup c = some ls) :
      Effect f v (f.dropLease c ls).1 (f.dropLease c ls).2

section Effects

private theorem grant_announce (h : Inv f) (hk : f.locks.lookup k = none) (hc : f.leases.lookup c = some ls) :
    (f.grant k c ls v).events = (f.grant k c ls v).fsm.announce k := by
  rw [announce_of_lookup (grant_lock h hk hc)]
  simp only [FSM.grant,hk,(h.owned hc).1]
  rfl

private theorem acquire_effect (h : Inv f) (tryLock : Bool) :
    Effect f v (f.acquire k c v tryLock).fsm (f.acquire k c v tryLock).events := by
  have ht := acquire_cases h k c v tryLock
  generalize f.acquire k c v tryLock = out at ht
  cases ht with
  | free hc hk =>
    rw [grant_announce h hk hc]
    exact .grant hk hc
  | join hc hk hh hq => exact .enqueue hk hc (not_mem_line hh hq)
  | _ => exact .idle

/-- The holder of the key is the client, or it is not. -/
theorem holder_cases (f : FSM) (k c : Str) : (∃ lk, f.locks.lookup k = some lk ∧ lk.holder = c) ∨
    ∀ lk, f.locks.lookup k = some lk → lk.holder ≠ c := by
  by_cases h : ∃ lk, f.locks.lookup k = some lk ∧ lk.holder = c
  · exact .inl h
  · exact .inr (fun lk hk hh => h ⟨lk,hk,hh⟩)

private theorem release_effect (h : Inv f) : Effect f none (f.release k c t).fsm (f.release k c t).events := by
  rcases holder_cases f k c with ⟨lk,hk,hh⟩ | hn
  · by_cases ht : lk.token = t
    · rw [release_holder h hk hh ht,giveUp_events h hk]
      exact .giveUp hk
    · rw [release_stale h hk hh ht]; exact .idle
  · rw [release_other hn]; exact .idle

private theorem proclaim_effect (h : Inv f) :
    Effect f v (f.proclaim k c t v).fsm (f.proclaim k c t v).events := by
  rcases holder_cases f k c with ⟨lk,hk,hh⟩ | hn
  · by_cases ht : lk.token = t
    · have hl : (f.setLock k { lk with value := v }).locks.lookup k = some { lk with value := v } :=
        AList.lookup_insert _
      rw [proclaim_holder h hk hh ht]
      have he := announce_of_lookup hl
      exact he ▸ .publish hk
    · rw [proclaim_stale h hk hh ht]; exact .idle
  · rw [proclaim_other hn]; exact .idle

private theorem cancelWait_effect (h : Inv f) : Effect f none (f.cancelWait k c).fsm (f.cancelWait k c).events := by
  by_cases hq : ∃ lk, f.locks.lookup k = some lk ∧ c ∈ lk.queue.map Waiter.clientID
  · obtain ⟨lk,hk,hq⟩ := hq
    obtain ⟨ls,hc⟩ := h.lease_of_mem hk (List.mem_cons_of_mem _ hq)
    rw [cancelWait_found hk hq]
    exact .cut hk hc
  · rw [cancelWait_idle (fun lk hk hm => hq ⟨lk,hk,hm⟩)]
    exact .idle

private theorem dispatch_effect (h : Inv f) {cmd : Command} (hn : cmd.Named) :
    Effect f cmd.value (f.dispatch cmd).fsm (f.dispatch cmd).events := by
  cases cmd with
  | acquireLock name c tryLock => exact acquire_effect h tryLock
  | campaign name c value => exact acquire_effect h false
  | releaseLock name c token => exact release_effect h
  | resign name c token => exact release_effect h
  | cancelWait name c => exact cancelWait_effect h
  | proclaim name c token value => exact proclaim_effect h
  | leaseGrant c ttlMS now =>
    refine .lease hn ?_ ⟨rfl,rfl⟩
    cases hc : f.leases.lookup c with
    | none => rfl
    | some ls => exact (h.owned hc).1
  | leaseKeepAlive c now =>
    cases hc : f.leases.lookup c with
    | none => simp only [FSM.dispatch,FSM.leaseKeepAlive,hc]; exact .idle
    | some ls =>
      simp only [FSM.dispatch,FSM.leaseKeepAlive,hc]
      exact .lease hn (h.owned hc).1 (by rw [hc]; exact ⟨rfl,rfl⟩)
  | leaseRevoke c =>
    cases hc : f.leases.lookup c with
    | none => simp only [FSM.dispatch,FSM.leaseRevoke,hc]; exact .idle
    | some ls => simp only [FSM.dispatch,FSM.leaseRevoke,hc]; exact .drop hc
  | leaseExpire c now =>
    cases hc : f.leases.lookup c with
    | none => simp only [FSM.dispatch,FSM.leaseExpire,hc]; exact .idle
    | some ls =>
      simp only [FSM.dispatch,FSM.leaseExpire,hc]
      split
      · exact .idle
      · exact .drop hc

/-- Every well-formed command of a named client has one of the listed effects. -/
theorem step_effect (h : Inv f) {cmd : Command} (hn : cmd.Named) :
    Effect f.bump cmd.value (f.step cmd).fsm (f.step cmd).events := dispatch_effect h.bump hn

private theorem effect_inv (h : Inv f) {g : FSM} {evs : List Event} (he : Effect f v g evs) : Inv g := by
  cases he with
  | idle => exact h
  | grant hk hc => exact grant_inv h hk hc
  | enqueue hk hc hn => exact enqueue_inv h hk hc hn
  | giveUp hk => exact giveUp_inv h hk
  | cut hk hc => exact cut_inv h hk hc
  | publish hk => exact setValue_inv h hk
  | lease hn ho hi => exact setLease_inv h hn ho hi
  | drop hc => exact (dropLease_spec h hc).inv

end Effects

/-- Every command of a named client keeps the invariant. -/
theorem step_inv (h : Inv f) {cmd : Command} (hn : cmd.Named) : Inv (f.step cmd).fsm :=
  effect_inv h.bump (step_effect h hn)

/-- A command is committed in one of many shards. -/
theorem update_inv {shards : Nat → FSM} (h : ∀ k, Inv (shards k)) {cmd : Command} (hn : cmd.Named) (k j : Nat) :
    Inv (Function.update shards k ((shards k).step cmd).fsm j) := by
  rw [Function.update_apply]
  split
  · exact step_inv (h k) hn
  · exact h j

/-- And so does every log of them. -/
theorem run_inv (h : Inv f) {log : List Command} (hn : ∀ cmd ∈ log, cmd.Named) : Inv (f.run log) := by
  induction log generalizing f with
  | nil => exact h
  | cons cmd log ih =>
    exact ih (step_inv h (hn cmd List.mem_cons_self)) (fun a ha => hn a (List.mem_cons_of_mem _ ha))

end Zuul.Fsm
