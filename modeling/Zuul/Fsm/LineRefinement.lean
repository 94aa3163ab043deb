import Zuul.Fsm.LineSpec

/-! Every applied command moves the lines as the line specification says. -/
namespace Zuul.Fsm
open Lib
variable {f g : FSM} {k c : Str} {lk : Lock} {ls : Lease} {v : Bytes} {t : Nat}

private theorem lines_edit (he : KeyEdit k f g) : g.lines = f.lines.put k (g.line k) := by
  apply Waitlist.ext_line
  · intro a
    by_cases ha : a = k
    · subst ha
      simp [FSM.lines,Waitlist.put]
    · simp [FSM.lines,Waitlist.put,Function.update_of_ne ha,he.line_other ha]
  · exact he.mem_leases

private theorem line_cons (hk : f.locks.lookup k = some lk) :
    f.lines.line k = lk.holder :: lk.queue.map Waiter.clientID := FSM.line_of_lookup hk

private theorem line_nil (hk : f.locks.lookup k = none) : f.lines.line k = [] := FSM.line_of_absent hk

/-- The clock of the lines reads the token of the lock. -/
theorem clock_token (hk : f.locks.lookup k = some lk) : f.clock.token k = lk.token := by
  simp only [FSM.clock,FSM.hold_of_lookup hk,Option.map_some,Option.getD_some]

private theorem findIdx_client (queue : List Waiter) (hq : c ∈ queue.map Waiter.clientID) :
    queue.findIdx? (fun w => w.clientID == c) = some ((queue.map Waiter.clientID).idxOf c) := by
  induction queue with
  | nil => cases hq
  | cons w queue ih =>
    rw [List.findIdx?_cons,List.map_cons,List.idxOf_cons]
    by_cases hw : w.clientID = c
    · simp [hw]
    · have hm : c ∈ queue.map Waiter.clientID := (List.mem_cons.mp hq).resolve_left (Ne.symm hw)
      simp [beq_false_of_ne hw,ih hm]

/-- The reported position is the place among the waiting clients. -/
theorem queuePos_eq (lk : Lock) (hq : c ∈ lk.queue.map Waiter.clientID) :
    queuePos lk c = uint32 ((lk.queue.map Waiter.clientID).idxOf c + 1) := by
  rw [queuePos,findIdx_client lk.queue hq]

/-- The effect of a command on the lines, and its answer. -/
def Refines (out : Applied) (spec : Lines × Answer) : Prop :=
  out.fsm.lines = spec.1 ∧ out.result.Carries spec.2

private theorem mem_members (hc : f.leases.lookup c = some ls) : c ∈ f.lines.members :=
  (KeyedMap.mem_iff_lookup f.leases c).mpr ⟨ls,hc⟩

private theorem not_mem_members (hc : f.leases.lookup c = none) : c ∉ f.lines.members :=
  AList.lookup_eq_none.mp hc

private theorem acquire_refines (h : Inv f) (tryLock : Bool) :
    Refines (f.acquire k c v tryLock) (f.lines.acquire f.clock k c tryLock) := by
  have ht := acquire_cases h k c v tryLock
  generalize f.acquire k c v tryLock = out at ht
  cases ht with
  | noLease hc =>
    rw [Lines.acquire,if_pos (not_mem_members hc)]
    exact ⟨rfl,rfl,rfl,rfl,by simp⟩
  | free hc hk =>
    have hl := grant_lock (v := v) h hk hc
    rw [Lines.acquire,if_neg (not_not.mpr (mem_members hc)),line_nil hk]
    refine ⟨?_,rfl,rfl,rfl,by simp⟩
    rw [lines_edit (grant_edit hk hc),FSM.line_of_lookup hl]
    rfl
  | holder hc hk hh =>
    rw [Lines.acquire,if_neg (not_not.mpr (mem_members hc)),line_cons hk]
    simp only [hh,if_true]
    refine ⟨rfl,rfl,rfl,rfl,?_⟩
    intro t ht
    rw [← Option.some.inj ht,clock_token hk]
  | busy hc hk hh =>
    rw [Lines.acquire,if_neg (not_not.mpr (mem_members hc)),line_cons hk]
    simp only [hh,if_false,if_true]
    exact ⟨rfl,rfl,rfl,rfl,by simp⟩
  | @again lk ls hc hk hh hq =>
    rw [Lines.acquire,if_neg (not_not.mpr (mem_members hc)),line_cons hk]
    simp only [hh,Bool.false_eq_true,if_false,if_pos hq]
    exact ⟨rfl,rfl,queuePos_eq lk hq,rfl,by simp⟩
  | @join lk ls hc hk hh hq =>
    rw [Lines.acquire,if_neg (not_not.mpr (mem_members hc)),line_cons hk]
    simp only [hh,Bool.false_eq_true,if_false,if_neg hq]
    refine ⟨?_,rfl,by simp [FSM.enqueue],rfl,by simp⟩
    rw [lines_edit (enqueue_edit hc lk v),FSM.line_of_lookup (enqueue_lock f k c lk ls v),enqueued_line]
    rfl

private theorem head_eq (hk : f.locks.lookup k = some lk) : (f.lines.line k).head? = some lk.holder := by
  rw [line_cons hk]; rfl

private theorem head_ne (hn : ∀ lk, f.locks.lookup k = some lk → lk.holder ≠ c) :
    (f.lines.line k).head? ≠ some c := by
  cases hk : f.locks.lookup k with
  | none => rw [line_nil hk]; simp
  | some lk =>
    rw [head_eq hk]
    exact fun he => hn lk hk (Option.some.inj he)

private theorem release_refines (h : Inv f) : Refines (f.release k c t)
    (f.lines.holder f.clock k c t (f.lines.put k (f.lines.line k).tail) .released) := by
  rw [Lines.holder]
  rcases holder_cases f k c with ⟨lk,hk,hh⟩ | hn
  · rw [if_neg (not_not.mpr (hh ▸ head_eq hk)),clock_token hk]
    by_cases ht : lk.token = t
    · rw [release_holder h hk hh ht,if_neg (not_not.mpr ht)]
      refine ⟨?_,rfl,rfl,rfl,by simp⟩
      rw [lines_edit (giveUp_edit h hk),line_cons hk,FSM.line,giveUp_lock h hk,next_line]
      rfl
    · rw [release_stale h hk hh ht,if_pos ht]
      exact ⟨rfl,rfl,rfl,rfl,by simp⟩
  · rw [release_other hn,if_pos (head_ne hn)]
    exact ⟨rfl,rfl,rfl,rfl,by simp⟩

private theorem proclaim_refines (h : Inv f) : Refines (f.proclaim k c t v)
    (f.lines.holder f.clock k c t f.lines .valueUpdated) := by
  rw [Lines.holder]
  rcases holder_cases f k c with ⟨lk,hk,hh⟩ | hn
  · rw [if_neg (not_not.mpr (hh ▸ head_eq hk)),clock_token hk]
    by_cases ht : lk.token = t
    · have hl : (f.setLock k { lk with value := v }).locks.lookup k = some { lk with value := v } :=
        AList.lookup_insert _
      rw [proclaim_holder h hk hh ht,if_neg (not_not.mpr ht)]
      refine ⟨?_,rfl,rfl,rfl,by simp⟩
      rw [lines_edit (setValue_edit f k _),FSM.line_of_lookup hl]
      have he : ({ lk with value := v } : Lock).line = f.lines.line k := (line_cons hk).symm
      rw [he,Waitlist.put_line]
    · rw [proclaim_stale h hk hh ht,if_pos ht]
      exact ⟨rfl,rfl,rfl,rfl,by simp⟩
  · rw [proclaim_other hn,if_pos (head_ne hn)]
    exact ⟨rfl,rfl,rfl,rfl,by simp⟩

private theorem cancelWait_refines (h : Inv f) :
    Refines (f.cancelWait k c) (f.lines.step f.clock (.cancelWait k c)) := by
  rw [Lines.step]
  cases hk : f.locks.lookup k with
  | none =>
    rw [cancelWait_idle (fun lk hl => by rw [hk] at hl; cases hl),line_nil hk]
    exact ⟨rfl,rfl,rfl,rfl,by simp⟩
  | some lk =>
    rw [line_cons hk]
    by_cases hq : c ∈ lk.queue.map Waiter.clientID
    · obtain ⟨ls,hc⟩ := h.lease_of_mem hk (List.mem_cons_of_mem _ hq)
      simp only [hq,if_true]
      rw [cancelWait_found hk hq]
      refine ⟨?_,rfl,rfl,rfl,by simp⟩
      rw [lines_edit (cut_edit hc),FSM.line_of_lookup (cut_lock hc),Lock.line,dequeue_clients]
      rfl
    · simp only [hq,if_false]
      rw [cancelWait_idle (fun lk' hl => by cases hk.symm.trans hl; exact hq)]
      exact ⟨rfl,rfl,rfl,rfl,by simp⟩

/-- A dropped lease takes its client out of every line and keeps the order of the rest. -/
theorem dropLease_lines (h : Inv f) (hc : f.leases.lookup c = some ls) :
    (f.dropLease c ls).1.lines = f.lines.withdraw c := by
  have hd := dropLease_spec h hc
  apply Waitlist.ext_line
  · intro a
    change (f.dropLease c ls).1.line a = (f.line a).filter (· ≠ c)
    cases hk : f.locks.lookup a with
    | none => rw [FSM.line_of_absent hk,FSM.line_of_absent (hd.absent hk)]; rfl
    | some lk =>
      have hnd := (h.locks hk).distinct
      rw [FSM.line_of_lookup hk]
      by_cases hh : lk.holder = c
      · obtain ⟨n,_,_,hl⟩ := hd.taken hk hh
        have hnq := h.holder_not_queued hk
        rw [FSM.line,hl,next_line,Lock.line,List.filter_cons_of_neg (by simpa using hh)]
        symm
        apply List.filter_eq_self.mpr
        intro d hdq
        have hne : d ≠ c := by
          rintro rfl
          exact hnq (hh ▸ hdq)
        simpa using hne
      · rw [FSM.line_of_lookup (hd.left hk hh),Lock.line,dequeue_clients,Lock.line,
          List.filter_cons_of_pos (by simpa using hh),(List.nodup_cons.mp hnd).2.erase_eq_filter]
        exact congrArg _ (List.filter_congr (fun d _ => by simp [bne,beq_eq_decide]))
  · intro d
    change d ∈ (f.dropLease c ls).1.leases ↔ d ∈ f.leases ∧ d ∉ ({c} : Set Str)
    by_cases hdc : d = c
    · subst hdc
      simp [AList.lookup_eq_none.mp hd.gone]
    · have hr := hd.times hdc
      simp only [KeyedMap.mem_iff_lookup,Set.mem_singleton_iff,hdc,not_false_eq_true,and_true]
      generalize f.leases.lookup d = a, (f.dropLease c ls).1.leases.lookup d = b at hr
      cases hr <;> simp

private theorem drop_refines (h : Inv f) (hc : f.leases.lookup c = some ls) (o : Outcome) (r : CommandResult)
    (hr : r.Carries { outcome := o }) (evs : List Event) :
    Refines ⟨(f.dropLease c ls).1,r,evs⟩ (f.lines.leave c o) := by
  rw [Lines.leave,if_pos (mem_members hc)]
  exact ⟨dropLease_lines h hc,hr⟩

private theorem setLease_lines (f : FSM) (c : Str) (ls : Lease) : (f.setLease c ls).lines = f.lines.enrol c := by
  apply Waitlist.ext_line
  · intro a; rfl
  · intro d; exact AList.mem_insert _

private theorem enrol_mem (hc : f.leases.lookup c = some ls) : f.lines.enrol c = f.lines := by
  apply Waitlist.ext_line
  · intro a; rfl
  · intro d
    refine ⟨fun hd => hd.elim (fun he => he ▸ mem_members hc) id,fun hd => .inr hd⟩

/-- Every command does to the lines what the abstract step does. -/
theorem dispatch_refines (h : Inv f) (cmd : Command) : Refines (f.dispatch cmd) (f.lines.step f.clock cmd) := by
  cases cmd with
  | acquireLock name c tryLock => exact acquire_refines h tryLock
  | campaign name c value => exact acquire_refines h false
  | releaseLock name c token => exact release_refines h
  | resign name c token => exact release_refines h
  | proclaim name c token value => exact proclaim_refines h
  | cancelWait name c => exact cancelWait_refines h
  | leaseGrant c ttlMS now => exact ⟨setLease_lines f c _,rfl,rfl,rfl,by simp [Lines.step]⟩
  | leaseKeepAlive c now =>
    cases hc : f.leases.lookup c with
    | none =>
      simp only [FSM.dispatch,FSM.leaseKeepAlive,hc,Lines.step,if_neg (not_mem_members hc)]
      exact ⟨rfl,rfl,rfl,rfl,by simp⟩
    | some ls =>
      simp only [FSM.dispatch,FSM.leaseKeepAlive,hc,Lines.step,if_pos (mem_members hc)]
      exact ⟨(setLease_lines f c _).trans (enrol_mem hc),rfl,rfl,rfl,by simp⟩
  | leaseRevoke c =>
    cases hc : f.leases.lookup c with
    | none =>
      simp only [FSM.dispatch,FSM.leaseRevoke,hc,Lines.step,Lines.leave,if_neg (not_mem_members hc)]
      exact ⟨rfl,rfl,rfl,rfl,by simp⟩
    | some ls =>
      simp only [FSM.dispatch,FSM.leaseRevoke,hc,Lines.step]
      exact drop_refines h hc _ _ ⟨rfl,rfl,rfl,by simp⟩ _
  | leaseExpire c now =>
    cases hc : f.leases.lookup c with
    | none =>
      simp only [FSM.dispatch,FSM.leaseExpire,hc,Lines.step,Lines.leave,if_neg (not_mem_members hc)]
      rw [if_neg (fun hm => not_mem_members hc hm.1)]
      exact ⟨rfl,rfl,rfl,rfl,by simp⟩
    | some ls =>
      have hdue : f.clock.due c now ↔ ¬ now < ls.expireAt := by
        simp [FSM.clock,hc]
      simp only [FSM.dispatch,FSM.leaseExpire,hc,Lines.step]
      by_cases hn : now < ls.expireAt
      · rw [if_pos hn,if_pos ⟨mem_members hc,fun hd => hdue.mp hd hn⟩]
        exact ⟨rfl,rfl,rfl,rfl,by simp⟩
      · rw [if_neg hn,if_neg (fun hm => hm.2 (hdue.mpr hn))]
        exact drop_refines h hc _ _ ⟨rfl,rfl,rfl,by simp⟩ _

/-- The state machine refines the line specification along every log: the empty
shard has empty lines, and each further command moves the lines as specified and
is answered as specified. A granted client is then the head of
the line, under the token it was told. -/
theorem apply_refines_lines (notifier : Bool) (log : List Command) (hlog : ∀ cmd ∈ log, cmd.Named)
    (cmd : Command) :
    let f := (new notifier).run log
    let out := f.step cmd
    (new notifier).lines = ⟨fun _ => [],∅⟩ ∧
    out.fsm.lines = (f.lines.step f.clock cmd).1 ∧
    out.result.Carries (f.lines.step f.clock cmd).2 ∧
    (out.result.outcome = .granted → ∀ k c, cmd.asks = some (k,c) →
      out.fsm.hold k = some (c,out.result.fencingToken)) := by
  intro f out
  have h := (run_inv (inv_new notifier) hlog).bump
  refine ⟨?_,?_⟩
  · apply Waitlist.ext_line
    · intro k; rfl
    · intro c
      exact ⟨fun hc => (AList.notMem_empty c hc).elim,fun hc => hc.elim⟩
  · obtain ⟨hl,hr⟩ := dispatch_refines h cmd
    refine ⟨hl,hr,?_⟩
    intro ho k c hk
    cases cmd with
    | acquireLock name d tryLock => cases hk; exact acquire_granted_hold h tryLock ho
    | campaign name d value => cases hk; exact acquire_granted_hold h false ho
    | _ => cases hk

/-- A second client asks for a held key. -/
theorem second_client_joins_line :
    let log : List Command := [.leaseGrant (str "a") 5 0,.leaseGrant (str "b") 5 0,.acquireLock (str "k") (str "a") false]
    let f := (new true).run log
    let out := f.step (.acquireLock (str "k") (str "b") false)
    out.fsm.lines = (f.lines.step f.clock (.acquireLock (str "k") (str "b") false)).1 ∧
    out.result.outcome = .queued ∧ out.fsm.line (str "k") = [str "a",str "b"] :=
  ⟨(apply_refines_lines true _ (by decide) _).2.1,by decide,by decide⟩

end Zuul.Fsm
