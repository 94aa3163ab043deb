import Zuul.Fsm.Places
import Zuul.Server.HandlerInvariant

/-! What a blocking call may tell its caller, and what it sleeps through. -/
namespace Zuul.Server
open Lib Fsm
variable {req : Request} {s s' : Sys} {a : Action} {m : Sub} {i j : Nat}

section Parked

private theorem hold_of_owner {f g : FSM} {k : Str} (h : f.owner k = g.owner k) : f.hold k = g.hold k := by
  have ho : ∀ x : FSM, x.hold k = (x.owner k).map (fun o => (o.1,o.2.1)) := by
    intro x
    rw [FSM.hold,FSM.owner,Option.map_map]
    rfl
  rw [ho f,ho g,h]

private theorem hold_of_event {f : FSM} {k c : Str} {t : Nat} {e : Event} (h : e.owner = f.owner k)
    (hk : f.hold k = some (c,t)) : e.holder = c := by
  obtain ⟨lk,hl,rfl,_⟩ := FSM.hold_eq_some.mp hk
  rw [FSM.owner_of_lookup hl,Event.owner] at h
  split at h
  · cases h
  · exact (Prod.mk.inj (Option.some.inj h)).1

/-- A handler that is parked with nothing on its way to it is not the holder. The
last event it looked at is the current one, or nothing about the key changed
since its acquire was queued. -/
theorem parked_not_holder (hb : req.Blocking) (h : Reaches req Env s) (hp : s.phase = .parked) (hm : s.sub = some m)
    (hw : m.wake = false) (hh : m.half = false) (ha : s.node.applied = s.node.log.length)
    (ho : s.node.outbox = []) (t : Nat) : s.node.full.hold req.key ≠ some (req.client,t) := by
  have hg := reaches_good hb (fun _ _ => id) h
  have hph := hg.phase
  rw [hp] at hph
  obtain ⟨i,hi,hq⟩ := hph
  have hseen : m.last.holder ≠ req.client := hg.seen (by rw [hp]; trivial) m hm hw hh
  have hlt : i < s.node.applied := by
    rw [ha]
    exact (List.getElem?_eq_some_iff.mp hq.asked).1
  rw [Replica.full,← ha]
  rcases (hg.mail m hm).current hi hlt (by rw [ho]; rfl) with he | he
  · rw [hold_of_owner he]
    exact hq.waits t
  · exact fun hk => hseen (hold_of_event he hk)

/-- The client b waits behind a; it saw the grant of a, and a still holds the key. -/
theorem parked_behind_holder :
    let req := lockRequest (str "k") (str "b") true
    let as : List Action := [.commit (.leaseGrant (str "a") 5 0),.commit (.leaseGrant (str "b") 5 0),
      .commit (.acquireLock (str "k") (str "a") false),.subscribe,.propose,.answer,
      .apply,.apply,.apply,.notify,.post,.take,.read,.readFail,.apply]
    ∃ s, exec (Sys.next req) Env {} as = some s ∧ s.phase = .parked ∧
      ∀ t, s.node.full.hold (str "k") ≠ some (str "b",t) := by
  intro req as
  let s := (exec (Sys.next req) Env {} as).getD {}
  have he : exec (Sys.next req) Env {} as = some s := by decide +kernel
  have hp : s.phase = .parked := by decide +kernel
  have hm : s.sub = some ⟨⟨str "k",str "a",1,none,3⟩,false,false⟩ := by decide +kernel
  have ha : s.node.applied = s.node.log.length := by decide +kernel
  have ho : s.node.outbox = [] := by decide +kernel
  have hr : Reaches req Env s := exec_reaches .init he
  clear_value s
  refine ⟨s,he,hp,?_⟩
  exact parked_not_holder (.lock _ _ _ (by decide)) hr hp hm rfl rfl ha ho

end Parked

section Cancelled

/-- After a cancellation of the call the client is out of the line exactly if it
was not the holder when the cancellation was applied: CancelWait dequeues a
waiter and never releases a holder. -/
theorem cancelled_leaves_line_iff (hb : req.Blocking) (h : Reaches req Env s) (hj : j ∈ s.cancels) :
    req.client ∉ (s.node.upTo (j + 1)).line req.key ↔ ∀ t, (s.node.upTo j).hold req.key ≠ some (req.client,t) := by
  have hg := reaches_good hb (fun _ _ => id) h
  rw [Replica.upTo_succ (hg.cancels hj)]
  exact cancelWait_line (hg.node.inv j).bump req.key req.client

/-- The holder a releases between the confirming read and the cancellation of b:
the call reports not acquired, and b holds the key. -/
theorem timeout_strands_promotion :
    let req := lockRequest (str "k") (str "b") true
    let as : List Action := [.commit (.leaseGrant (str "a") 5 0),.commit (.leaseGrant (str "b") 5 0),
      .commit (.acquireLock (str "k") (str "a") false),.subscribe,.propose,.answer,.expire,.readIndex,
      .apply,.apply,.apply,.notify,.post,.apply,.readStatus,.commit (.releaseLock (str "k") (str "a") 1),
      .cancel,.cancelAnswer,.leave true]
    ∃ s, Reaches req Env s ∧ exec (Sys.next req) Env {} as = some s ∧
      s.phase = .done (.ok { acquired := false, key := str "k" }) ∧ s.cancels = [5] ∧
      (s.node.upTo 6).hold (str "k") = some (str "b",3) ∧ str "b" ∈ (s.node.upTo 6).line (str "k") := by
  intro req as
  let s := (exec (Sys.next req) Env {} as).getD {}
  have he : exec (Sys.next req) Env {} as = some s := by decide +kernel
  exact ⟨s,exec_reaches .init he,he,by decide +kernel,by decide +kernel,by decide +kernel,by decide +kernel⟩

/-- The same call when a keeps the key: b is out of the line. -/
theorem timeout_leaves_line :
    let req := lockRequest (str "k") (str "b") true
    let as : List Action := [.commit (.leaseGrant (str "a") 5 0),.commit (.leaseGrant (str "b") 5 0),
      .commit (.acquireLock (str "k") (str "a") false),.subscribe,.propose,.answer,.expire,.readFail,
      .cancel,.cancelAnswer,.leave true]
    ∃ s, exec (Sys.next req) Env {} as = some s ∧ s.phase = .done (.ok { acquired := false, key := str "k" }) ∧
      str "b" ∉ (s.node.upTo 5).line (str "k") := by
  intro req as
  let s := (exec (Sys.next req) Env {} as).getD {}
  have he : exec (Sys.next req) Env {} as = some s := by decide +kernel
  have hold : (s.node.upTo 4).hold (str "k") = some (str "a",1) := by decide +kernel
  refine ⟨s,he,by decide +kernel,(cancelled_leaves_line_iff (.lock _ _ _ (by decide)) (exec_reaches .init he)
    (j := 4) (by decide +kernel)).mpr (fun t => ?_)⟩
  rw [show (s.node.upTo 4).hold req.key = some (str "a",1) from hold]
  exact fun hc => absurd (Prod.mk.inj (Option.some.inj hc)).1 (by decide)

end Cancelled

section Success

/-- A reported success is an acquisition of this call: in a state after the
commit of its own acquire the client held the key under the reported token. -/
def Honest (req : Request) (s : Sys) : Prop :=
  ∀ r, s.phase = .done (.ok r) → r.acquired = true →
    ∃ i j, s.own = some i ∧ i < j ∧ j ≤ s.node.log.length ∧ (s.node.upTo j).hold req.key = some (req.client,r.token)

/-- When the handler reads an event that names its client, the event is newer
than its own acquire. -/
def Fresh (req : Request) (s : Sys) : Action → Prop
  | .read => ∀ m ∈ s.sub, ∀ i ∈ s.own, m.last.holder = req.client → i + 1 < m.last.revision
  | a => Env s a

instance (req : Request) (s : Sys) (a : Action) : Decidable (Fresh req s a) :=
  match a with
  | .read => inferInstanceAs (Decidable (∀ m ∈ s.sub, ∀ i ∈ s.own, m.last.holder = req.client → i + 1 < m.last.revision))
  | .commit cmd => inferInstanceAs (Decidable cmd.Named)
  | .apply | .notify | .post | .skip | .subscribe | .propose | .proposeFail | .answer | .take | .readIndex
  | .readStatus | .readFail | .expire | .cancel | .cancelAnswer | .cancelFail | .cancelGiveUp | .leave _ => .isTrue trivial

private theorem Fresh.env (h : Fresh req s a) : Env s a := by
  cases a with
  | read => trivial
  | _ => exact h

private theorem Honest.frame (h : Honest req s) (hf : Frame s s') : Honest req s' := by
  intro r hp hr
  obtain ⟨i,j,hi,hij,hj,hold⟩ := h r (hf.phase.symm.trans hp) hr
  obtain ⟨more,hm⟩ := hf.log
  refine ⟨i,j,hf.own.trans hi,hij,?_,?_⟩
  · rw [hm,List.length_append]
    exact hj.trans (Nat.le_add_right _ _)
  · rw [Replica.upTo,hm,stateAt_append hj]
    exact hold

/-- The response a call has answered with. -/
def Phase.response : Phase → Option Response
  | .done (.ok r) => some r
  | _ => none

private theorem honest_of_phase (h : s.phase.response = none) : Honest req s := by
  intro r hp
  rw [hp] at h
  cases h

private theorem answer_honest {res : CommandResult} (hb : req.Blocking) (hg : Good req s)
    (hp : s.phase = .proposed res) : Honest req (s.answer req res) := by
  have hph := hg.phase
  rw [hp] at hph
  obtain ⟨i,ho,hi,hr⟩ := hph
  rw [Sys.answer]
  split
  · rename_i hgr
    rintro r hd _
    cases hd
    refine ⟨i,i + 1,ho,Nat.lt_succ_self i,(List.getElem?_eq_some_iff.mp hi).1,?_⟩
    have hs : (s.reply (.ok ⟨true,res.lockKey,res.fencingToken,res.revision⟩)).node.upTo (i + 1) =
        ((stateAt s.node.log i).step req.command).fsm := stateAt_succ hi
    rw [hs,hr]
    exact blocking_granted hb (hg.node.inv i) (hr ▸ hgr)
  · exact honest_of_phase rfl
  · exact honest_of_phase rfl
  · exact honest_of_phase rfl

private theorem event_hold (hb : req.Blocking) (hg : Good req s) (hm : s.sub = some m)
    (hl : m.last.holder = req.client) : m.last.revision ≤ s.node.log.length ∧
      (s.node.upTo m.last.revision).hold req.key = some (req.client,m.last.token) := by
  rcases (hg.mail m hm).last with hz | ⟨hle,he⟩
  · rw [hz] at hl
    exact (hb.named hl.symm).elim
  · refine ⟨hle.trans hg.node.applied,?_⟩
    have hd := report_describes (hg.node.inv m.last.revision) req.key
    rw [← he] at hd
    have hkey : m.last.key = req.key := (congrArg Event.key he).trans (report_key _ _)
    cases hk : (s.node.upTo m.last.revision).locks.lookup req.key with
    | none =>
      rw [← hkey] at hk
      exact (hb.named (hl.symm.trans (hd.absent.mp hk).1)).elim
    | some lk =>
      rw [FSM.hold_of_lookup hk]
      rw [← hkey] at hk
      obtain ⟨h1,h2,_⟩ := hd.present hk
      rw [← h1,← h2,hl]

private theorem read_honest (hb : req.Blocking) (hg : Good req s) (hm : s.sub = some m) (hp : s.phase = .woken)
    (hf : Fresh req s .read) : Honest req (s.read req m.last) := by
  have hph := hg.phase
  rw [hp] at hph
  obtain ⟨i,ho,_⟩ := hph
  rw [Sys.read]
  split
  · rename_i hl
    rintro r hd _
    cases hd
    obtain ⟨hle,hold⟩ := event_hold hb hg hm hl
    exact ⟨i,m.last.revision,ho,(Nat.lt_succ_self i).trans (hf m hm i ho hl),hle,hold⟩
  · exact honest_of_phase rfl

private theorem confirmed_honest (hg : Good req s) {expired : Bool} {index : Nat}
    (hp : s.phase = .confirm expired (some index)) (hi : index ≤ s.node.applied) :
    Honest req (s.confirmed req expired ((s.node.upTo s.node.applied).status req.key)) := by
  -- a linearizable read sees a state after the acquire
  have hph := hg.phase
  rw [hp] at hph
  obtain ⟨i,ho,_,hlt⟩ := hph
  rw [Sys.confirmed]
  split
  · rename_i hst
    rintro r hd _
    cases hd
    refine ⟨i,s.node.applied,ho,hlt.trans_le hi,hg.node.applied,?_⟩
    have hold := status_hold hst.1
    rw [hst.2] at hold
    exact hold
  · rw [Sys.unconfirmed]
    cases expired with
    | true => exact honest_of_phase rfl
    | false => exact honest_of_phase rfl

private theorem next_honest (hb : req.Blocking) (hg : Good req s) (h : Honest req s) (ha : Fresh req s a)
    (hn : s.next req a = some s') : Honest req s' := by
  cases next_step hn with
  | commit cmd => exact h.frame ⟨rfl,rfl,[cmd],rfl⟩
  | apply hr => exact h.frame (apply_frame hr)
  | notify hr => exact h.frame (notify_frame hr)
  | post hr => exact h.frame (post_frame hr)
  | skip hr => exact h.frame (skip_frame hr)
  | answer hp => exact answer_honest hb hg hp
  | read hm hp => exact read_honest hb hg hm hp ha
  | readStatus hp hi _ => exact confirmed_honest hg hp hi
  | @readFail expired _ _ =>
    cases expired with
    | true => exact honest_of_phase rfl
    | false => exact honest_of_phase rfl
  | @cancelFail attempt _ _ =>
    rw [Sys.retry]
    split
    · exact honest_of_phase rfl
    · exact honest_of_phase rfl
  | leave alive _ =>
    rw [Sys.leave]
    split
    · intro r hd hr
      cases hd
      cases hr
    · exact honest_of_phase rfl
  | _ => exact honest_of_phase rfl

private theorem stale_never_held (hg : Good req s) (hq : Queued req s.node.log i) {n t : Nat} (hn : n ≤ i + 1)
    (hold : (s.node.upTo n).hold req.key = some (req.client,t)) (hij : i < j) :
    (s.node.upTo j).hold req.key ≠ some (req.client,t) := by
  -- tokens are not given out twice
  have advance : ∀ {x y : Nat}, x ≤ y → (s.node.upTo x).fence.Advances (s.node.upTo y).fence := by
    intro x y hxy
    obtain ⟨d,rfl⟩ := Nat.exists_eq_add_of_le hxy
    have hs : s.node.upTo (x + d) = (s.node.upTo x).run ((s.node.log.drop x).take d) := by
      rw [Replica.upTo,Replica.upTo,stateAt,stateAt,← FSM.run_append,List.take_add]
    rw [hs]
    exact run_advances (hg.node.inv x) (fun cmd hm => hg.node.named cmd (List.mem_of_mem_drop (List.mem_of_mem_take hm)))
  have ht : t ≤ (s.node.upTo (i + 1)).seq := (fence_bounded (hg.node.inv n) hold).trans (advance hn).counter
  exact (advance hij).never_returns (hq.waits t) ht

/-- A blocking call reports a real acquisition of its own in every run in which it
reads no event that names its client and is older than its own acquire. A read
of such an event makes it report a hold that was over when it asked. -/
theorem success_is_real (hb : req.Blocking) :
    (∀ s, Reaches req (Fresh req) s → Honest req s) ∧
    ∀ s s', Reaches req Env s → ¬ Fresh req s .read → s.next req .read = some s' → ¬ Honest req s' := by
  refine ⟨fun s h => ?_,fun s s' h hf hn hon => ?_⟩
  · induction h with
    | init => exact honest_of_phase rfl
    | step h ha hn ih => exact next_honest hb (reaches_good hb (fun _ _ => Fresh.env) h) ih ha hn
  · have hg := reaches_good hb (fun _ _ => id) h
    cases next_step hn with
    | @read m hm hp =>
      have hph := hg.phase
      rw [hp] at hph
      obtain ⟨i,ho,hq⟩ := hph
      simp only [Fresh,not_forall] at hf
      obtain ⟨m',hm',i',hi',hl,hle⟩ := hf
      cases hm.symm.trans hm'
      cases ho.symm.trans hi'
      obtain ⟨_,hold⟩ := event_hold hb hg hm hl
      rw [Sys.read,if_pos hl] at hon
      obtain ⟨i',j,hi',hij,_,hk⟩ := hon _ rfl rfl
      cases ho.symm.trans hi'
      exact stale_never_held hg hq (Nat.not_lt.mp hle) hold hij hk

/-- A call of c that is promoted while it waits and reads of it in time. -/
theorem promoted_call_is_real :
    let req := lockRequest (str "k") (str "c") true
    let as : List Action := [.commit (.leaseGrant (str "d") 5 0),.commit (.leaseGrant (str "c") 5 0),
      .commit (.acquireLock (str "k") (str "d") false),.subscribe,.propose,.answer,
      .commit (.releaseLock (str "k") (str "d") 1),.apply,.apply,.apply,.notify,.post,.apply,.apply,.notify,
      .take,.read]
    ∃ s, exec (Sys.next req) (Fresh req) {} as = some s ∧ s.phase = .done (.ok ⟨true,str "k",3,5⟩) ∧ Honest req s := by
  intro req as
  let s := (exec (Sys.next req) (Fresh req) {} as).getD {}
  have he : exec (Sys.next req) (Fresh req) {} as = some s := by decide +kernel
  exact ⟨s,he,by decide +kernel,(success_is_real (.lock _ _ _ (by decide))).1 s (exec_reaches .init he)⟩

/-- The replica of the node lags: c held k under token 1 and released it, d took
it, and c asks again and is queued. The event of the old hold then arrives. -/
theorem old_hold_reported :
    let req := lockRequest (str "k") (str "c") true
    let as : List Action := [.commit (.leaseGrant (str "c") 5 0),.commit (.acquireLock (str "k") (str "c") false),
      .commit (.releaseLock (str "k") (str "c") 1),.commit (.leaseGrant (str "d") 5 0),
      .commit (.acquireLock (str "k") (str "d") false),.subscribe,.propose,.answer,
      .apply,.apply,.notify,.post,.take,.read]
    ∃ s, Reaches req Env s ∧ exec (Sys.next req) Env {} as = some s ∧ s.phase = .done (.ok ⟨true,str "k",1,2⟩) ∧
      s.own = some 5 ∧ s.node.log.length = 6 ∧ s.node.full.hold (str "k") = some (str "d",2) ∧ ¬ Honest req s := by
  intro req as
  let s := (exec (Sys.next req) Env {} as).getD {}
  have he : exec (Sys.next req) Env {} as = some s := by decide +kernel
  have hown : s.own = some 5 := by decide +kernel
  have hlen : s.node.log.length = 6 := by decide +kernel
  have hp : s.phase = .done (.ok ⟨true,str "k",1,2⟩) := by decide +kernel
  refine ⟨s,exec_reaches .init he,he,hp,hown,hlen,by decide +kernel,fun hon => ?_⟩
  obtain ⟨i,j,hi,hij,hj,hk⟩ := hon _ hp rfl
  cases hown.symm.trans hi
  have hj6 : j = 6 := by omega
  subst hj6
  revert hk
  decide

end Success
end Zuul.Server
