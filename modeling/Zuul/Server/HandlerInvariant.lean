import Zuul.Server.Handler

/-! What holds at every point of a blocking call: where its acquire is in the
log, what the last recorded event says, and what the handler has seen of it. -/
namespace Zuul.Server
open Lib Fsm
variable {req : Request} {s s' : Sys} {a : Action} {n : Replica} {m : Sub} {i : Nat}

/-- A blocking call comes from a named client. -/
theorem Request.Blocking.named (h : req.Blocking) : req.client ≠ [] := by
  cases h with
  | lock _ _ _ hc => exact hc
  | campaign _ _ _ _ hc => exact hc

/-- Its command names the client too. -/
theorem Request.Blocking.command_named (h : req.Blocking) : req.command.Named := by
  cases h with
  | lock _ _ _ hc => exact hc
  | campaign _ _ _ _ hc => exact hc

/-- The acquire at position i left its client waiting. -/
structure Queued (req : Request) (log : List Command) (i : Nat) : Prop where
  asked : log[i]? = some req.command
  waits : ∀ t, (stateAt log (i + 1)).hold req.key ≠ some (req.client,t)

/-- Where the acquire of the call is, phase by phase. -/
def PhaseOk (req : Request) (log : List Command) (own : Option Nat) : Phase → Prop
  | .start | .subscribed => own = none
  | .proposed res => ∃ i, own = some i ∧ log[i]? = some req.command ∧ res = ((stateAt log i).step req.command).result
  | .confirm _ (some index) => ∃ i, own = some i ∧ Queued req log i ∧ i < index
  | .done _ => True
  | _ => ∃ i, own = some i ∧ Queued req log i

/-- Phases in which the handler has seen the slot unless a wake-up is due. -/
def Phase.Listens : Phase → Prop
  | .subscribed | .proposed _ | .parked | .confirm _ _ => True
  | _ => False

/-- The slot holds the latest notified event about the key. Once the acquire is
applied locally, it tells the current owner or the owner has not changed since. -/
structure MailOk (req : Request) (n : Replica) (own : Option Nat) (m : Sub) : Prop where
  half : m.half = true → ∃ e rest, n.outbox = e :: rest ∧ e.key = req.key ∧ m.last = e
  last : m.last = Sub.open.last ∨ (m.last.revision ≤ n.applied ∧ m.last = (n.upTo m.last.revision).report req.key)
  current : ∀ {i}, own = some i → i < n.applied → about req.key n.outbox = [] →
    (n.upTo n.applied).owner req.key = (n.upTo (i + 1)).owner req.key ∨ m.last.owner = (n.upTo n.applied).owner req.key

structure Good (req : Request) (s : Sys) : Prop where
  node : s.node.Sound
  phase : PhaseOk req s.node.log s.own s.phase
  mail : ∀ m, s.sub = some m → MailOk req s.node s.own m
  seen : s.phase.Listens → ∀ m, s.sub = some m → m.Settled (fun e => e.holder ≠ req.client)
  cancels : ∀ {j}, j ∈ s.cancels → s.node.log[j]? = some (.cancelWait req.key req.client)

private theorem lt_of_get {log : List Command} {cmd : Command} (h : log[i]? = some cmd) : i < log.length :=
  (List.getElem?_eq_some_iff.mp h).1

section Commit
variable {log : List Command} {cmd new : Command}

private theorem get_commit (h : log[i]? = some cmd) : (log ++ [new])[i]? = some cmd := by
  rw [List.getElem?_append_left (lt_of_get h),h]

private theorem Queued.commit (h : Queued req log i) : Queued req (log ++ [new]) i where
  asked := get_commit h.asked
  waits t := by
    rw [stateAt_append (lt_of_get h.asked)]
    exact h.waits t

private theorem PhaseOk.commit {own : Option Nat} {p : Phase} (h : PhaseOk req log own p) :
    PhaseOk req (log ++ [new]) own p := by
  have hq : (∃ i, own = some i ∧ Queued req log i) → ∃ i, own = some i ∧ Queued req (log ++ [new]) i := by
    rintro ⟨i,ho,hi⟩
    exact ⟨i,ho,hi.commit⟩
  match p with
  | .start | .subscribed => exact h
  | .proposed res =>
    obtain ⟨i,ho,hi,hr⟩ := h
    exact ⟨i,ho,get_commit hi,by rw [stateAt_append (lt_of_get hi).le,hr]⟩
  | .confirm _ (some index) =>
    obtain ⟨i,ho,hi,hlt⟩ := h
    exact ⟨i,ho,hi.commit,hlt⟩
  | .done _ => trivial
  | .parked | .woken | .confirm _ none | .cancelling _ _ | .leaving => exact hq h

private theorem MailOk.commit {own : Option Nat} (hs : n.Sound) (h : MailOk req n own m) :
    MailOk req (n.commit new) own m where
  half := h.half
  last := by
    rcases h.last with hz | ⟨hle,hl⟩
    · exact .inl hz
    · refine .inr ⟨hle,?_⟩
      rw [Replica.upTo_commit (hle.trans hs.applied)]
      exact hl
  current ho hi hb := by
    have ha : (n.commit new).upTo (n.commit new).applied = n.upTo n.applied := Replica.upTo_commit hs.applied
    have hle : _ + 1 ≤ n.applied := hi
    rw [ha,Replica.upTo_commit (hle.trans hs.applied)]
    exact h.current ho hi hb

/-- A commit of anyone only makes the log longer. -/
theorem Good.commit (h : Good req s) (hn : new.Named) : Good req (s.setNode (s.node.commit new)) where
  node := Replica.commit_sound h.node hn
  phase := h.phase.commit
  mail m hm := (h.mail m hm).commit h.node
  seen := h.seen
  cancels hj := get_commit (h.cancels hj)

end Commit

section Node

/-- The local replica applies an entry: what is announced about the key is due,
and otherwise its owner stayed. -/
theorem Good.apply {r : Replica} (h : Good req s) (ha : s.node.apply = some r) : Good req (s.setNode r) := by
  obtain ⟨cmd,ho,hc,rfl⟩ := Replica.apply_eq ha
  obtain ⟨hs,_,_,hown⟩ := Replica.apply_sound h.node ha
  refine ⟨hs,h.phase,fun m hm => ?_,h.seen,h.cancels⟩
  have hmail := h.mail m hm
  refine ⟨fun hh => ?_,?_,?_⟩
  · obtain ⟨e,rest,he,_⟩ := hmail.half hh
    cases ho.symm.trans he
  · rcases hmail.last with hz | ⟨hle,hl⟩
    · exact .inl hz
    · exact .inr ⟨Nat.le_succ_of_le hle,hl⟩
  · intro i hi hlt hb
    have hkeep := hown req.key hb
    rcases Nat.lt_succ_iff_lt_or_eq.mp hlt with hlt | rfl
    · have hold := hmail.current hi hlt (by rw [ho]; rfl)
      rw [← hkeep] at hold
      exact hold
    · exact .inl rfl

private theorem Good.notify (h : Good req s) (hn : s.notify req = some s') : Good req s' := by
  obtain ⟨m,e,rest,hm,ho,hk,rfl⟩ := notify_eq hn
  have he := Replica.head_report h.node ho
  rw [hk] at he
  have hrev : e.revision = s.node.applied :=
    ((congrArg Event.revision he).trans (report_describes (h.node.inv _) req.key).revision).trans
      (h.node.revision h.node.applied)
  refine ⟨h.node,h.phase,fun _ hm' => ?_,fun _ _ hm' => ?_,h.cancels⟩
  · cases hm'
    refine ⟨fun _ => ⟨e,rest,ho,hk,rfl⟩,.inr ⟨hrev.le,?_⟩,fun _ _ hb => ?_⟩
    · change e = (s.node.upTo e.revision).report req.key
      rw [hrev]
      exact he
    · have hmem : e ∈ about req.key s.node.outbox := by
        rw [ho]
        exact (ChangeLog.mem_about _).mpr ⟨List.mem_cons_self,hk⟩
      have hnil : about req.key s.node.outbox = [] := hb
      rw [hnil] at hmem
      cases hmem
  · cases hm'
    exact Mailbox.settled_record e

private theorem Good.post (h : Good req s) (hp : s.post = some s') : Good req s' := by
  obtain ⟨m,hm,hh,rfl⟩ := post_eq hp
  have hmail := h.mail m hm
  obtain ⟨e,rest,ho,hk,hl⟩ := hmail.half hh
  have he := Replica.head_report h.node ho
  refine ⟨Replica.pop_sound h.node,h.phase,fun _ hm' => ?_,fun _ _ hm' => ?_,h.cancels⟩
  · cases hm'
    refine ⟨fun hf => (by cases hf),hmail.last,fun _ _ _ => .inr ?_⟩
    change m.last.owner = (s.node.upTo s.node.applied).owner req.key
    rw [hl,he,hk]
    exact report_owner (h.node.inv _) req.key
  · cases hm'
    exact Mailbox.settled_post

private theorem Good.skip (h : Good req s) (hk : s.skip req = some s') : Good req s' := by
  obtain ⟨e,rest,ho,hg,rfl⟩ := skip_eq hk
  refine ⟨Replica.pop_sound h.node,h.phase,fun m hm => ?_,h.seen,h.cancels⟩
  have hne : e.key ≠ req.key := by
    rcases hg with hnone | hne
    · cases hnone.symm.trans hm
    · exact hne
  have hmail := h.mail m hm
  refine ⟨fun hh => ?_,hmail.last,fun ho' hi hb => ?_⟩
  · obtain ⟨e',rest',he,hk',_⟩ := hmail.half hh
    cases ho.symm.trans he
    exact (hne hk').elim
  · refine hmail.current ho' hi ?_
    have hpop := Replica.pop_about h.node ho req.key
    rw [if_neg hne] at hpop
    exact hpop.symm.trans hb

end Node

section Handler

/-- A granted call holds the key under the token it was given. -/
theorem blocking_granted {f : FSM} (hb : req.Blocking) (h : Inv f)
    (ho : (f.step req.command).result.outcome = .granted) :
    (f.step req.command).fsm.hold req.key = some (req.client,(f.step req.command).result.fencingToken) := by
  cases hb with
  | lock => exact acquire_granted_hold h.bump false ho
  | campaign => exact acquire_granted_hold h.bump false ho

private theorem blocking_queued {f : FSM} (hb : req.Blocking) (h : Inv f)
    (ho : (f.step req.command).result.outcome = .queued) (t : Nat) :
    (f.step req.command).fsm.hold req.key ≠ some (req.client,t) := by
  cases hb with
  | lock => exact acquire_queued_hold h.bump false ho t
  | campaign => exact acquire_queued_hold h.bump false ho t

private theorem Good.reply (h : Good req s) (r : Reply) : Good req (s.reply r) :=
  ⟨h.node,trivial,nofun,nofun,h.cancels⟩

/-- The handler moves on without touching the slot. -/
theorem Good.move {p : Phase} (h : Good req s) (hp : PhaseOk req s.node.log s.own p)
    (hl : p.Listens → s.phase.Listens) : Good req { s with phase := p } :=
  ⟨h.node,hp,h.mail,fun hx => h.seen (hl hx),h.cancels⟩

private theorem Good.subscribe (hb : req.Blocking) (h : Good req s) (ho : s.own = none) :
    Good req { s with sub := some .open, phase := .subscribed } := by
  refine ⟨h.node,ho,fun m hm => ?_,fun _ m hm => ?_,h.cancels⟩
  · cases hm
    refine ⟨nofun,.inl rfl,fun hi => ?_⟩
    cases ho.symm.trans hi
  · cases hm
    exact Mailbox.settled_of_last hb.named.symm

/-- The acquire goes to the end of the log, which the local replica has not reached. -/
theorem Good.propose (hb : req.Blocking) (h : Good req s) (hl : s.phase.Listens) : Good req (s.propose req) := by
  have hc := h.commit hb.command_named
  refine ⟨hc.node,?_,fun m hm => ?_,fun _ => h.seen hl,hc.cancels⟩
  · refine ⟨s.node.log.length,rfl,?_,?_⟩
    · exact List.getElem?_concat_length
    · have hs : stateAt (s.node.log ++ [req.command]) s.node.log.length = s.node.full := stateAt_append (Nat.le_refl _) _
      change _ = ((stateAt (s.node.log ++ [req.command]) s.node.log.length).step req.command).result
      rw [hs]
  · have hmail := hc.mail m hm
    refine ⟨hmail.half,hmail.last,fun hi hlt => ?_⟩
    cases hi
    exact (Nat.not_lt.mpr h.node.applied hlt).elim

private theorem Good.answer {res : CommandResult} (hb : req.Blocking) (h : Good req s) (hp : s.phase = .proposed res) :
    Good req (s.answer req res) := by
  have hph := h.phase
  rw [hp] at hph
  obtain ⟨i,ho,hi,hr⟩ := hph
  rw [Sys.answer]
  split
  · exact h.reply _
  · exact h.reply _
  · rename_i hq
    refine h.move ⟨i,ho,hi,fun t => ?_⟩ (fun _ => by rw [hp]; trivial)
    rw [stateAt_succ hi]
    rw [hr] at hq
    exact blocking_queued hb (h.node.inv i) hq t
  · exact h.reply _

private theorem Good.take (h : Good req s) (hm : s.sub = some m) (hp : PhaseOk req s.node.log s.own .woken) :
    Good req { s with sub := some { m with wake := false }, phase := .woken } := by
  have hmail := h.mail m hm
  refine ⟨h.node,hp,fun m' hm' => ?_,nofun,h.cancels⟩
  cases hm'
  exact ⟨hmail.half,hmail.last,hmail.current⟩

/-- An event that does not name the client was seen. -/
theorem Good.read (h : Good req s) (hm : s.sub = some m) (hp : s.phase = .woken) : Good req (s.read req m.last) := by
  have hph := h.phase
  rw [hp] at hph
  rw [Sys.read]
  split
  · exact h.reply _
  · rename_i hne
    refine ⟨h.node,hph,h.mail,fun _ m' hm' => ?_,h.cancels⟩
    cases hm.symm.trans hm'
    exact Mailbox.settled_of_last hne

private theorem Good.unconfirmed (h : Good req s) (hl : s.phase.Listens)
    (hq : ∃ i, s.own = some i ∧ Queued req s.node.log i)
    (expired : Bool) : Good req (s.unconfirmed expired) := by
  cases expired with
  | true => exact h.move hq nofun
  | false => exact h.move hq (fun _ => hl)

private theorem Good.confirmed (h : Good req s) (hl : s.phase.Listens)
    (hq : ∃ i, s.own = some i ∧ Queued req s.node.log i)
    (expired : Bool) (st : Status) : Good req (s.confirmed req expired st) := by
  rw [Sys.confirmed]
  split
  · exact h.reply _
  · exact h.unconfirmed hl hq expired

private theorem Good.cancel (hb : req.Blocking) (h : Good req s) (hq : ∃ i, s.own = some i ∧ Queued req s.node.log i)
    (attempt : Nat) : Good req (s.cancel req attempt) := by
  have hn : (Command.cancelWait req.key req.client).Named := hb.named
  have hc := h.commit hn
  obtain ⟨i,ho,hi⟩ := hq
  refine ⟨hc.node,⟨i,ho,hi.commit⟩,hc.mail,nofun,fun {j} hj => ?_⟩
  rcases List.mem_cons.mp hj with rfl | hj
  · exact List.getElem?_concat_length
  · exact hc.cancels hj

private theorem Good.retry (h : Good req s) (hq : ∃ i, s.own = some i ∧ Queued req s.node.log i) (attempt : Nat) :
    Good req (s.retry attempt) := by
  rw [Sys.retry]
  split
  · exact h.move hq nofun
  · exact h.move hq nofun

private theorem Good.leave (h : Good req s) (alive : Bool) : Good req (s.leave req alive) := by
  rw [Sys.leave]
  split
  · exact h.reply _
  · exact h.reply _

end Handler

/-- Every step of the node, of other parties and of the handler keeps the invariant. -/
theorem next_good (hb : req.Blocking) (h : Good req s) (ha : Env s a) (hn : s.next req a = some s') : Good req s' := by
  have hph := h.phase
  cases next_step hn with
  | commit cmd => exact h.commit ha
  | apply hr => exact h.apply hr
  | notify hn => exact h.notify hn
  | post hn => exact h.post hn
  | skip hn => exact h.skip hn
  | subscribe hp =>
    rw [hp] at hph
    exact h.subscribe hb hph
  | propose hp =>
    refine h.propose hb ?_
    rcases hp with hp | ⟨res,hp⟩
    · rw [hp]; trivial
    · rw [hp]; trivial
  | proposeFail _ => exact h.reply _
  | answer hp => exact h.answer hb hp
  | take hm _ hp =>
    rw [hp] at hph
    exact h.take hm hph
  | read hm hp => exact h.read hm hp
  | readIndex hp =>
    rw [hp] at hph
    obtain ⟨i,ho,hi⟩ := hph
    exact h.move ⟨i,ho,hi,lt_of_get hi.asked⟩ (fun _ => by rw [hp]; trivial)
  | readStatus hp _ _ =>
    rw [hp] at hph
    obtain ⟨i,ho,hi,_⟩ := hph
    exact h.confirmed (by rw [hp]; trivial) ⟨i,ho,hi⟩ _ _
  | @readFail expired index hp =>
    refine h.unconfirmed (by rw [hp]; trivial) ?_ expired
    rw [hp] at hph
    cases index with
    | none => exact hph
    | some index =>
      obtain ⟨i,ho,hi,_⟩ := hph
      exact ⟨i,ho,hi⟩
  | expire hp =>
    rw [hp] at hph
    exact h.move hph (fun _ => by rw [hp]; trivial)
  | cancel hp =>
    rw [hp] at hph
    exact h.cancel hb hph _
  | cancelAnswer hp | cancelGiveUp hp =>
    rw [hp] at hph
    exact h.move hph nofun
  | cancelFail hp =>
    rw [hp] at hph
    exact h.retry hph _
  | leave alive hp => exact h.leave alive

/-- The invariant holds before anything has happened. -/
theorem good_init : Good req {} := ⟨Replica.sound_init,rfl,nofun,nofun,nofun⟩

/-- The invariant holds in every run of a blocking call. -/
theorem reaches_good (hb : req.Blocking) {ok : Sys → Action → Prop} (hok : ∀ s a, ok s a → Env s a)
    (h : Reaches req ok s) : Good req s :=
  h.rule good_init (fun _ _ _ hg ha => next_good hb hg (hok _ _ ha))

end Zuul.Server
