import Mathlib.Data.List.Forall2
import Zuul.Server.Handler

/-! An Observe stream on one node, with the shard it watches: a subscription, one
linearizable read, and then whatever the subscription delivers. -/
namespace Zuul.Server.Observe
open Lib Fsm

structure LeaderEvent where
  hasLeader : Bool
  leaderClientID : Str
  fencingToken : Nat
  value : Bytes
  revision : Nat
  deriving DecidableEq, Repr

def statusToLeaderEvent (st : Status) : LeaderEvent := ⟨st.held,st.holder,st.token,st.value,st.revision⟩

def eventToLeaderEvent (e : Event) : LeaderEvent := ⟨e.holder != [],e.holder,e.token,e.value,e.revision⟩

/-- The ownership record a leader event shows. -/
def LeaderEvent.owner (e : LeaderEvent) : Option (Str × Nat × Bytes) :=
  if e.hasLeader then some (e.leaderClientID,e.fencingToken,e.value) else none

/-- Where the handler is. The read first learns the commit index. -/
inductive Phase where
  | start
  | subscribed
  | reading (index : Nat)
  | sending (e : LeaderEvent)
  | waiting
  | woken
  | ended
  deriving DecidableEq, Repr

/-- The node's replica of the shard, the subscription, the handler and what it sent. -/
structure Sys where
  node : Replica := {}
  sub : Option Sub := none
  phase : Phase := .start
  sent : List LeaderEvent := []
  deriving DecidableEq

inductive Action where
  | commit (cmd : Command)
  | apply | notify | post | skip
  | subscribe | readIndex | readStatus | send | take | read | stop
  deriving DecidableEq

namespace Sys

/-- Hub.Notify reaches the subscription: signal records the event. -/
def notify (key : Str) (s : Sys) : Option Sys :=
  match s.sub, s.node.outbox with
  | some m, e :: _ => if m.half = false ∧ e.key = key then some { s with sub := some (m.record e) } else none
  | _, _ => none

/-- Signal posts the wake token and Notify returns. -/
def post (s : Sys) : Option Sys :=
  match s.sub with
  | some m => if m.half then some { s with sub := some m.post, node := s.node.pop } else none
  | none => none

/-- Hub.Notify of an event that does not concern the stream. -/
def skip (key : Str) (s : Sys) : Option Sys :=
  match s.node.outbox with
  | [] => none
  | e :: _ => if s.sub = none ∨ e.key ≠ key then some { s with node := s.node.pop } else none

/-- One step of anyone; none when it is not possible now. A failed read or send and a
client that goes away all end the stream. -/
def next (key : Str) (s : Sys) (a : Action) : Option Sys :=
  match a, s.phase with
  | .commit cmd, _ => some { s with node := s.node.commit cmd }
  | .apply, _ => s.node.apply.map (fun r => { s with node := r })
  | .notify, _ => s.notify key
  | .post, _ => s.post
  | .skip, _ => s.skip key
  | .subscribe, .start => some { s with sub := some .open, phase := .subscribed }
  | .readIndex, .subscribed => some { s with phase := .reading s.node.log.length }
  | .readStatus, .reading index =>
    -- the read waits for the replica and for the Apply that holds its lock
    if index ≤ s.node.applied ∧ s.node.outbox = [] then
      some { s with phase := .sending (statusToLeaderEvent ((s.node.upTo s.node.applied).status key)) }
    else none
  | .send, .sending e => some { s with sent := s.sent ++ [e], phase := .waiting }
  | .take, .waiting => s.sub.bind (fun m => m.take.map (fun m => { s with sub := some m, phase := .woken }))
  | .read, .woken => s.sub.map (fun m => { s with phase := .sending (eventToLeaderEvent m.last) })
  | .stop, _ => some { s with sub := none, phase := .ended }
  | _, _ => none

end Sys

variable {key : Str} {s s' : Sys} {a : Action} {m : Sub} {r : Replica}

/-- The possible steps. -/
inductive Step (key : Str) (s : Sys) : Action → Sys → Prop where
  | commit (cmd : Command) : Step key s (.commit cmd) { s with node := s.node.commit cmd }
  | apply {r : Replica} (h : s.node.apply = some r) : Step key s .apply { s with node := r }
  | notify {m : Sub} {e : Event} {rest : List Event} (hm : s.sub = some m) (ho : s.node.outbox = e :: rest)
      (hk : e.key = key) : Step key s .notify { s with sub := some (m.record e) }
  | post {m : Sub} (hm : s.sub = some m) (hh : m.half = true) :
      Step key s .post { s with sub := some m.post, node := s.node.pop }
  | skip {e : Event} {rest : List Event} (ho : s.node.outbox = e :: rest) (hk : s.sub = none ∨ e.key ≠ key) :
      Step key s .skip { s with node := s.node.pop }
  | subscribe (hp : s.phase = .start) : Step key s .subscribe { s with sub := some .open, phase := .subscribed }
  | readIndex (hp : s.phase = .subscribed) : Step key s .readIndex { s with phase := .reading s.node.log.length }
  | readStatus {index : Nat} (hp : s.phase = .reading index) (hi : index ≤ s.node.applied)
      (ho : s.node.outbox = []) : Step key s .readStatus
        { s with phase := .sending (statusToLeaderEvent ((s.node.upTo s.node.applied).status key)) }
  | send {e : LeaderEvent} (hp : s.phase = .sending e) :
      Step key s .send { s with sent := s.sent ++ [e], phase := .waiting }
  | take {m : Sub} (hm : s.sub = some m) (hw : m.wake = true) (hp : s.phase = .waiting) :
      Step key s .take { s with sub := some { m with wake := false }, phase := .woken }
  | read {m : Sub} (hm : s.sub = some m) (hp : s.phase = .woken) :
      Step key s .read { s with phase := .sending (eventToLeaderEvent m.last) }
  | stop : Step key s .stop { s with sub := none, phase := .ended }

private theorem next_step (h : s.next key a = some s') : Step key s a s' := by
  unfold Sys.next at h
  split at h
  case h_2 =>
    obtain ⟨r,hr,rfl⟩ := Option.map_eq_some_iff.mp h
    exact .apply hr
  case h_3 =>
    unfold Sys.notify at h
    split at h
    · rename_i m e _ hm ho
      split_ifs at h with hg
      cases h
      exact .notify hm ho hg.2
    · cases h
  case h_4 =>
    unfold Sys.post at h
    split at h
    · rename_i m hm
      split_ifs at h with hh
      cases h
      exact .post hm hh
    · cases h
  case h_5 =>
    unfold Sys.skip at h
    split at h
    · cases h
    · rename_i e _ ho
      split_ifs at h with hg
      cases h
      exact .skip ho hg
  case h_8 hp =>
    split_ifs at h with hg
    cases h
    exact .readStatus hp hg.1 hg.2
  case h_10 hp =>
    obtain ⟨m,hm,h⟩ := Option.bind_eq_some_iff.mp h
    obtain ⟨m',ht,rfl⟩ := Option.map_eq_some_iff.mp h
    rw [Mailbox.take] at ht
    split_ifs at ht with hw
    cases ht
    exact .take hm hw hp
  case h_11 hp =>
    obtain ⟨m,hm,rfl⟩ := Option.map_eq_some_iff.mp h
    exact .read hm hp
  all_goals cases h
  all_goals constructor
  all_goals assumption

/-- Other parties only commit commands of named clients. -/
def Env (_ : Sys) : Action → Prop
  | .commit cmd => cmd.Named
  | _ => True

instance (s : Sys) (a : Action) : Decidable (Env s a) :=
  match a with
  | .commit cmd => inferInstanceAs (Decidable cmd.Named)
  | .apply | .notify | .post | .skip | .subscribe | .readIndex | .readStatus | .send | .take | .read | .stop =>
    .isTrue trivial

/-- Runs from the empty shard whose steps all satisfy ok. -/
abbrev Reaches (key : Str) (ok : Sys → Action → Prop) : Sys → Prop := Lib.Reaches (Sys.next key) ok {}

section Mail

/-- The position in the log up to which the subscription has been signalled: the Apply
in progress may have its event about the key still to record. -/
def signalled (key : Str) (r : Replica) (m : Sub) : Nat :=
  if about key r.outbox = [] ∨ m.half = true then r.applied else r.applied - 1

/-- An event that shows the owner of the key from its revision on, up to position n. -/
structure Shows (key : Str) (r : Replica) (n : Nat) (e : Event) : Prop where
  revision : e.revision ≤ n
  owner : ∀ i, e.revision ≤ i → i ≤ n → (r.upTo i).owner key = e.owner

/-- What is in the slot of a subscription. An event that is due for delivery, as are
all while the reader is awake, shows the owner as far as it has been signalled. -/
structure MailOk (key : Str) (r : Replica) (awake : Prop) (m : Sub) : Prop where
  half : m.half = true → ∃ rest, r.outbox = m.last :: rest ∧ m.last.key = key
  shows : m.wake = true ∨ m.half = true ∨ awake → Shows key r (signalled key r m) m.last

variable {awake : Prop}

private theorem MailOk.of_due {awake' : Prop} (h : MailOk key r awake m)
    (hd : awake' → m.wake = true ∨ m.half = true ∨ awake) : MailOk key r awake' m :=
  ⟨h.half,fun hd' => h.shows (hd'.elim .inl (fun hd' => hd'.elim (fun hh => .inr (.inl hh)) hd))⟩

private theorem signalled_le : signalled key r m ≤ r.applied := by
  unfold signalled
  split <;> omega

private theorem MailOk.commit {cmd : Command} (hs : r.Sound) (h : MailOk key r awake m) :
    MailOk key (r.commit cmd) awake m where
  half := h.half
  shows hd := by
    refine ⟨(h.shows hd).revision,fun i hi hn => ?_⟩
    rw [Replica.upTo_commit ((Nat.le_trans hn signalled_le).trans hs.applied)]
    exact (h.shows hd).owner i hi hn

private theorem upTo_of_log {r' : Replica} (h : r'.log = r.log) (i : Nat) : r'.upTo i = r.upTo i := by
  rw [Replica.upTo,Replica.upTo,h]

/-- An Apply only begins once all events of the last one are signalled. -/
theorem MailOk.apply {r' : Replica} (hs : r.Sound) (ha : r.apply = some r') (h : MailOk key r awake m) :
    MailOk key r' awake m ∧ signalled key r m ≤ signalled key r' m := by
  obtain ⟨-,hlog,happ,hkeep⟩ := Replica.apply_sound hs ha
  obtain ⟨_,ho,-,-⟩ := Replica.apply_eq ha
  have hnot : ¬ m.half = true := fun hh => by
    obtain ⟨_,he,_⟩ := h.half hh
    cases ho.symm.trans he
  have hsig : signalled key r m = r.applied := if_pos (.inl (by rw [ho]; rfl))
  by_cases hb : about key r'.outbox = []
  · have hsig' : signalled key r' m = r.applied + 1 := (if_pos (.inl hb)).trans happ
    refine ⟨⟨fun hh => absurd hh hnot,fun hd => ?_⟩,by omega⟩
    have hold := h.shows hd
    rw [hsig] at hold
    rw [hsig']
    refine ⟨Nat.le_succ_of_le hold.revision,fun i hi hn => ?_⟩
    rcases Nat.le_succ_iff.mp hn with hn | rfl
    · rw [upTo_of_log hlog]
      exact hold.owner i hi hn
    · have hk := hkeep key hb
      rw [happ] at hk
      rw [hk]
      exact hold.owner _ hold.revision le_rfl
  · have hsig' : signalled key r' m = r.applied := by
      rw [signalled,if_neg (not_or_intro hb hnot),happ,Nat.add_sub_cancel]
    refine ⟨⟨fun hh => absurd hh hnot,fun hd => ?_⟩,by omega⟩
    have hold := h.shows hd
    rw [hsig] at hold
    rw [hsig']
    exact ⟨hold.revision,fun i hi hn => by rw [upTo_of_log hlog]; exact hold.owner i hi hn⟩

/-- The event that is recorded shows the key as the replica has it now. -/
theorem MailOk.notify {e : Event} {rest : List Event} (hs : r.Sound) (ho : r.outbox = e :: rest) (hk : e.key = key) :
    MailOk key r awake (m.record e) ∧ signalled key r (m.record e) = r.applied ∧ e.revision = r.applied := by
  have he := Replica.head_report hs ho
  rw [hk] at he
  have hrev : e.revision = r.applied := by
    rw [he,(report_describes (hs.inv _) key).revision,hs.revision hs.applied]
  have hsig : signalled key r (m.record e) = r.applied := if_pos (.inr rfl)
  refine ⟨⟨fun _ => ⟨rest,ho,hk⟩,fun _ => ?_⟩,hsig,hrev⟩
  rw [hsig]
  refine ⟨hrev.le,fun i hi hn => ?_⟩
  obtain rfl : i = r.applied := Nat.le_antisymm hn (hrev ▸ hi)
  rw [← report_owner (hs.inv _) key,← he]
  rfl

private theorem MailOk.post (hs : r.Sound) (hh : m.half = true) (h : MailOk key r awake m) :
    MailOk key r.pop awake m.post ∧ signalled key r.pop m.post = signalled key r m := by
  obtain ⟨rest,ho,hk⟩ := h.half hh
  have hsig : signalled key r m = r.applied := if_pos (.inr hh)
  have hsig' : signalled key r.pop m.post = r.applied :=
    if_pos (.inl ((Replica.pop_about hs ho key).trans (if_pos hk)))
  refine ⟨⟨fun hp => (by cases hp),fun _ => ?_⟩,hsig'.trans hsig.symm⟩
  have hold := h.shows (.inr (.inl hh))
  rw [hsig] at hold
  rw [hsig']
  exact ⟨hold.revision,hold.owner⟩

private theorem MailOk.skip {e : Event} {rest : List Event} (hs : r.Sound) (ho : r.outbox = e :: rest)
    (hk : e.key ≠ key)
    (h : MailOk key r awake m) : MailOk key r.pop awake m ∧ signalled key r.pop m = signalled key r m := by
  have hsig : signalled key r.pop m = signalled key r m := by
    rw [signalled,signalled,(Replica.pop_about hs ho key).trans (if_neg hk)]
    rfl
  refine ⟨⟨fun hh => ?_,fun hd => ?_⟩,hsig⟩
  · obtain ⟨_,he,hke⟩ := h.half hh
    cases ho.symm.trans he
    exact absurd hke hk
  · rw [hsig]
    exact ⟨(h.shows hd).revision,(h.shows hd).owner⟩

end Mail

section Order
variable {log : List Command} {n : Nat} {es : List LeaderEvent} {e : LeaderEvent}

/-- Each event shows the owner the key had at some position of the log, not after n,
and the positions never go back. -/
def Forward (key : Str) (log : List Command) (n : Nat) (es : List LeaderEvent) : Prop :=
  ∃ ps, List.Forall₂ (fun e p => (stateAt log p).owner key = e.owner ∧ p ≤ n) es ps ∧ ps.Pairwise (· ≤ ·)

private theorem Forward.nil : Forward key log n [] := ⟨[],.nil,.nil⟩

private theorem Forward.mono {n' : Nat} (h : Forward key log n es) (more : List Command) (hl : n ≤ log.length)
    (hn : n ≤ n') : Forward key (log ++ more) n' es := by
  obtain ⟨ps,hps,hsort⟩ := h
  refine ⟨ps,hps.imp (fun e p ⟨ho,hp⟩ => ⟨?_,hp.trans hn⟩),hsort⟩
  rw [stateAt_append (hp.trans hl)]
  exact ho

private theorem positions_le {ps : List Nat}
    (h : List.Forall₂ (fun e p => (stateAt log p).owner key = e.owner ∧ p ≤ n) es ps) : ∀ p ∈ ps, p ≤ n := by
  induction h with
  | nil => exact fun p hp => by cases hp
  | cons h _ ih => exact List.forall_mem_cons.mpr ⟨h.2,ih⟩

/-- The next event shows the owner at n itself. -/
theorem Forward.snoc (h : Forward key log n es) (ho : (stateAt log n).owner key = e.owner) :
    Forward key log n (es ++ [e]) := by
  obtain ⟨ps,hps,hsort⟩ := h
  refine ⟨ps ++ [n],List.rel_append hps (.cons ⟨ho,le_rfl⟩ .nil),List.pairwise_append.mpr ⟨hsort,by simp,?_⟩⟩
  intro p hp q hq
  rw [List.mem_singleton.mp hq]
  exact positions_le hps p hp

private theorem Forward.left {es' : List LeaderEvent} (h : Forward key log n (es ++ es')) : Forward key log n es := by
  obtain ⟨ps,hps,hsort⟩ := h
  have ht := List.forall₂_take es.length hps
  rw [List.take_left] at ht
  exact ⟨ps.take es.length,ht,hsort.sublist (List.take_sublist ..)⟩

/-- What the handler is about to send. -/
def Phase.held : Phase → List LeaderEvent
  | .sending e => [e]
  | _ => []

/-- The status has not been read yet. -/
def Phase.Early : Phase → Prop
  | .start | .subscribed | .reading _ => True
  | _ => False

def Sys.out (s : Sys) : List LeaderEvent := s.sent ++ s.phase.held

/-- The position in the log up to which the stream can have heard of changes. -/
def Sys.mark (key : Str) (s : Sys) : Nat := (s.sub.map (signalled key s.node)).getD s.node.applied

structure Good (key : Str) (s : Sys) : Prop where
  node : s.node.Sound
  early : s.phase.Early → s.sent = []
  mail : ∀ m, s.sub = some m → MailOk key s.node (s.phase = .woken) m
  out : Forward key s.node.log (s.mark key) s.out
  low : ∀ e ∈ s.out, e.revision ≤ s.node.applied

private theorem Sys.out_of_held (h : s.phase.held = []) : s.out = s.sent := by rw [Sys.out,h,List.append_nil]

private theorem mark_le : s.mark key ≤ s.node.applied := by
  unfold Sys.mark
  cases s.sub with
  | none => exact le_rfl
  | some m => exact signalled_le

private theorem mark_of_sub (h : s.sub = some m) : s.mark key = signalled key s.node m := by
  rw [Sys.mark,h]
  rfl

private theorem Good.carry {node : Replica} {sub : Option Sub} (h : Good key s) (more : List Command)
    (hs : node.Sound) (hlog : node.log = s.node.log ++ more) (happ : s.node.applied ≤ node.applied)
    (hmark : s.mark key ≤ (sub.map (signalled key node)).getD node.applied)
    (hmail : ∀ m, sub = some m → MailOk key node (s.phase = .woken) m) :
    Good key { s with node := node, sub := sub } where
  node := hs
  early := h.early
  mail := hmail
  out := by
    change Forward key node.log _ s.out
    rw [hlog]
    exact h.out.mono more (mark_le.trans h.node.applied) hmark
  low e he := (h.low e he).trans happ

private theorem Good.commit {cmd : Command} (h : Good key s) (hn : cmd.Named) :
    Good key { s with node := s.node.commit cmd } :=
  h.carry [cmd] (Replica.commit_sound h.node hn) rfl le_rfl le_rfl (fun m hm => (h.mail m hm).commit h.node)

private theorem Good.apply (h : Good key s) (ha : s.node.apply = some r) : Good key { s with node := r } := by
  obtain ⟨hs,hlog,happ,-⟩ := Replica.apply_sound h.node ha
  refine h.carry [] hs (by rw [hlog,List.append_nil]) (by omega) ?_ (fun m hm => ((h.mail m hm).apply h.node ha).1)
  cases hm : s.sub with
  | none =>
    rw [Sys.mark,hm]
    exact (Nat.le_succ _).trans_eq happ.symm
  | some m =>
    rw [mark_of_sub hm]
    exact ((h.mail m hm).apply h.node ha).2

private theorem Good.notify {e : Event} {rest : List Event} (h : Good key s) (ho : s.node.outbox = e :: rest)
    (hk : e.key = key) : Good key { s with sub := some (m.record e) } := by
  obtain ⟨hmail,hsig,-⟩ : MailOk key s.node (s.phase = .woken) (m.record e) ∧ _ := MailOk.notify h.node ho hk
  refine h.carry [] h.node (List.append_nil _).symm le_rfl ?_ (fun m' hm' => by cases hm'; exact hmail)
  exact mark_le.trans_eq hsig.symm

private theorem Good.post (h : Good key s) (hm : s.sub = some m) (hh : m.half = true) :
    Good key { s with sub := some m.post, node := s.node.pop } := by
  obtain ⟨hmail,hsig⟩ := (h.mail m hm).post h.node hh
  refine h.carry [] (Replica.pop_sound h.node) (List.append_nil _).symm le_rfl ?_
    (fun m' hm' => by cases hm'; exact hmail)
  rw [mark_of_sub hm]
  exact hsig.ge

private theorem Good.skip {e : Event} {rest : List Event} (h : Good key s) (ho : s.node.outbox = e :: rest)
    (hk : s.sub = none ∨ e.key ≠ key) : Good key { s with node := s.node.pop } := by
  have hmail (m : Sub) (hm : s.sub = some m) := (h.mail m hm).skip h.node ho (hk.resolve_left (by simp [hm]))
  refine h.carry [] (Replica.pop_sound h.node) (List.append_nil _).symm le_rfl ?_ (fun m hm => (hmail m hm).1)
  cases hm : s.sub with
  | none =>
    rw [Sys.mark,hm]
    exact le_rfl
  | some m =>
    rw [mark_of_sub hm]
    exact (hmail m hm).2.ge

private theorem Good.move {phase : Phase} {sent : List LeaderEvent} (h : Good key s)
    (hearly : phase.Early → sent = []) (hwoken : phase ≠ .woken)
    (hout : Forward key s.node.log (s.mark key) (sent ++ phase.held))
    (hlow : ∀ e ∈ sent ++ phase.held, e.revision ≤ s.node.applied) :
    Good key { s with phase := phase, sent := sent } where
  node := h.node
  early := hearly
  mail m hm := (h.mail m hm).of_due (fun hw => absurd hw hwoken)
  out := hout
  low := hlow

private theorem Good.subscribe (h : Good key s) (hp : s.phase = .start) :
    Good key { s with sub := some .open, phase := .subscribed } := by
  have hsent : s.sent = [] := h.early (by rw [hp]; trivial)
  have hopen : MailOk key s.node (Phase.subscribed = .woken) .open :=
    ⟨fun hh => (by cases hh),fun hd => by rcases hd with hd | hd | hd <;> cases hd⟩
  refine ⟨h.node,fun _ => hsent,fun m hm => by cases hm; exact hopen,?_,fun e he => ?_⟩
  · change Forward key s.node.log _ (s.sent ++ [])
    rw [hsent]
    exact Forward.nil
  · change e ∈ s.sent ++ [] at he
    rw [hsent] at he
    cases he

private theorem Good.readIndex (h : Good key s) (hp : s.phase = .subscribed) :
    Good key { s with phase := .reading s.node.log.length } := by
  have hsent : s.sent = [] := h.early (by rw [hp]; trivial)
  refine h.move (fun _ => hsent) (fun hw => by cases hw) ?_ (fun e he => ?_)
  · rw [hsent]
    exact Forward.nil
  · rw [hsent] at he
    cases he

private theorem revision_of_status (f : FSM) (k : Str) : (f.status k).revision = f.revision := by
  rw [FSM.status]
  split
  · rfl
  · split <;> rfl

private theorem Good.status_revision (h : Good key s) :
    ((s.node.upTo s.node.applied).status key).revision = s.node.applied :=
  (revision_of_status _ key).trans (h.node.revision h.node.applied)

private theorem Good.readStatus {index : Nat} (h : Good key s) (hp : s.phase = .reading index)
    (ho : s.node.outbox = []) :
    Good key { s with phase := .sending (statusToLeaderEvent ((s.node.upTo s.node.applied).status key)) } := by
  have hsent : s.sent = [] := h.early (by rw [hp]; trivial)
  have hmark : s.mark key = s.node.applied := by
    cases hm : s.sub with
    | none =>
      rw [Sys.mark,hm]
      rfl
    | some m =>
      rw [mark_of_sub hm]
      exact if_pos (.inl (by rw [ho]; rfl))
  refine h.move (fun he => he.elim) (fun hw => by cases hw) ?_ (fun e he => ?_)
  · rw [hsent]
    refine Forward.nil.snoc ?_
    rw [hmark]
    exact (status_owner (h.node.inv s.node.applied) key).symm
  · rw [hsent] at he
    obtain rfl := List.mem_singleton.mp he
    exact h.status_revision.le

private theorem Good.send (h : Good key s) (hp : s.phase = .sending e) :
    Good key { s with sent := s.sent ++ [e], phase := .waiting } := by
  have hout : s.out = s.sent ++ [e] := by rw [Sys.out,hp]; rfl
  refine h.move (fun he => he.elim) (fun hw => by cases hw) ?_ ?_
  · change Forward key s.node.log _ (s.sent ++ [e] ++ [])
    rw [List.append_nil,← hout]
    exact h.out
  · change ∀ e' ∈ s.sent ++ [e] ++ [],_
    rw [List.append_nil,← hout]
    exact h.low

private theorem Good.take (h : Good key s) (hm : s.sub = some m) (hw : m.wake = true) (hp : s.phase = .waiting) :
    Good key { s with sub := some { m with wake := false }, phase := .woken } := by
  have hout : s.out = s.sent := Sys.out_of_held (by rw [hp]; rfl)
  have hmail := h.mail m hm
  refine ⟨h.node,fun he => he.elim,fun m' hm' => ?_,?_,?_⟩
  · cases hm'
    exact ⟨hmail.half,fun _ => hmail.shows (.inl hw)⟩
  · change Forward key s.node.log (signalled key s.node m) (s.sent ++ [])
    rw [List.append_nil,← hout,← mark_of_sub hm]
    exact h.out
  · change ∀ e ∈ s.sent ++ [],_
    rw [List.append_nil,← hout]
    exact h.low

private theorem Good.read (h : Good key s) (hm : s.sub = some m) (hp : s.phase = .woken) :
    Good key { s with phase := .sending (eventToLeaderEvent m.last) } := by
  have hout : s.out = s.sent := Sys.out_of_held (by rw [hp]; rfl)
  have hshow := (h.mail m hm).shows (.inr (.inr hp))
  refine h.move (fun he => he.elim) (fun hw => by cases hw) ?_ (fun e he => ?_)
  · rw [← hout]
    refine h.out.snoc ?_
    rw [mark_of_sub hm]
    refine (hshow.owner _ hshow.revision le_rfl).trans ?_
    simp [Event.owner,LeaderEvent.owner,eventToLeaderEvent]
  · rcases List.mem_append.mp he with he | he
    · exact h.low e (hout ▸ he)
    · obtain rfl := List.mem_singleton.mp he
      exact hshow.revision.trans signalled_le

private theorem Good.stop (h : Good key s) : Good key { s with sub := none, phase := .ended } where
  node := h.node
  early he := he.elim
  mail _ hm := by cases hm
  out := by
    have hleft : Forward key s.node.log (s.mark key) s.sent := h.out.left
    have hmono := hleft.mono [] (mark_le.trans h.node.applied) mark_le
    change Forward key s.node.log s.node.applied (s.sent ++ [])
    rwa [List.append_nil] at hmono ⊢
  low e he := by
    change e ∈ s.sent ++ [] at he
    rw [List.append_nil] at he
    exact h.low e (List.mem_append_left _ he)

private theorem next_good (h : Good key s) (ha : Env s a) (hn : s.next key a = some s') : Good key s' := by
  cases next_step hn with
  | commit cmd => exact h.commit ha
  | apply hr => exact h.apply hr
  | notify _ ho hk => exact h.notify ho hk
  | post hm hh => exact h.post hm hh
  | skip ho hk => exact h.skip ho hk
  | subscribe hp => exact h.subscribe hp
  | readIndex hp => exact h.readIndex hp
  | readStatus hp _ ho => exact h.readStatus hp ho
  | send hp => exact h.send hp
  | take hm hw hp => exact h.take hm hw hp
  | read hm hp => exact h.read hm hp
  | stop => exact h.stop

private theorem good_init : Good key {} where
  node := Replica.sound_init
  early _ := rfl
  mail _ hm := by cases hm
  out := Forward.nil
  low _ he := by cases he

private theorem reaches_good {ok : Sys → Action → Prop} (hok : ∀ s a, ok s a → Env s a) (h : Reaches key ok s) :
    Good key s :=
  h.rule good_init (fun s a _ hg ha hn => next_good hg (hok s a ha) hn)

/-- At the status read, an event that waits in the subscription is of the last entry
the replica has applied. -/
def Fresh (s : Sys) : Action → Prop
  | .readStatus => ∀ m ∈ s.sub, m.wake = true → m.last.revision = s.node.applied
  | _ => True

/-- Revisions so far, and those of the events due for delivery, do not decrease. -/
structure InOrder (s : Sys) : Prop where
  sorted : (s.out.map LeaderEvent.revision).Pairwise (· ≤ ·)
  due : ∀ m, s.sub = some m → m.wake = true ∨ m.half = true ∨ s.phase = .woken →
    ∀ e ∈ s.out, e.revision ≤ m.last.revision

private theorem InOrder.of_nil (h : s.out = []) : InOrder s := by
  refine ⟨?_,fun m _ _ e he => ?_⟩
  · rw [h]
    exact .nil
  · rw [h] at he
    cases he

private theorem InOrder.of_out (h : InOrder s) (ho : s'.out = s.out)
    (hd : ∀ m', s'.sub = some m' → m'.wake = true ∨ m'.half = true ∨ s'.phase = .woken →
      ∃ m, s.sub = some m ∧ m.last = m'.last ∧ (m.wake = true ∨ m.half = true ∨ s.phase = .woken)) : InOrder s' := by
  refine ⟨ho ▸ h.sorted,fun m' hm' hdue => ?_⟩
  obtain ⟨m,hm,hlast,hdue⟩ := hd m' hm' hdue
  rw [ho,← hlast]
  exact h.due m hm hdue

private theorem InOrder.readStatus {index : Nat} (hg : Good key s) (hp : s.phase = .reading index)
    (ho : s.node.outbox = []) (hf : Fresh s .readStatus) :
    InOrder { s with phase := .sending (statusToLeaderEvent ((s.node.upTo s.node.applied).status key)) } := by
  have hsent : s.sent = [] := hg.early (by rw [hp]; trivial)
  refine ⟨?_,fun m hm hdue e he => ?_⟩
  · change ((s.sent ++ [_]).map LeaderEvent.revision).Pairwise _
    rw [hsent]
    exact List.pairwise_singleton ..
  change e ∈ s.sent ++ [_] at he
  rw [hsent] at he
  obtain rfl := List.mem_singleton.mp he
  rcases hdue with hw | hh | hw
  · exact (hg.status_revision.trans (hf m hm hw).symm).le
  · obtain ⟨_,he,_⟩ := (hg.mail m hm).half hh
    cases ho.symm.trans he
  · cases hw

private theorem InOrder.read (h : InOrder s) (hm : s.sub = some m) (hp : s.phase = .woken) :
    InOrder { s with phase := .sending (eventToLeaderEvent m.last) } := by
  have hout : s.out = s.sent := Sys.out_of_held (by rw [hp]; rfl)
  have hle := h.due m hm (.inr (.inr hp))
  rw [hout] at hle
  refine ⟨?_,fun m' hm' _ e he => ?_⟩
  · change ((s.sent ++ [_]).map LeaderEvent.revision).Pairwise _
    rw [List.map_append,List.pairwise_append]
    refine ⟨hout ▸ h.sorted,List.pairwise_singleton ..,fun n hn n' hn' => ?_⟩
    obtain ⟨e,he,rfl⟩ := List.mem_map.mp hn
    rw [List.mem_singleton.mp hn']
    exact hle e he
  · cases hm.symm.trans hm'
    rcases List.mem_append.mp he with he | he
    · exact hle e he
    · rw [List.mem_singleton.mp he]
      exact le_rfl

private theorem next_inOrder (hg : Good key s) (h : InOrder s) (hf : Fresh s a) (hn : s.next key a = some s') :
    InOrder s' := by
  have hearly (he : s.phase.Early) : s.sent ++ [] = [] := by rw [hg.early he,List.append_nil]
  cases next_step hn with
  | commit cmd => exact ⟨h.sorted,h.due⟩
  | apply hr => exact ⟨h.sorted,h.due⟩
  | @notify m e _ hm ho hk =>
    obtain ⟨-,-,hrev⟩ : MailOk key s.node True (m.record e) ∧ _ := MailOk.notify hg.node ho hk
    refine ⟨h.sorted,fun m' hm' _ e' he' => ?_⟩
    cases hm'
    exact (hg.low e' he').trans_eq hrev.symm
  | @post m hm hh => exact h.of_out rfl (fun m' hm' _ => ⟨m,hm,by cases hm'; rfl,.inr (.inl hh)⟩)
  | skip ho hk => exact ⟨h.sorted,h.due⟩
  | subscribe hp => exact .of_nil (hearly (by rw [hp]; trivial))
  | readIndex hp => exact .of_nil (hearly (by rw [hp]; trivial))
  | readStatus hp _ ho => exact .readStatus hg hp ho hf
  | @send e hp =>
    refine h.of_out ?_ (fun m hm hd => ⟨m,hm,rfl,hd.imp_right (Or.imp_right (fun hw => by cases hw))⟩)
    rw [Sys.out,Sys.out,hp]
    exact List.append_nil _
  | @take m hm hw hp =>
    refine h.of_out ?_ (fun m' hm' _ => ⟨m,hm,by cases hm'; rfl,.inl hw⟩)
    rw [Sys.out,Sys.out,hp]
    rfl
  | read hm hp => exact h.read hm hp
  | stop =>
    refine ⟨?_,fun m hm => by cases hm⟩
    change ((s.sent ++ []).map LeaderEvent.revision).Pairwise _
    rw [List.append_nil]
    refine h.sorted.sublist (List.Sublist.map _ ?_)
    exact List.sublist_append_left ..

instance (s : Sys) (a : Action) : Decidable (Fresh s a) :=
  match a with
  | .readStatus => inferInstanceAs (Decidable (∀ m ∈ s.sub, m.wake = true → m.last.revision = s.node.applied))
  | .commit _ | .apply | .notify | .post | .skip | .subscribe | .readIndex | .send | .take | .read | .stop =>
    .isTrue trivial

private theorem stale_delivered {t : Sys} (hg : Good key s) (ht : s.next key .readStatus = some t)
    (hm : s.sub = some m) (hw : m.wake = true) :
    ∃ u, exec (Sys.next key) Env t [.send,.take,.read,.send] = some u ∧
      u.sent.map LeaderEvent.revision = [s.node.applied,m.last.revision] := by
  cases next_step ht with
  | @readStatus index hp hi ho =>
    have hsent : s.sent = [] := hg.early (by rw [hp]; trivial)
    generalize hst : statusToLeaderEvent ((s.node.upTo s.node.applied).status key) = st
    have htake : Sys.next key { s with sent := s.sent ++ [st], phase := .waiting } .take =
        some { s with sub := some { m with wake := false }, sent := s.sent ++ [st], phase := .woken } := by
      change s.sub.bind _ = _
      rw [hm,Option.bind_some,Mailbox.take,if_pos hw]
      rfl
    refine ⟨_,(exec_of_next trivial rfl).trans ((exec_of_next trivial htake).trans ((exec_of_next trivial rfl).trans
      ((exec_of_next trivial rfl).trans rfl))),?_⟩
    rw [hsent,← hg.status_revision,← hst]
    rfl

/-- What a stream sends shows owners of the key in the order of the log, always. Its
revisions do not decrease in a run whose status read is fresh, and can decrease after
any status read that is not. -/
theorem observe_in_order (key : Str) :
    (∀ s, Reaches key Env s → Forward key s.node.log s.node.log.length s.sent) ∧
    (∀ s, Reaches key (fun s a => Env s a ∧ Fresh s a) s → (s.sent.map LeaderEvent.revision).Pairwise (· ≤ ·)) ∧
    ∀ s t, Reaches key Env s → s.next key .readStatus = some t → ¬ Fresh s .readStatus →
      ∃ as u, exec (Sys.next key) Env t as = some u ∧ ¬ (u.sent.map LeaderEvent.revision).Pairwise (· ≤ ·) := by
  refine ⟨fun s h => ?_,fun s h => ?_,fun s t h ht hf => ?_⟩
  · have hg := reaches_good (fun _ _ ha => ha) h
    have hleft : Forward key s.node.log (s.mark key) s.sent := hg.out.left
    have hle : s.mark key ≤ s.node.log.length := mark_le.trans hg.node.applied
    simpa using hleft.mono [] hle hle
  · have hi : Good key s ∧ InOrder s := by
      refine h.rule (I := fun s => Good key s ∧ InOrder s) ⟨good_init,.of_nil rfl⟩ ?_
      rintro s a s' ⟨hg,ho⟩ ⟨ha,hf⟩ hn
      exact ⟨next_good hg ha hn,next_inOrder hg ho hf hn⟩
    refine hi.2.sorted.sublist (List.Sublist.map _ ?_)
    exact List.sublist_append_left ..
  · have hg := reaches_good (fun _ _ ha => ha) h
    simp only [Fresh,Option.mem_def,not_forall] at hf
    obtain ⟨m,hm,hw,hne⟩ := hf
    obtain ⟨u,hu,hsent⟩ := stale_delivered hg ht hm hw
    refine ⟨_,u,hu,?_⟩
    have hle := (((hg.mail m hm).shows (.inl hw)).revision).trans signalled_le
    rw [hsent,List.pairwise_pair]
    omega

/-- A stream on a key that is taken after the status read. -/
theorem fresh_observe_in_order :
    let k := str "k"
    let as : List Action := [.subscribe,.readIndex,.readStatus,.send,.commit (.leaseGrant (str "a") 5 0),.apply,
      .commit (.acquireLock k (str "a") false),.apply,.notify,.post,.take,.read,.send]
    ∃ s, exec (Sys.next k) (fun s a => Env s a ∧ Fresh s a) {} as = some s ∧
      s.sent.map LeaderEvent.owner = [none,some (str "a",1,none)] ∧
      (s.sent.map LeaderEvent.revision).Pairwise (· ≤ ·) := by
  intro k as
  let s := (exec (Sys.next k) (fun s a => Env s a ∧ Fresh s a) {} as).getD {}
  have he : exec (Sys.next k) (fun s a => Env s a ∧ Fresh s a) {} as = some s := by decide +kernel
  exact ⟨s,he,by decide +kernel,(observe_in_order k).2.1 s (exec_reaches .init he)⟩

/-- The key is taken before the status read and something else happens in the shard:
the status has the later revision and goes first. -/
theorem observed_revision_decreases :
    let k := str "k"
    let as : List Action := [.subscribe,.commit (.leaseGrant (str "a") 5 0),.apply,
      .commit (.acquireLock k (str "a") false),.apply,.notify,.post,.commit (.leaseGrant (str "b") 5 0),.apply,
      .readIndex,.readStatus,.send,.take,.read,.send]
    ∃ s, exec (Sys.next k) Env {} as = some s ∧ s.sent.map LeaderEvent.revision = [3,2] ∧
      s.sent.map LeaderEvent.owner = [some (str "a",1,none),some (str "a",1,none)] := by
  intro k as
  let s := (exec (Sys.next k) Env {} as).getD {}
  have he : exec (Sys.next k) Env {} as = some s := by decide +kernel
  exact ⟨s,he,by decide +kernel,by decide +kernel⟩

end Order
end Zuul.Server.Observe
