import Zuul.Lib.Mailbox
import Zuul.Lib.Runs
import Zuul.Server.Replica

/-! A blocking Lock or Campaign call on one node, with the shard it runs against.
Both handlers take the same steps; they differ in the command they propose. -/
namespace Zuul.Server
open Lib Fsm

/-- What the call was sent with. A positive wait deadline makes the wait bounded. -/
structure Request where
  key : Str
  client : Str
  command : Command
  bounded : Bool

def lockRequest (name clientID : Str) (bounded : Bool) : Request :=
  ⟨name,clientID,.acquireLock name clientID false,bounded⟩

def campaignRequest (name clientID : Str) (value : Bytes) (bounded : Bool) : Request :=
  ⟨name,clientID,.campaign name clientID value,bounded⟩

/-- The two blocking calls, by a named client. -/
inductive Request.Blocking : Request → Prop where
  | lock (name clientID : Str) (bounded : Bool) (h : clientID ≠ []) : Blocking (lockRequest name clientID bounded)
  | campaign (name clientID : Str) (value : Bytes) (bounded : Bool) (h : clientID ≠ []) :
      Blocking (campaignRequest name clientID value bounded)

/-- LockResponse and CampaignResponse. -/
structure Response where
  acquired : Bool
  key : Str
  token : Nat := 0
  revision : Nat := 0
  deriving DecidableEq, Repr

inductive Failure where
  | propose
  | noLiveLease (client : Str)
  | unexpectedOutcome (o : Outcome)
  | wait
  deriving DecidableEq, Repr

inductive Reply where
  | ok (r : Response)
  | error (e : Failure)
  deriving DecidableEq, Repr

/-- Where the handler is. A confirming read first learns the commit index, then
waits for the local replica; the read after the deadline leads to the
cancellation instead of back to waiting. -/
inductive Phase where
  | start
  | subscribed
  | proposed (res : CommandResult)
  | parked
  | woken
  | confirm (expired : Bool) (index : Option Nat)
  | cancelling (attempt : Nat) (sent : Bool)
  | leaving
  | done (reply : Reply)
  deriving DecidableEq, Repr

/-- A hub subscription. -/
abbrev Sub := Mailbox Event

def Sub.open : Sub := { last := ⟨[],[],0,none,0⟩ }

/-- The node's replica of the shard, the subscription and the handler. The log
positions of the call's own acquire and of its cancellations are noted. -/
structure Sys where
  node : Replica := {}
  sub : Option Sub := none
  phase : Phase := .start
  own : Option Nat := none
  cancels : List Nat := []
  deriving DecidableEq

inductive Action where
  | commit (cmd : Command)
  | apply | notify | post | skip
  | subscribe | propose | proposeFail | answer
  | take | read | readIndex | readStatus | readFail | expire
  | cancel | cancelAnswer | cancelFail | cancelGiveUp
  | leave (alive : Bool)
  deriving DecidableEq

namespace Sys

/-- The handler returns and closes its subscription. -/
def reply (s : Sys) (r : Reply) : Sys := { s with phase := .done r, sub := none }

def setNode (s : Sys) (n : Replica) : Sys := { s with node := n }

/-- Hub.Notify reaches the subscription: signal records the event. -/
def notify (req : Request) (s : Sys) : Option Sys :=
  match s.sub, s.node.outbox with
  | some m, e :: _ => if m.half = false ∧ e.key = req.key then some { s with sub := some (m.record e) } else none
  | _, _ => none

/-- Signal posts the wake token and Notify returns. -/
def post (s : Sys) : Option Sys :=
  match s.sub with
  | some m => if m.half then some { s with sub := some m.post, node := s.node.pop } else none
  | none => none

/-- Hub.Notify of an event that concerns no open subscription here. -/
def skip (req : Request) (s : Sys) : Option Sys :=
  match s.node.outbox with
  | [] => none
  | e :: _ => if s.sub = none ∨ e.key ≠ req.key then some (s.setNode s.node.pop) else none

/-- The command commits and the leader answers from the full log. The dispatcher
may propose again when the answer got lost. -/
def propose (req : Request) (s : Sys) : Sys :=
  { s with
    node := s.node.commit req.command
    own := some s.node.log.length
    phase := .proposed (s.node.full.step req.command).result }

/-- The switch of Lock and Campaign on the outcome. -/
def answer (req : Request) (s : Sys) (res : CommandResult) : Sys :=
  match res.outcome with
  | .granted => s.reply (.ok ⟨true,res.lockKey,res.fencingToken,res.revision⟩)
  | .noLease => s.reply (.error (.noLiveLease req.client))
  | .queued => { s with phase := .parked }
  | o => s.reply (.error (.unexpectedOutcome o))

/-- Next returned the event in the slot. -/
def read (req : Request) (s : Sys) (e : Event) : Sys :=
  if e.holder = req.client then s.reply (.ok ⟨true,e.key,e.token,e.revision⟩)
  else { s with phase := .confirm false none }

/-- A confirming read found nothing, or failed. -/
def unconfirmed (s : Sys) (expired : Bool) : Sys :=
  { s with phase := if expired then .cancelling 0 false else .parked }

/-- holdsLock and holdsLeadership on the status they got. -/
def confirmed (req : Request) (s : Sys) (expired : Bool) (st : Status) : Sys :=
  if st.held ∧ st.holder = req.client then s.reply (.ok ⟨true,req.key,st.token,st.revision⟩)
  else s.unconfirmed expired

/-- One attempt of cancelWait commits. -/
def cancel (req : Request) (s : Sys) (attempt : Nat) : Sys :=
  { s with
    node := s.node.commit (.cancelWait req.key req.client)
    cancels := s.node.log.length :: s.cancels
    phase := .cancelling attempt true }

/-- At most three attempts. -/
def retry (s : Sys) (attempt : Nat) : Sys :=
  { s with phase := if attempt + 1 < 3 then .cancelling (attempt + 1) false else .leaving }

/-- Only a bounded wait on a live context is reported as not acquired. -/
def leave (req : Request) (s : Sys) (alive : Bool) : Sys :=
  if req.bounded ∧ alive then s.reply (.ok { acquired := false, key := req.key }) else s.reply (.error .wait)

/-- One step of anyone; none when it is not possible now. -/
def next (req : Request) (s : Sys) (a : Action) : Option Sys :=
  match a, s.phase with
  | .commit cmd, _ => some (s.setNode (s.node.commit cmd))
  | .apply, _ => s.node.apply.map s.setNode
  | .notify, _ => s.notify req
  | .post, _ => s.post
  | .skip, _ => s.skip req
  | .subscribe, .start => some { s with sub := some .open, phase := .subscribed }
  | .propose, .subscribed => some (s.propose req)
  | .propose, .proposed _ => some (s.propose req)
  | .proposeFail, .subscribed => some (s.reply (.error .propose))
  | .proposeFail, .proposed _ => some (s.reply (.error .propose))
  | .answer, .proposed res => some (s.answer req res)
  | .take, .parked => s.sub.bind (fun m => m.take.map (fun m => { s with sub := some m, phase := .woken }))
  | .read, .woken => s.sub.map (fun m => s.read req m.last)
  | .readIndex, .confirm expired none => some { s with phase := .confirm expired (some s.node.log.length) }
  | .readStatus, .confirm expired (some index) =>
    -- the read waits for the replica and for the Apply that holds its lock
    if index ≤ s.node.applied ∧ s.node.outbox = [] then
      some (s.confirmed req expired ((s.node.upTo s.node.applied).status req.key))
    else none
  | .readFail, .confirm expired _ => some (s.unconfirmed expired)
  | .expire, .parked => some { s with phase := .confirm true none }
  | .cancel, .cancelling attempt _ => some (s.cancel req attempt)
  | .cancelAnswer, .cancelling _ true => some { s with phase := .leaving }
  | .cancelFail, .cancelling attempt _ => some (s.retry attempt)
  | .cancelGiveUp, .cancelling _ false => some { s with phase := .leaving }
  | .leave alive, .leaving => some (s.leave req alive)
  | _, _ => none

end Sys

/-- The possible steps, each with the phase it needs. -/
inductive Step (req : Request) (s : Sys) : Action → Sys → Prop where
  | commit (cmd : Command) : Step req s (.commit cmd) (s.setNode (s.node.commit cmd))
  | apply {r : Replica} (h : s.node.apply = some r) : Step req s .apply (s.setNode r)
  | notify {s' : Sys} (h : s.notify req = some s') : Step req s .notify s'
  | post {s' : Sys} (h : s.post = some s') : Step req s .post s'
  | skip {s' : Sys} (h : s.skip req = some s') : Step req s .skip s'
  | subscribe (hp : s.phase = .start) : Step req s .subscribe { s with sub := some .open, phase := .subscribed }
  | propose (hp : s.phase = .subscribed ∨ ∃ res, s.phase = .proposed res) : Step req s .propose (s.propose req)
  | proposeFail (hp : s.phase = .subscribed ∨ ∃ res, s.phase = .proposed res) :
      Step req s .proposeFail (s.reply (.error .propose))
  | answer {res : CommandResult} (hp : s.phase = .proposed res) : Step req s .answer (s.answer req res)
  | take {m : Sub} (hm : s.sub = some m) (hw : m.wake = true) (hp : s.phase = .parked) :
      Step req s .take { s with sub := some { m with wake := false }, phase := .woken }
  | read {m : Sub} (hm : s.sub = some m) (hp : s.phase = .woken) : Step req s .read (s.read req m.last)
  | readIndex {expired : Bool} (hp : s.phase = .confirm expired none) :
      Step req s .readIndex { s with phase := .confirm expired (some s.node.log.length) }
  | readStatus {expired : Bool} {index : Nat} (hp : s.phase = .confirm expired (some index))
      (hi : index ≤ s.node.applied) (ho : s.node.outbox = []) :
      Step req s .readStatus (s.confirmed req expired ((s.node.upTo s.node.applied).status req.key))
  | readFail {expired : Bool} {index : Option Nat} (hp : s.phase = .confirm expired index) :
      Step req s .readFail (s.unconfirmed expired)
  | expire (hp : s.phase = .parked) : Step req s .expire { s with phase := .confirm true none }
  | cancel {attempt : Nat} {sent : Bool} (hp : s.phase = .cancelling attempt sent) :
      Step req s .cancel (s.cancel req attempt)
  | cancelAnswer {attempt : Nat} (hp : s.phase = .cancelling attempt true) :
      Step req s .cancelAnswer { s with phase := .leaving }
  | cancelFail {attempt : Nat} {sent : Bool} (hp : s.phase = .cancelling attempt sent) :
      Step req s .cancelFail (s.retry attempt)
  | cancelGiveUp {attempt : Nat} (hp : s.phase = .cancelling attempt false) :
      Step req s .cancelGiveUp { s with phase := .leaving }
  | leave (alive : Bool) (hp : s.phase = .leaving) : Step req s (.leave alive) (s.leave req alive)

/-- Whatever the step function does is one of the steps. -/
theorem next_step {req : Request} {s s' : Sys} {a : Action} (h : s.next req a = some s') : Step req s a s' := by
  unfold Sys.next at h
  split at h
  case h_2 =>
    obtain ⟨r,hr,rfl⟩ := Option.map_eq_some_iff.mp h
    exact .apply hr
  case h_3 => exact .notify h
  case h_4 => exact .post h
  case h_5 => exact .skip h
  case h_12 hp =>
    obtain ⟨m,hm,h⟩ := Option.bind_eq_some_iff.mp h
    obtain ⟨m',ht,rfl⟩ := Option.map_eq_some_iff.mp h
    rw [Mailbox.take] at ht
    split at ht
    · cases ht
      exact .take hm ‹_› hp
    · cases ht
  case h_13 hp =>
    obtain ⟨m,hm,rfl⟩ := Option.map_eq_some_iff.mp h
    exact .read hm hp
  case h_15 hp =>
    split at h
    · rename_i hg
      cases h
      exact .readStatus hp hg.1 hg.2
    · cases h
  all_goals cases h
  all_goals constructor
  all_goals first | assumption | exact .inl ‹_› | exact .inr ⟨_,‹_›⟩

/-- The log may grow; the handler and the position of its acquire stay. -/
structure Frame (s s' : Sys) : Prop where
  phase : s'.phase = s.phase
  own : s'.own = s.own
  log : ∃ more, s'.node.log = s.node.log ++ more

/-- What a notification does: the slot holds the event at the head. -/
theorem notify_eq {req : Request} {s s' : Sys} (h : s.notify req = some s') : ∃ m e rest, s.sub = some m ∧
    s.node.outbox = e :: rest ∧ e.key = req.key ∧ s' = { s with sub := some (m.record e) } := by
  rw [Sys.notify] at h
  split at h
  · rename_i m e rest hm ho
    split_ifs at h with hg
    cases h
    exact ⟨m,e,rest,hm,ho,hg.2,rfl⟩
  · cases h

/-- What a post does: the token is there, and the event is off the list. -/
theorem post_eq {s s' : Sys} (h : s.post = some s') : ∃ m, s.sub = some m ∧ m.half = true ∧
    s' = { s with sub := some m.post, node := s.node.pop } := by
  rw [Sys.post] at h
  split at h
  · rename_i m hm
    split_ifs at h with hh
    cases h
    exact ⟨m,hm,hh,rfl⟩
  · cases h

/-- What skipping an event does: it is off the list. -/
theorem skip_eq {req : Request} {s s' : Sys} (h : s.skip req = some s') : ∃ e rest, s.node.outbox = e :: rest ∧
    (s.sub = none ∨ e.key ≠ req.key) ∧ s' = s.setNode s.node.pop := by
  rw [Sys.skip] at h
  split at h
  · cases h
  · rename_i e rest ho
    split_ifs at h with hg
    cases h
    exact ⟨e,rest,ho,hg,rfl⟩

/-- A notification leaves the handler and the log. -/
theorem notify_frame {req : Request} {s s' : Sys} (h : s.notify req = some s') : Frame s s' := by
  obtain ⟨m,e,rest,_,_,_,rfl⟩ := notify_eq h
  exact ⟨rfl,rfl,[],(List.append_nil _).symm⟩

/-- And so does a post. -/
theorem post_frame {s s' : Sys} (h : s.post = some s') : Frame s s' := by
  obtain ⟨m,_,_,rfl⟩ := post_eq h
  exact ⟨rfl,rfl,[],(List.append_nil _).symm⟩

/-- And so does an event that is skipped. -/
theorem skip_frame {req : Request} {s s' : Sys} (h : s.skip req = some s') : Frame s s' := by
  obtain ⟨e,rest,_,_,rfl⟩ := skip_eq h
  exact ⟨rfl,rfl,[],(List.append_nil _).symm⟩

/-- And so does an Apply of the local replica. -/
theorem apply_frame {s : Sys} {r : Replica} (h : s.node.apply = some r) : Frame s (s.setNode r) := by
  obtain ⟨cmd,_,_,rfl⟩ := Replica.apply_eq h
  exact ⟨rfl,rfl,[],(List.append_nil _).symm⟩

/-- Other parties only commit commands of named clients. -/
def Env (_ : Sys) : Action → Prop
  | .commit cmd => cmd.Named
  | _ => True

instance (s : Sys) (a : Action) : Decidable (Env s a) :=
  match a with
  | .commit cmd => inferInstanceAs (Decidable cmd.Named)
  | .apply | .notify | .post | .skip | .subscribe | .propose | .proposeFail | .answer | .take | .read | .readIndex
  | .readStatus | .readFail | .expire | .cancel | .cancelAnswer | .cancelFail | .cancelGiveUp | .leave _ => .isTrue trivial

/-- Runs from the empty shard whose steps all satisfy ok. -/
abbrev Reaches (req : Request) (ok : Sys → Action → Prop) : Sys → Prop := Lib.Reaches (Sys.next req) ok {}

end Zuul.Server
