import Zuul.Lib.Runs
import Zuul.Sessions.Manager

/-! Two Session.KeepAlive streams of one client, the nodes they run on, and the shards. -/
namespace Zuul.Sessions
open Lib Fsm

/-- The shards of the router and the TTL bounds in nanoseconds. -/
structure Config where
  shards : List Nat
  defaultTTL : Int64 := 30000000000
  minTTL : Int64 := 1000000000
  maxTTL : Int64 := 300000000000

def Config.clampTTL (cfg : Config) (reqMS : Int64) : Int64 :=
  let ttl := reqMS * 1000000
  let ttl :=
    if reqMS ≤ 0 then cfg.defaultTTL
    else if ttl < cfg.minTTL then cfg.minTTL
    else if cfg.maxTTL < ttl then cfg.maxTTL
    else ttl
  ttl / 1000000

/-- KeepAliveResponse. -/
structure Response where
  clientID : Str
  ttlMS : Int64
  deadline : Int64
  deriving DecidableEq

/-- Where the handler of a stream is. A session that was opened without an id is
new and has nothing to recover. -/
inductive Phase where
  | start
  | opening (reconnect : Bool) (call : Call)
  | recovering (calls : List Call)
  | sending (deadline : Int64)
  | listening
  | renewing (call : Call)
  | closing (call : Call)
  | returned (err : Bool)
  deriving DecidableEq

namespace Phase

/-- The call that moves; n picks a goroutine of recoverSession. -/
def task : Phase → Nat → Option Call
  | .opening _ call, _ | .renewing call, _ | .closing call, _ => some call
  | .recovering calls, n => calls[n]?
  | _, _ => none

def setTask : Phase → Nat → Call → Phase
  | .opening reconnect _, _, call => .opening reconnect call
  | .recovering calls, n, call => .recovering (calls.set n call)
  | .renewing _, _, call => .renewing call
  | .closing _, _, call => .closing call
  | ph, _, _ => ph

end Phase

structure Stream where
  node : Nat
  ttlMS : Int64 := 0
  phase : Phase := .start
  sent : List Response := []
  deriving DecidableEq

/-- The opening request was answered. -/
def Stream.Answered (st : Stream) : Prop := st.sent ≠ []

instance (st : Stream) : Decidable st.Answered := inferInstanceAs (Decidable (_ ≠ _))

/-! The steps of a handler that make no call. -/
namespace Stream

def setPhase (st : Stream) (ph : Phase) : Stream := { st with phase := ph }

/-- Recv returns a request: the first opens the session, a later one renews. -/
def receive (cfg : Config) (st : Stream) (reconnect : Bool) (reqMS : Int64) : Option Stream :=
  match st.phase with
  | .start =>
    let ttlMS := cfg.clampTTL reqMS
    some { st with ttlMS := ttlMS, phase := .opening reconnect (.open ttlMS) }
  | .listening => some (st.setPhase (.renewing .keepAlive))
  | _ => none

/-- The call is over. A failed renewal ends the handler without a close. -/
def proceed (cfg : Config) (client : Str) (st : Stream) (now : Int64) : Option Stream :=
  match st.phase with
  | .opening reconnect (.done _) =>
    some (st.setPhase
      (if reconnect then .recovering (cfg.shards.map .recover) else .sending (leaseDeadline now st.ttlMS)))
  | .recovering calls =>
    if calls.all Call.finished then some (st.setPhase (.sending (leaseDeadline now st.ttlMS))) else none
  | .sending deadline => some { st with phase := .listening, sent := st.sent ++ [⟨client,st.ttlMS,deadline⟩] }
  | .renewing (.done (.deadline deadline)) => some (st.setPhase (.sending deadline))
  | .renewing (.done _) => some (st.setPhase (.returned true))
  | .closing (.done _) => some (st.setPhase (.returned false))
  | _ => none

/-- Recv returns io.EOF. -/
def eof (st : Stream) : Option Stream :=
  match st.phase with
  | .start => some (st.setPhase (.returned false))
  | .listening => some (st.setPhase (.closing .close))
  | _ => none

/-- Recv or Send returns another error: the handler returns without a close. -/
def fail (st : Stream) : Option Stream :=
  match st.phase with
  | .start | .listening | .sending _ => some (st.setPhase (.returned true))
  | _ => none

end Stream

inductive Side where
  | first
  | second
  deriving DecidableEq

/-- A manager call of any other handler, on its node and for its client. -/
structure Job where
  node : Nat
  client : Str
  call : Call

structure Sys where
  managers : Nat → Manager := fun _ => {}
  shards : Nat → FSM := fun _ => new true
  streams : Side → Stream
  jobs : List Job := []

inductive Action where
  /-- A request arrives; the first one opens the session. -/
  | request (i : Side) (reconnect : Bool) (reqMS : Int64)
  /-- The call of the handler takes a step. -/
  | work (i : Side) (n : Nat) (ch : Choice)
  /-- The call is over and the handler goes on. -/
  | proceed (i : Side) (now : Int64)
  | eof (i : Side)
  /-- Recv or Send fails. -/
  | fail (i : Side)
  /-- Another handler makes a call, and a call of it takes a step. -/
  | spawn (job : Job)
  | progress (n : Nat) (ch : Choice)
  /-- Anyone gets a command committed. -/
  | commit (shardID : Nat) (cmd : Command)

namespace Sys

def setStream (s : Sys) (i : Side) (st : Stream) : Sys := { s with streams := Function.update s.streams i st }

def setPhase (s : Sys) (i : Side) (ph : Phase) : Sys := s.setStream i { s.streams i with phase := ph }

/-- Replacing one handler leaves the other. -/
theorem setStream_streams (s : Sys) (i j : Side) (st : Stream) :
    (s.setStream i st).streams j = if j = i then st else s.streams j := Function.update_apply ..

def apply (s : Sys) (shardID : Nat) (cmd : Command) : Sys :=
  { s with shards := Function.update s.shards shardID ((s.shards shardID).step cmd).fsm }

/-- A committed command moves its shard only. -/
theorem apply_shards (s : Sys) (k j : Nat) (cmd : Command) :
    (s.apply k cmd).shards j = if j = k then ((s.shards k).step cmd).fsm else s.shards j := Function.update_apply ..

/-- The step of a manager call, with the command it got committed. -/
def absorb (s : Sys) (node : Nat) (r : Moved) : Sys :=
  let s := { s with managers := Function.update s.managers node r.manager }
  match r.commit with
  | none => s
  | some (shardID,cmd) => s.apply shardID cmd

@[simp] theorem absorb_streams (s : Sys) (node : Nat) (r : Moved) : (s.absorb node r).streams = s.streams := by
  rw [absorb]
  split
  · rfl
  · rfl

@[simp] theorem absorb_jobs (s : Sys) (node : Nat) (r : Moved) : (s.absorb node r).jobs = s.jobs := by
  rw [absorb]
  split
  · rfl
  · rfl

@[simp] theorem absorb_managers (s : Sys) (node : Nat) (r : Moved) (n : Nat) :
    (s.absorb node r).managers n = if n = node then r.manager else s.managers n := by
  rw [absorb]
  split
  · exact Function.update_apply ..
  · exact Function.update_apply ..

/-- A call that commits nothing leaves the shards. -/
theorem absorb_idle {s : Sys} {r : Moved} (node : Nat) (h : r.commit = none) :
    (s.absorb node r).shards = s.shards := by
  rw [absorb,h]

/-- The handler of one stream moves. -/
def moveStream (s : Sys) (i : Side) (move : Stream → Option Stream) :
    Option Sys := (move (s.streams i)).map (s.setStream i)

def work (client : Str) (s : Sys) (i : Side) (n : Nat) (ch : Choice) : Option Sys :=
  let st := s.streams i
  (st.phase.task n).bind (fun call =>
    (call.step client (s.managers st.node) s.shards ch).map (fun r =>
      (s.absorb st.node r).setPhase i (st.phase.setTask n r.call)))

/-- A step of a handler's call, with its manager, its commit and its phase moved on. -/
theorem work_inversion {client : Str} {s s' : Sys} {i : Side} {n : Nat} {ch : Choice}
    (h : s.work client i n ch = some s') : ∃ call r, (s.streams i).phase.task n = some call ∧
      CallStep client (s.managers (s.streams i).node) s.shards ch call r ∧
      s' = (s.absorb (s.streams i).node r).setPhase i ((s.streams i).phase.setTask n r.call) := by
  obtain ⟨call,ht,h⟩ := Option.bind_eq_some_iff.mp h
  obtain ⟨r,hr,rfl⟩ := Option.map_eq_some_iff.mp h
  exact ⟨call,r,ht,step_call hr,rfl⟩

def progress (s : Sys) (n : Nat) (ch : Choice) : Option Sys :=
  s.jobs[n]?.bind (fun job =>
    (job.call.step job.client (s.managers job.node) s.shards ch).map (fun r =>
      { s.absorb job.node r with jobs := s.jobs.set n { job with call := r.call } }))

/-- One step of anyone; none when it is not possible now. -/
def next (cfg : Config) (client : Str) (s : Sys) : Action → Option Sys
  | .request i reconnect reqMS => s.moveStream i (fun st => st.receive cfg reconnect reqMS)
  | .work i n ch => s.work client i n ch
  | .proceed i now => s.moveStream i (fun st => st.proceed cfg client now)
  | .eof i => s.moveStream i Stream.eof
  | .fail i => s.moveStream i Stream.fail
  | .spawn job => if job.call.starts then some { s with jobs := s.jobs ++ [job] } else none
  | .progress n ch => s.progress n ch
  | .commit shardID cmd => some (s.apply shardID cmd)

end Sys

/-- Both handlers before their first request. -/
def init (node₁ node₂ : Nat) : Sys where
  streams
    | .first => { node := node₁ }
    | .second => { node := node₂ }

end Zuul.Sessions
