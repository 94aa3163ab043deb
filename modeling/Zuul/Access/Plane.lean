import Zuul.Auth.Keypath
import Zuul.Sessions.Streams

/-! The client plane of a cluster: the mutating RPCs and the KeepAlive streams of
authenticated callers, on any node, against the shards. -/
namespace Zuul.Access
open Lib Fsm
open Sessions (Call Choice Manager Moved Stream)
open Auth (Keypath.validate Keypath.KeyError)

inductive Op where
  | unknown | read | write | admin
  deriving DecidableEq, Repr

/-- The router, the policy and the configuration of the sessions. -/
structure Config where
  route : Str → Nat
  authorizer : Str → Str → Op → Bool
  sessions : Sessions.Config

inductive RpcError where
  | missingClientID
  | invalidKeyPath (e : Keypath.KeyError)
  | unauthorizedKey (identity key : Str)
  | noSession
  | backend
  | noLiveLease (client : Str)
  | staleFencingToken
  | notLockHolder
  | notLeader
  | unexpectedOutcome (o : Outcome)
  | wait
  deriving DecidableEq, Repr

inductive Reply where
  | acquired (key : Str) (token revision : Nat)
  | notAcquired (key : Str) (revision : Nat) (holder : Str)
  | timedOut (key : Str)
  | released (revision : Nat)
  | updated (revision : Nat)
  | error (e : RpcError)
  deriving DecidableEq, Repr

/-- The mutating calls. A blocking call has a wait deadline or not. -/
inductive Rpc where
  | lock (name clientID : Str) (bounded : Bool)
  | tryLock (name clientID : Str)
  | unlock (lockKey clientID : Str) (fencingToken : Nat)
  | campaign (name clientID : Str) (value : Bytes) (bounded : Bool)
  | proclaim (name clientID : Str) (fencingToken : Nat) (value : Bytes)
  | resign (name clientID : Str) (fencingToken : Nat)
  deriving DecidableEq

def requireKeyAndClient (key clientID : Str) : Except RpcError Unit :=
  if clientID = [] then .error .missingClientID
  else
    match Keypath.validate key with
    | .error e => .error (.invalidKeyPath e)
    | .ok () => .ok ()

def authorize (cfg : Config) (identity key : Str) (op : Op) : Except RpcError Unit :=
  if cfg.authorizer identity key op then .ok () else .error (.unauthorizedKey identity key)

namespace Rpc

def key : Rpc → Str
  | lock k _ _ | tryLock k _ | unlock k _ _ | campaign k _ _ _ | proclaim k _ _ _ | resign k _ _ => k

def clientID : Rpc → Str
  | lock _ c _ | tryLock _ c | unlock _ c _ | campaign _ c _ _ | proclaim _ c _ _ | resign _ c _ => c

/-- What the handler proposes to the shard of the key. -/
def command : Rpc → Command
  | lock k c _ => .acquireLock k c false
  | tryLock k c => .acquireLock k c true
  | unlock k c t => .releaseLock k c t
  | campaign k c v _ => .campaign k c v
  | proclaim k c t v => .proclaim k c t v
  | resign k c t => .resign k c t

/-- The calls that make sure of a lease first. -/
def leased : Rpc → Bool
  | lock .. | tryLock .. | campaign .. => true
  | unlock .. | proclaim .. | resign .. => false

def bounded : Rpc → Bool
  | lock _ _ b | campaign _ _ _ b => b
  | _ => false

/-- The two checks every call begins with. -/
def checks (cfg : Config) (identity : Str) (req : Rpc) : Except RpcError Unit :=
  (requireKeyAndClient req.key req.clientID).bind (fun _ => authorize cfg identity req.key .write)

/-- The switch on the outcome; none when the caller was queued and waits. -/
def answer (req : Rpc) (res : CommandResult) : Option Reply :=
  match req, res.outcome with
  | lock .., .granted | tryLock .., .granted | campaign .., .granted =>
    some (.acquired res.lockKey res.fencingToken res.revision)
  | lock .., .noLease | tryLock .., .noLease | campaign .., .noLease => some (.error (.noLiveLease req.clientID))
  | lock .., .queued | campaign .., .queued => none
  | tryLock .., .notAcquired => some (.notAcquired res.lockKey res.revision res.currentHolder)
  | unlock .., .released | resign .., .released => some (.released res.revision)
  | proclaim .., .valueUpdated => some (.updated res.revision)
  | unlock .., .staleToken | proclaim .., .staleToken | resign .., .staleToken => some (.error .staleFencingToken)
  | unlock .., .notHolder => some (.error .notLockHolder)
  | proclaim .., .notHolder | resign .., .notHolder => some (.error .notLeader)
  | _, o => some (.error (.unexpectedOutcome o))

end Rpc

/-- Where the handler of an RPC is. -/
inductive RpcPhase where
  | arrived
  | ensuring (call : Call)
  | proposing
  | waiting
  | cancelling (attempt : Nat)
  | leaving
  | returned (r : Reply)
  deriving DecidableEq

/-- What the network, the clocks and the hub decide about one step of a handler:
the next event of the key, or that the wait is over, whether a read succeeds,
and whether the context is still alive. -/
structure Fate where
  ch : Choice := {}
  event : Option Event := none
  readable : Bool := true
  alive : Bool := true

/-- What one step of a handler leaves behind, and the command it got committed. -/
structure RpcMoved where
  manager : Manager
  commit : Option (Nat × Command) := none
  phase : RpcPhase

namespace RpcPhase

/-- holdsLock and holdsLeadership: none when the client does not hold the key. -/
def confirm (req : Rpc) (f : FSM) : Option Reply :=
  let st := f.status req.key
  if st.held ∧ st.holder = req.clientID then some (.acquired req.key st.token st.revision) else none

/-- One round of the wait loop. -/
def wait (req : Rpc) (f : FSM) (fate : Fate) : RpcPhase :=
  let held := if fate.readable then confirm req f else none
  match fate.event with
  | some e =>
    if e.holder = req.clientID then .returned (.acquired e.key e.token e.revision)
    else (held.map .returned).getD .waiting
  | none => (held.map .returned).getD (.cancelling 0)

def ensured : Sessions.Result → RpcPhase
  | .error .noSession => .returned (.error .noSession)
  | .error .backend => .returned (.error .backend)
  | _ => .proposing

def admitted (cfg : Config) (identity : Str) (req : Rpc) : RpcPhase :=
  match req.checks cfg identity with
  | .error e => .returned (.error e)
  | .ok () => if req.leased then .ensuring (.ensureLease (cfg.route req.key)) else .proposing

def proposed (req : Rpc) (ch : Choice) (res : CommandResult) : RpcPhase :=
  if ch.ok then ((req.answer res).map .returned).getD .waiting else .returned (.error .backend)

/-- The EnsureLease of the handler is over and it goes on, or it takes a step. -/
def ensure (req : Rpc) (m : Manager) (shards : Nat → FSM) (fate : Fate) : Call → Option RpcMoved
  | .done res => some { manager := m, phase := ensured res }
  | call => (call.step req.clientID m shards fate.ch).map (fun r =>
      { manager := r.manager, commit := r.commit, phase := .ensuring r.call })

/-- One round of cancelWait: up to three attempts while the context lives. -/
def cancel (cfg : Config) (req : Rpc) (m : Manager) (fate : Fate) (attempt : Nat) : RpcMoved :=
  if attempt < 3 ∧ fate.alive then
    { manager := m
      commit := Call.proposal fate.ch (cfg.route req.key) (.cancelWait req.key req.clientID)
      phase := if fate.ch.ok then .leaving else .cancelling (attempt + 1) }
  else { manager := m, phase := .leaving }

def step (cfg : Config) (identity : Str) (req : Rpc) (m : Manager) (shards : Nat → FSM) (fate : Fate) :
    RpcPhase → Option RpcMoved
  | .arrived => some { manager := m, phase := admitted cfg identity req }
  | .ensuring call => ensure req m shards fate call
  | .proposing =>
    some
      { manager := m
        commit := Call.proposal fate.ch (cfg.route req.key) req.command
        phase := proposed req fate.ch ((shards (cfg.route req.key)).step req.command).result }
  | .waiting => some { manager := m, phase := wait req (shards (cfg.route req.key)) fate }
  | .cancelling attempt => some (cancel cfg req m fate attempt)
  | .leaving =>
    some
      { manager := m
        phase := .returned (if req.bounded ∧ fate.alive then .timedOut req.key else .error .wait) }
  | .returned _ => none

end RpcPhase

/-- A handler at work for an authenticated caller. The client id of a stream is
set by its first request. -/
inductive Task where
  | rpc (identity : Str) (node : Nat) (req : Rpc) (phase : RpcPhase)
  | stream (identity : Str) (clientID : Str) (st : Stream)

def Task.identity : Task → Str
  | .rpc i _ _ _ | .stream i _ _ => i

structure Cluster where
  managers : Nat → Manager := fun _ => {}
  shards : Nat → FSM := fun _ => new true
  tasks : List Task := []

inductive Step where
  /-- An RPC arrives, and a stream is opened. -/
  | call (identity : Str) (node : Nat) (req : Rpc)
  | connect (identity : Str) (node : Nat)
  /-- The handler of an RPC goes on. -/
  | turn (n : Nat) (fate : Fate)
  /-- A request arrives on a stream; an empty client id is replaced by an assigned one. -/
  | receive (n : Nat) (clientID assigned : Str) (reqMS : Int64)
  /-- A manager call of the stream's handler takes a step. -/
  | work (n g : Nat) (ch : Choice)
  | proceed (n : Nat) (now : Int64)
  | eof (n : Nat)
  | fail (n : Nat)
  /-- A command from outside the client plane is committed. -/
  | commit (shardID : Nat) (cmd : Command)

namespace Cluster

def after (s : Cluster) : Option (Nat × Command) → Nat → FSM
  | none => s.shards
  | some (shardID,cmd) => Function.update s.shards shardID ((s.shards shardID).step cmd).fsm

/-- The task n moved: its manager, the command it got committed and itself. -/
def absorb (s : Cluster) (n node : Nat) (m : Manager) (commit : Option (Nat × Command)) (t : Task) : Cluster :=
  { managers := Function.update s.managers node m, shards := s.after commit, tasks := s.tasks.set n t }

def setTask (s : Cluster) (n : Nat) (t : Task) : Cluster := { s with tasks := s.tasks.set n t }

def turn (cfg : Config) (s : Cluster) (n : Nat) (fate : Fate) : Option Cluster :=
  match s.tasks[n]? with
  | some (.rpc i node req phase) =>
    (phase.step cfg i req (s.managers node) s.shards fate).map (fun r =>
      s.absorb n node r.manager r.commit (.rpc i node req r.phase))
  | _ => none

def receive (cfg : Config) (s : Cluster) (n : Nat) (clientID assigned : Str) (reqMS : Int64) : Option Cluster :=
  match s.tasks[n]? with
  | some (.stream i c st) =>
    let c := if st.phase = .start then (if clientID = [] then assigned else clientID) else c
    (st.receive cfg.sessions (clientID ≠ []) reqMS).map (fun st => s.setTask n (.stream i c st))
  | _ => none

def work (s : Cluster) (n g : Nat) (ch : Choice) : Option Cluster :=
  match s.tasks[n]? with
  | some (.stream i c st) =>
    (st.phase.task g).bind (fun call =>
      (call.step c (s.managers st.node) s.shards ch).map (fun r =>
        s.absorb n st.node r.manager r.commit (.stream i c (st.setPhase (st.phase.setTask g r.call)))))
  | _ => none

/-- A step of the stream's handler that makes no call. -/
def stream (s : Cluster) (n : Nat) (move : Str → Stream → Option Stream) : Option Cluster :=
  match s.tasks[n]? with
  | some (.stream i c st) => (move c st).map (fun st => s.setTask n (.stream i c st))
  | _ => none

def next (cfg : Config) (s : Cluster) : Step → Option Cluster
  | .call i node req => some { s with tasks := s.tasks ++ [.rpc i node req .arrived] }
  | .connect i node => some { s with tasks := s.tasks ++ [.stream i [] { node := node }] }
  | .turn n fate => s.turn cfg n fate
  | .receive n clientID assigned reqMS => s.receive cfg n clientID assigned reqMS
  | .work n g ch => s.work n g ch
  | .proceed n now => s.stream n (fun c st => st.proceed cfg.sessions c now)
  | .eof n => s.stream n (fun _ st => st.eof)
  | .fail n => s.stream n (fun _ st => st.fail)
  | .commit shardID cmd => some { s with shards := s.after (some (shardID,cmd)) }

/-- The identity for which a step is performed; none outside the client plane. -/
def caller (s : Cluster) : Step → Option Str
  | .call i _ _ | .connect i _ => some i
  | .turn n _ | .receive n _ _ _ | .work n _ _ | .proceed n _ | .eof n | .fail n => s.tasks[n]?.map Task.identity
  | .commit _ _ => none

end Cluster

/-- Commands from outside name their client, and an assigned id is not empty. -/
def Outside (_ : Cluster) : Step → Prop
  | .receive _ _ assigned _ => assigned ≠ []
  | .commit _ cmd => cmd.Named
  | _ => True

instance (s : Cluster) (a : Step) : Decidable (Outside s a) :=
  match a with
  | .receive _ _ assigned _ => inferInstanceAs (Decidable (assigned ≠ []))
  | .commit _ cmd => inferInstanceAs (Decidable cmd.Named)
  | .call .. | .connect .. | .turn .. | .work .. | .proceed .. | .eof _ | .fail _ => .isTrue trivial

end Zuul.Access
