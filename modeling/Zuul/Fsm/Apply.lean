import Zuul.Fsm.Leases

/-! Applying one committed command, and whole logs. -/
namespace Zuul.Fsm
namespace FSM

/-- The switch of Apply on a set command. -/
def dispatch (f : FSM) : Command → Applied
  | .acquireLock name c tryLock => f.acquire name c none tryLock
  | .campaign name c value => f.acquire name c value false
  | .releaseLock name c token => f.release name c token
  | .resign name c token => f.release name c token
  | .cancelWait name c => f.cancelWait name c
  | .proclaim name c token value => f.proclaim name c token value
  | .leaseGrant c ttlMS now => f.leaseGrant c ttlMS now
  | .leaseKeepAlive c now => f.leaseKeepAlive c now
  | .leaseRevoke c => f.leaseRevoke c
  | .leaseExpire c now => f.leaseExpire c now

/-- The revision is bumped once for every command that is not nil. -/
def bump (f : FSM) : FSM := { f with revision := f.revision + 1 }

/-- Apply on a well-formed command. -/
def step (f : FSM) (cmd : Command) : Applied := f.bump.dispatch cmd

/-- Apply on any message. Only a malformed one is an error. -/
def apply (f : FSM) : Message → FSM × List Event × Except String CommandResult
  | .nil => (f, [], .error "fsm.Apply: nil command")
  | .unset => (f.bump, [], .error "fsm.Apply: unknown command type <nil>")
  | .set cmd => ((f.step cmd).fsm, (f.step cmd).events, .ok (f.step cmd).result)

/-- The state after a log, and the answers and events of all its entries in order. -/
def run (f : FSM) (log : List Command) : FSM := log.foldl (fun f cmd => (f.step cmd).fsm) f

def runResults (f : FSM) : List Command → List CommandResult
  | [] => []
  | cmd :: log => (f.step cmd).result :: runResults (f.step cmd).fsm log

def runEvents (f : FSM) : List Command → List Event
  | [] => []
  | cmd :: log => (f.step cmd).events ++ runEvents (f.step cmd).fsm log

@[simp] theorem run_cons (f : FSM) (cmd : Command) (log : List Command) :
    f.run (cmd :: log) = (f.step cmd).fsm.run log := rfl
/-- A log is applied in two parts. -/
theorem run_append (f : FSM) (a b : List Command) : f.run (a ++ b) = (f.run a).run b := List.foldl_append
/-- The last command of a log is applied last. -/
theorem run_concat (f : FSM) (a : List Command) (cmd : Command) :
    f.run (a ++ [cmd]) = ((f.run a).step cmd).fsm := run_append f a [cmd]

end FSM

/-- The answer to a status query. -/
structure Status where
  held : Bool := false
  holder : Str := []
  token : Nat := 0
  value : Bytes := none
  queueDepth : Nat := 0
  revision : Nat
  deriving DecidableEq, Repr

def FSM.status (f : FSM) (name : Str) : Status :=
  match f.locks.lookup name with
  | none => { revision := f.revision }
  | some lk =>
    if lk.holder = [] then { revision := f.revision }
    else
      { held := true, holder := lk.holder, token := lk.token, value := lk.value
        queueDepth := uint32 lk.queue.length, revision := f.revision }

end Zuul.Fsm
