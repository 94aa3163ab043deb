import Mathlib.Data.Finset.Basic
import Zuul.Fsm.Apply

/-! The session manager of one node. Its calls run concurrently: one step is a
section under a mutex, a clock reading, or one proposal. -/
namespace Zuul.Sessions
open Lib Fsm

/-- One client's lease state. The mutex shows only where it is held across a proposal. -/
structure Session where
  ttlMS : Int64 := 0
  shards : Finset Nat := ∅
  locked : Bool := false
  deriving DecidableEq

/-- Sessions are used through pointers: a call may still hold one that is no
longer in the map. -/
structure Manager where
  heap : List Session := []
  sessions : KeyedMap Str Nat := ∅

namespace Manager

def get (m : Manager) (clientID : Str) : Option Nat := m.sessions.lookup clientID

def deref (m : Manager) (p : Nat) : Session := m.heap.getD p {}

def store (m : Manager) (p : Nat) (s : Session) : Manager := { m with heap := m.heap.set p s }

/-- The client's session, made when there is none. -/
def register (m : Manager) (clientID : Str) : Manager × Nat :=
  match m.get clientID with
  | some p => (m,p)
  | none => (⟨m.heap ++ [{}],m.sessions.insert clientID m.heap.length⟩,m.heap.length)

def remove (m : Manager) (clientID : Str) : Manager := { m with sessions := m.sessions.erase clientID }

def addShard (m : Manager) (p shardID : Nat) : Manager :=
  m.store p { m.deref p with shards := insert shardID (m.deref p).shards }

def deleteShard (m : Manager) (p shardID : Nat) : Manager :=
  m.store p { m.deref p with shards := (m.deref p).shards.erase shardID }

def setLocked (m : Manager) (p : Nat) (locked : Bool) : Manager := m.store p { m.deref p with locked := locked }

end Manager

inductive Failure where
  | noSession
  | backend
  deriving DecidableEq, Repr

inductive Result where
  | ok
  | deadline (unixNano : Int64)
  | error (e : Failure)
  deriving DecidableEq, Repr

/-- A call in progress, by what it does next. A goroutine of recoverSession reads
the lease of one shard and attaches it. -/
inductive Call where
  | open (ttlMS : Int64)
  | refresh (ttlMS : Int64) (p : Nat)
  | recover (shardID : Nat)
  | attach (shardID : Nat)
  | record (shardID p : Nat)
  | ensureLease (shardID : Nat)
  | checkLease (shardID p : Nat)
  | grantLease (shardID p : Nat) (ttlMS now : Int64)
  | keepAlive
  | listRenewals (p : Nat)
  | stampRenewals (p : Nat) (shards : Finset Nat) (ttlMS : Int64)
  | renew (p : Nat) (todo lapsed : Finset Nat) (now deadline : Int64) (failed : Bool)
  | close
  | listRevokes (p : Nat)
  | revoke (todo : Finset Nat)
  | done (res : Result)
  deriving DecidableEq

/-- What the scheduler, the clock and the network decide about one step: which
goroutine moves, whether its proposal commits, and whether the answer arrives. -/
structure Choice where
  shard : Nat := 0
  commits : Bool := true
  answered : Bool := true
  now : Int64 := 0

/-- Propose returned without an error. -/
def Choice.ok (ch : Choice) : Bool := ch.commits && ch.answered

/-- What one step leaves behind, and the command it got committed. -/
structure Moved where
  manager : Manager
  commit : Option (Nat × Command) := none
  call : Call

namespace Call

/-- The calls as they are made. -/
def starts : Call → Bool
  | .open _ | .attach _ | .ensureLease _ | .keepAlive | .close => true
  | _ => false

def finished : Call → Bool
  | .done _ => true
  | _ => false

/-- Find the session first, or fail. -/
def lookup (clientID : Str) (m : Manager) (found : Nat → Call) : Moved :=
  match m.get clientID with
  | none => { manager := m, call := .done (.error .noSession) }
  | some p => { manager := m, call := found p }

def proposal (ch : Choice) (shardID : Nat) (cmd : Command) : Option (Nat × Command) :=
  if ch.commits then some (shardID,cmd) else none

/-- One goroutine of KeepAlive proposed the renewal of a shard. -/
def renewed (clientID : Str) (m : Manager) (shards : Nat → FSM) (ch : Choice) (p : Nat) (todo lapsed : Finset Nat)
    (now deadline : Int64) (failed : Bool) : Moved :=
  let cmd := Command.leaseKeepAlive clientID now
  let lapses := ch.ok && ((shards ch.shard).step cmd).result.outcome = .notFound
  { manager := m
    commit := proposal ch ch.shard cmd
    call := .renew p (todo.erase ch.shard) (if lapses then insert ch.shard lapsed else lapsed) now deadline
      (failed || !ch.ok) }

/-- One step of a call; none when it has to wait for a mutex or for a goroutine. -/
def step (clientID : Str) (m : Manager) (shards : Nat → FSM) (ch : Choice) : Call → Option Moved
  | .open ttlMS => some { manager := (m.register clientID).1, call := .refresh ttlMS (m.register clientID).2 }
  | .refresh ttlMS p =>
    if (m.deref p).locked then none
    else some { manager := m.store p { m.deref p with ttlMS := ttlMS }, call := .done .ok }
  | .recover shardID =>
    -- a shard that cannot be read is skipped
    if ch.answered ∧ clientID ∈ (shards shardID).leases then some { manager := m, call := .attach shardID }
    else some { manager := m, call := .done .ok }
  | .attach shardID => some (lookup clientID m (.record shardID))
  | .record shardID p =>
    if (m.deref p).locked then none else some { manager := m.addShard p shardID, call := .done .ok }
  | .ensureLease shardID => some (lookup clientID m (.checkLease shardID))
  | .checkLease shardID p =>
    if (m.deref p).locked then none
    else if shardID ∈ (m.deref p).shards then some { manager := m, call := .done .ok }
    else some { manager := m.setLocked p true, call := .grantLease shardID p (m.deref p).ttlMS ch.now }
  | .grantLease shardID p ttlMS now =>
    let m := m.setLocked p false
    some
      { manager := if ch.ok then m.addShard p shardID else m
        commit := proposal ch shardID (.leaseGrant clientID ttlMS now)
        call := .done (if ch.ok then .ok else .error .backend) }
  | .keepAlive => some (lookup clientID m .listRenewals)
  | .listRenewals p =>
    if (m.deref p).locked then none
    else some { manager := m, call := .stampRenewals p (m.deref p).shards (m.deref p).ttlMS }
  | .stampRenewals p shards ttlMS =>
    some { manager := m, call := .renew p shards ∅ ch.now (leaseDeadline ch.now ttlMS) false }
  | .renew p todo lapsed now deadline failed =>
    if ch.shard ∈ todo then some (renewed clientID m shards ch p todo lapsed now deadline failed)
    else if ch.shard ∈ lapsed then
      if (m.deref p).locked then none
      else some
        { manager := m.deleteShard p ch.shard
          call := .renew p todo (lapsed.erase ch.shard) now deadline failed }
    else if todo = ∅ ∧ lapsed = ∅ then
      some { manager := m, call := .done (if failed then .error .backend else .deadline deadline) }
    else none
  | .close =>
    some
      { manager := m.remove clientID
        call := ((m.get clientID).map listRevokes).getD (.done .ok) }
  | .listRevokes p =>
    if (m.deref p).locked then none else some { manager := m, call := .revoke (m.deref p).shards }
  | .revoke todo =>
    -- a failed revoke is ignored: the lease will expire on its own
    if ch.shard ∈ todo then
      some
        { manager := m
          commit := proposal ch ch.shard (.leaseRevoke clientID)
          call := .revoke (todo.erase ch.shard) }
    else if todo = ∅ then some { manager := m, call := .done .ok }
    else none
  | .done _ => none

end Call

/-- The possible steps of a call, each with what it needs. -/
inductive CallStep (clientID : Str) (m : Manager) (shards : Nat → FSM) (ch : Choice) : Call → Moved → Prop where
  | open {ttlMS : Int64} : CallStep clientID m shards ch (.open ttlMS)
      { manager := (m.register clientID).1, call := .refresh ttlMS (m.register clientID).2 }
  | refresh {ttlMS : Int64} {p : Nat} (hl : (m.deref p).locked = false) : CallStep clientID m shards ch
      (.refresh ttlMS p) { manager := m.store p { m.deref p with ttlMS := ttlMS }, call := .done .ok }
  | recover {shardID : Nat} (ha : ch.answered = true) (he : clientID ∈ (shards shardID).leases) :
      CallStep clientID m shards ch (.recover shardID) { manager := m, call := .attach shardID }
  | skip {shardID : Nat} (h : ¬(ch.answered = true ∧ clientID ∈ (shards shardID).leases)) :
      CallStep clientID m shards ch (.recover shardID) { manager := m, call := .done .ok }
  | attach {shardID : Nat} :
      CallStep clientID m shards ch (.attach shardID) (Call.lookup clientID m (.record shardID))
  | record {shardID p : Nat} (hl : (m.deref p).locked = false) :
      CallStep clientID m shards ch (.record shardID p) { manager := m.addShard p shardID, call := .done .ok }
  | ensureLease {shardID : Nat} :
      CallStep clientID m shards ch (.ensureLease shardID) (Call.lookup clientID m (.checkLease shardID))
  | known {shardID p : Nat} (hl : (m.deref p).locked = false) (hk : shardID ∈ (m.deref p).shards) :
      CallStep clientID m shards ch (.checkLease shardID p) { manager := m, call := .done .ok }
  | unknown {shardID p : Nat} (hl : (m.deref p).locked = false) (hk : shardID ∉ (m.deref p).shards) :
      CallStep clientID m shards ch (.checkLease shardID p)
        { manager := m.setLocked p true, call := .grantLease shardID p (m.deref p).ttlMS ch.now }
  | grantLease {shardID p : Nat} {ttlMS now : Int64} : CallStep clientID m shards ch (.grantLease shardID p ttlMS now)
      { manager := if ch.ok then (m.setLocked p false).addShard p shardID else m.setLocked p false
        commit := Call.proposal ch shardID (.leaseGrant clientID ttlMS now)
        call := .done (if ch.ok then .ok else .error .backend) }
  | keepAlive : CallStep clientID m shards ch .keepAlive (Call.lookup clientID m .listRenewals)
  | listRenewals {p : Nat} (hl : (m.deref p).locked = false) : CallStep clientID m shards ch (.listRenewals p)
      { manager := m, call := .stampRenewals p (m.deref p).shards (m.deref p).ttlMS }
  | stampRenewals {p : Nat} {todo : Finset Nat} {ttlMS : Int64} :
      CallStep clientID m shards ch (.stampRenewals p todo ttlMS)
        { manager := m, call := .renew p todo ∅ ch.now (leaseDeadline ch.now ttlMS) false }
  | renew {p : Nat} {todo lapsed : Finset Nat} {now deadline : Int64} {failed : Bool} (ht : ch.shard ∈ todo) :
      CallStep clientID m shards ch (.renew p todo lapsed now deadline failed)
        (Call.renewed clientID m shards ch p todo lapsed now deadline failed)
  | forget {p : Nat} {todo lapsed : Finset Nat} {now deadline : Int64} {failed : Bool} (ht : ch.shard ∈ lapsed)
      (hl : (m.deref p).locked = false) : CallStep clientID m shards ch (.renew p todo lapsed now deadline failed)
        { manager := m.deleteShard p ch.shard, call := .renew p todo (lapsed.erase ch.shard) now deadline failed }
  | renewed {p : Nat} {now deadline : Int64} {failed : Bool} :
      CallStep clientID m shards ch (.renew p ∅ ∅ now deadline failed)
        { manager := m, call := .done (if failed then .error .backend else .deadline deadline) }
  | close : CallStep clientID m shards ch .close
      { manager := m.remove clientID, call := ((m.get clientID).map Call.listRevokes).getD (.done .ok) }
  | listRevokes {p : Nat} (hl : (m.deref p).locked = false) :
      CallStep clientID m shards ch (.listRevokes p) { manager := m, call := .revoke (m.deref p).shards }
  | revoke {todo : Finset Nat} (ht : ch.shard ∈ todo) : CallStep clientID m shards ch (.revoke todo)
      { manager := m
        commit := Call.proposal ch ch.shard (.leaseRevoke clientID)
        call := .revoke (todo.erase ch.shard) }
  | revoked : CallStep clientID m shards ch (.revoke ∅) { manager := m, call := .done .ok }

section Inversion
variable {c : Str} {m : Manager} {shards : Nat → FSM} {ch : Choice} {call : Call} {r : Moved}

private theorem unlocked {p : Nat} (h : ¬(m.deref p).locked = true) : (m.deref p).locked = false :=
  Bool.not_eq_true _ |>.mp h

/-- Whatever the step function does is one of the steps of a call. -/
theorem step_call (h : call.step c m shards ch = some r) : CallStep c m shards ch call r := by
  cases call with
  | «open» | attach | ensureLease | keepAlive | grantLease | stampRenewals | close => cases h; constructor
  | refresh | record | listRenewals | listRevokes =>
    rw [Call.step] at h
    split at h
    · cases h
    · cases h
      constructor
      exact unlocked ‹_›
  | recover =>
    rw [Call.step] at h
    split at h
    · rename_i hg
      cases h
      exact .recover hg.1 hg.2
    · cases h
      exact .skip ‹_›
  | checkLease =>
    rw [Call.step] at h
    split at h
    · cases h
    · split at h
      · cases h
        exact .known (unlocked ‹_›) ‹_›
      · cases h
        exact .unknown (unlocked ‹_›) ‹_›
  | renew =>
    rw [Call.step] at h
    split at h
    · cases h
      exact .renew ‹_›
    · split at h
      · split at h
        · cases h
        · cases h
          exact .forget ‹_› (unlocked ‹_›)
      · split at h
        · rename_i he
          obtain ⟨rfl,rfl⟩ := he
          cases h
          exact .renewed
        · cases h
  | revoke =>
    rw [Call.step] at h
    split at h
    · cases h
      exact .revoke ‹_›
    · split at h
      · rename_i he
        cases he
        cases h
        exact .revoked
      · cases h
  | done => cases h

@[simp] theorem lookup_commit {f : Nat → Call} : (Call.lookup c m f).commit = none := by
  rw [Call.lookup]
  split
  · rfl
  · rfl

@[simp] theorem lookup_manager {f : Nat → Call} : (Call.lookup c m f).manager = m := by
  rw [Call.lookup]
  split
  · rfl
  · rfl

/-- A call on a client without a session is over, and otherwise goes on with it. -/
theorem lookup_cases (c : Str) (m : Manager) (f : Nat → Call) :
    Call.lookup c m f = { manager := m, call := .done (.error .noSession) } ∨
    ∃ p, m.get c = some p ∧ Call.lookup c m f = { manager := m, call := f p } := by
  rw [Call.lookup]
  cases m.get c with
  | none => exact .inl rfl
  | some p => exact .inr ⟨p,rfl,rfl⟩

/-- A proposal that commits is the command it was made with. -/
theorem proposal_eq {k k' : Nat} {cmd cmd' : Command} (h : Call.proposal ch k cmd = some (k',cmd')) :
    ch.commits = true ∧ k' = k ∧ cmd' = cmd := by
  rw [Call.proposal] at h
  split at h
  · cases h
    exact ⟨‹_›,rfl,rfl⟩
  · cases h

/-- The commands that calls get committed. -/
theorem CallStep.commits (h : CallStep c m shards ch call r) {k : Nat} {cmd : Command} (hr : r.commit = some (k,cmd)) :
    (∃ ttlMS now, cmd = .leaseGrant c ttlMS now) ∨ (∃ now, cmd = .leaseKeepAlive c now) ∨
    ∃ todo, call = .revoke todo ∧ k ∈ todo ∧ k = ch.shard ∧ ch.commits = true ∧ cmd = .leaseRevoke c := by
  cases h with
  | grantLease =>
    obtain ⟨_,_,rfl⟩ := proposal_eq hr
    exact .inl ⟨_,_,rfl⟩
  | renew =>
    obtain ⟨_,_,rfl⟩ := proposal_eq hr
    exact .inr (.inl ⟨_,rfl⟩)
  | revoke ht =>
    obtain ⟨hcom,rfl,rfl⟩ := proposal_eq hr
    exact .inr (.inr ⟨_,rfl,ht,rfl,hcom,rfl⟩)
  | attach | ensureLease | keepAlive => rw [lookup_commit] at hr; cases hr
  | _ => cases hr

/-- A call speaks for its own client only. -/
theorem CallStep.client (h : CallStep c m shards ch call r) {k : Nat} {cmd : Command}
    (hr : r.commit = some (k,cmd)) : cmd.clientID = c := by
  rcases h.commits hr with ⟨_,_,rfl⟩ | ⟨_,rfl⟩ | ⟨_,_,_,_,_,rfl⟩ <;> rfl

end Inversion
end Zuul.Sessions
