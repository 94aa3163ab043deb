import Zuul.Fsm.Apply
import Zuul.Fsm.Codec

/-! Commands on their way into a lock shard's log, and the log on its way into the
shard's state machine. -/
namespace Zuul.Raft
open Lib Wire Fsm
variable {f : FSM}

/-- A committed entry of a lock shard's log. -/
structure Entry where
  index : Nat
  cmd : Str

/-- What makes a batch fail, which is fatal to the node. -/
inductive UpdateError where
  | corruptCommand (index : Nat) (err : WireError)
  | apply (index : Nat) (err : String)
  deriving DecidableEq, Repr

/-- What a batch leaves behind. -/
structure Updated where
  fsm : FSM
  events : List Event := []
  results : Except UpdateError (List CommandResult)

/-- Update of the state machine adapter. Marshalling a result does not fail, so results
are kept as they are. -/
def update (f : FSM) : List Entry → Updated
  | [] => ⟨f,[],.ok []⟩
  | e :: es =>
    match unmarshal e.cmd with
    | .error err => ⟨f,[],.error (.corruptCommand e.index err)⟩
    | .ok msg =>
      match f.apply msg with
      | (f,_,.error err) => ⟨f,[],.error (.apply e.index err)⟩
      | (f,events,.ok res) =>
        let u := update f es
        ⟨u.fsm,events ++ u.events,u.results.map (res :: ·)⟩

/-- A batch is applied without an error exactly if every entry encodes a command,
whatever the state is. -/
theorem update_ok_iff {es : List Entry} :
    (∃ rs, (update f es).results = .ok rs) ↔ ∀ e ∈ es, CommandForm e.cmd := by
  induction es generalizing f with
  | nil => exact ⟨fun _ e he => (by cases he),fun _ => ⟨[],rfl⟩⟩
  | cons e es ih =>
    rw [List.forall_mem_cons,← unmarshal_set_iff,update]
    cases unmarshal e.cmd with
    | error err => exact ⟨fun ⟨_,h⟩ => (by cases h),fun ⟨⟨_,h⟩,_⟩ => (by cases h)⟩
    | ok msg =>
      cases msg with
      | nil | unset => exact ⟨fun ⟨_,h⟩ => (by cases h),fun ⟨⟨_,h⟩,_⟩ => (by cases h)⟩
      | set cmd =>
        rw [← @ih (f.step cmd).fsm]
        simp only [FSM.apply,Except.ok.injEq,Message.set.injEq,exists_eq',true_and]
        generalize update (f.step cmd).fsm es = u
        constructor
        · rintro ⟨rs,h⟩
          cases hr : u.results with
          | error err =>
            rw [hr] at h
            cases h
          | ok rs => exact ⟨rs,rfl⟩
        · rintro ⟨rs,h⟩
          exact ⟨_ :: rs,by rw [h]; rfl⟩

/-- What SyncPropose does with a command: it is committed and answered, or fails after
the command was committed or without. -/
inductive Sync where
  | done (data : Str)
  | failed (committed : Bool)

/-- A node: the lock shards it hosts, those it leads, and what was committed to each. -/
structure Host where
  hosted : List Nat
  leads : Nat → Bool
  log : Nat → List Str

inductive ProposeError where
  | notHosted (shardID : Nat)
  | unavailable
  deriving DecidableEq, Repr

namespace Host

def commit (h : Host) (shardID : Nat) (cmd : Str) : Host :=
  { h with log := fun k => if k = shardID then h.log k ++ [cmd] else h.log k }

/-- Propose of the consensus host. The command is not looked at. -/
def propose (h : Host) (shardID : Nat) (cmd : Str) (sync : Sync) : Host × Except ProposeError Str :=
  if shardID ∈ h.hosted then
    match sync with
    | .done data => (h.commit shardID cmd,.ok data)
    | .failed committed => (if committed then h.commit shardID cmd else h,.error .unavailable)
  else (h,.error (.notHosted shardID))

end Host

structure ProposeRequest where
  shardID : Nat
  command : Str

inductive ForwardError where
  | notLeader (shardID : Nat)
  | proposeOnShard (shardID : Nat) (err : ProposeError)
  deriving DecidableEq, Repr

/-- Propose of the forward server. -/
def forward (h : Host) (req : ProposeRequest) (sync : Sync) : Host × Except ForwardError Str :=
  if h.leads req.shardID then
    match h.propose req.shardID req.command sync with
    | (h,.ok res) => (h,.ok res)
    | (h,.error err) => (h,.error (.proposeOnShard req.shardID err))
  else (h,.error (.notLeader req.shardID))

private theorem propose_log {h : Host} {shardID : Nat} {cmd : Str} {sync : Sync} :
    (h.propose shardID cmd sync).1 = h ∨ (h.propose shardID cmd sync).1 = h.commit shardID cmd := by
  unfold Host.propose
  split
  · cases sync with
    | done data => exact .inr rfl
    | failed committed => cases committed with
      | true => exact .inr rfl
      | false => exact .inl rfl
  · exact .inl rfl

private theorem forward_log {h : Host} {req : ProposeRequest} {sync : Sync} :
    (forward h req sync).1 = h ∨ (forward h req sync).1 = h.commit req.shardID req.command := by
  rw [forward]
  split
  · have hp := @propose_log h req.shardID req.command sync
    generalize h.propose req.shardID req.command sync = r at hp
    obtain ⟨h',res⟩ := r
    cases res with
    | ok res => exact hp
    | error err => exact hp
  · exact .inl rfl

/-- What a forwarded request gets into a shard's log is its command, and every
replica applies that without an error, in whatever state it is, exactly if the bytes
encode a command. -/
theorem forwarded_command_applies_iff {h : Host} {req : ProposeRequest} {sync : Sync}
    (hc : (forward h req sync).1.log req.shardID ≠ h.log req.shardID) :
    (forward h req sync).1.log req.shardID = h.log req.shardID ++ [req.command] ∧
    ∀ f index, (∃ rs, (update f [⟨index,req.command⟩]).results = .ok rs) ↔ CommandForm req.command := by
  constructor
  · obtain he | he := @forward_log h req sync
    · exact absurd (congrArg (fun h : Host => h.log req.shardID) he) hc
    · rw [he]
      exact if_pos rfl
  · intro f index
    rw [update_ok_iff,List.forall_mem_singleton]

/-- The revocation of a lease, as it is marshalled. -/
theorem forwarded_revoke_applies :
    let h : Host := ⟨[1],fun _ => true,fun _ => []⟩
    let req : ProposeRequest := ⟨1,[0x32,3,0x0A,1,0x61]⟩
    (forward h req (.done [])).1.log 1 = [req.command] ∧
    ∀ f index, ∃ rs, (update f [⟨index,req.command⟩]).results = .ok rs := by
  intro h req
  have hf : CommandForm req.command := unmarshal_set_iff.mp ⟨.leaseRevoke (str "a"),rfl⟩
  obtain ⟨hl,ha⟩ := @forwarded_command_applies_iff h req (.done []) (by decide)
  exact ⟨hl,fun f index => (ha f index).mpr hf⟩

/-- A tag with the wrong wire type, and a message whose only field is none of a
command's: both get into the log, and a replica can apply neither. -/
theorem forwarded_bytes_poison :
    let h : Host := ⟨[1],fun _ => true,fun _ => []⟩
    (∃ h', forward h ⟨1,[0x08]⟩ (.done []) = (h',.ok []) ∧ h'.log 1 = [[0x08]]) ∧
    (update (new true) [⟨1,[0x08]⟩]).results = .error (.corruptCommand 1 (.wrongWireType 0 "AcquireLock")) ∧
    (∃ h', forward h ⟨1,[0x58,0]⟩ (.done []) = (h',.ok []) ∧ h'.log 1 = [[0x58,0]]) ∧
    (update (new true) [⟨1,[0x58,0]⟩]).results = .error (.apply 1 "fsm.Apply: unknown command type <nil>") := by
  exact ⟨⟨_,rfl,rfl⟩,rfl,⟨_,rfl,rfl⟩,rfl⟩

end Zuul.Raft
