import Zuul.Lib.Marshal
import Zuul.Fsm.CatchUp
import Zuul.Fsm.Codec

/-! Marshalling commands and their results; both come back from the wire as they
were, apart from empty values. -/
namespace Zuul.Fsm
open Lib Wire Marshaller
variable {name clientID : Str} {tryLock : Bool} {fencingToken : Nat} {ttlMS now : Int64} {value : Bytes}

namespace Marshal

def acquireLock (name clientID : Str) (tryLock : Bool) : Marshaller :=
  fields [bytes 0x0A name,bytes 0x12 clientID,bool 0x18 tryLock]

def releaseLock (name clientID : Str) (fencingToken : Nat) : Marshaller :=
  fields [bytes 0x0A name,bytes 0x12 clientID,varint 0x18 fencingToken.toUInt64]

def cancelWait (name clientID : Str) : Marshaller := fields [bytes 0x0A name,bytes 0x12 clientID]

def leaseGrant (clientID : Str) (ttlMS now : Int64) : Marshaller :=
  fields [bytes 0x0A clientID,varint 0x10 ttlMS.toUInt64,varint 0x18 now.toUInt64]

def leaseKeepAlive (clientID : Str) (now : Int64) : Marshaller :=
  fields [bytes 0x0A clientID,varint 0x10 now.toUInt64]

def leaseRevoke (clientID : Str) : Marshaller := fields [bytes 0x0A clientID]

def leaseExpire (clientID : Str) (now : Int64) : Marshaller := fields [bytes 0x0A clientID,varint 0x10 now.toUInt64]

def campaign (name clientID : Str) (value : Bytes) : Marshaller :=
  fields [bytes 0x0A name,bytes 0x12 clientID,bytes 0x1A (value.getD [])]

def proclaim (name clientID : Str) (fencingToken : Nat) (value : Bytes) : Marshaller :=
  fields [bytes 0x0A name,bytes 0x12 clientID,varint 0x18 fencingToken.toUInt64,bytes 0x22 (value.getD [])]

def resign (name clientID : Str) (fencingToken : Nat) : Marshaller :=
  fields [bytes 0x0A name,bytes 0x12 clientID,varint 0x18 fencingToken.toUInt64]

end Marshal

namespace Command

/-- The field of the oneof that is set, and nothing else. -/
def marshaller : Command → Marshaller
  | acquireLock name c tryLock => message 0x0A (Marshal.acquireLock name c tryLock)
  | releaseLock name c token => message 0x12 (Marshal.releaseLock name c token)
  | cancelWait name c => message 0x1A (Marshal.cancelWait name c)
  | leaseGrant c ttlMS now => message 0x22 (Marshal.leaseGrant c ttlMS now)
  | leaseKeepAlive c now => message 0x2A (Marshal.leaseKeepAlive c now)
  | leaseRevoke c => message 0x32 (Marshal.leaseRevoke c)
  | leaseExpire c now => message 0x3A (Marshal.leaseExpire c now)
  | campaign name c value => message 0x42 (Marshal.campaign name c value)
  | proclaim name c token value => message 0x4A (Marshal.proclaim name c token value)
  | resign name c token => message 0x52 (Marshal.resign name c token)

/-- MarshalVT of a command. -/
def marshal (cmd : Command) : Option Str := cmd.marshaller.marshal

/-- The token a command carries, if it carries one. -/
def token : Command → Nat
  | releaseLock _ _ t | proclaim _ _ t _ | resign _ _ t => t
  | _ => 0

/-- The token is a uint64, and the size an int. -/
structure Fits (cmd : Command) : Prop where
  token : cmd.token < UInt64.size
  size : cmd.marshaller.size ≤ maxInt

/-- The command as it is decoded: an empty value is nil. -/
def decoded : Command → Command
  | campaign name c value => campaign name c (decodeBytes value)
  | proclaim name c token value => proclaim name c token (decodeBytes value)
  | cmd => cmd

end Command

section Fields
variable {M : Type} {σ : Schema M} {m : M} {t : UInt8} {field : String}

/-- A value that is nil when it is absent, and absent when it is empty. -/
theorem decodes_value (set : Bytes → M → M) (ht : ShortTag t 2)
    (hf : σ.field (t.toNat / 8) = some (.bytes field (fun p m => .ok (set (some p) m)))) (hz : set none m = m) :
    (bytes t (value.getD [])).Decodes σ m (set (decodeBytes value) m) := by
  match value with
  | none => exact decodes_bytes ht hf (fun h => absurd rfl h) (fun _ => hz)
  | some [] => exact decodes_bytes ht hf (fun h => absurd rfl h) (fun _ => hz)
  | some (b :: bs) => exact decodes_bytes ht hf (fun _ => rfl) (fun h => by cases h)

end Fields

section Bodies
variable {σ : Schema Body} {b : Body} {t : UInt8}
open Body

private theorem name_decodes (ht : ShortTag t 2) (hf : σ.field (t.toNat / 8) = some nameField) (hb : b.name = []) :
    (bytes t name).Decodes σ b { b with name } :=
  decodes_bytes ht hf (fun _ => rfl) (fun h => by rw [h,← hb])

private theorem clientID_decodes (ht : ShortTag t 2) (hf : σ.field (t.toNat / 8) = some clientIDField)
    (hb : b.clientID = []) : (bytes t clientID).Decodes σ b { b with clientID } :=
  decodes_bytes ht hf (fun _ => rfl) (fun h => by rw [h,← hb])

private theorem tryLock_decodes (ht : ShortTag t 0) (hf : σ.field (t.toNat / 8) = some tryLockField)
    (hb : b.tryLock = false) : (bool t tryLock).Decodes σ b { b with tryLock } :=
  decodes_bool ht hf (fun h => by rw [h]; rfl) (fun h => by rw [h,← hb])

private theorem token_decodes (ht : ShortTag t 0) (hf : σ.field (t.toNat / 8) = some fencingTokenField)
    (hb : b.fencingToken = 0) (hn : fencingToken < UInt64.size) :
    (varint t fencingToken.toUInt64).Decodes σ b { b with fencingToken } :=
  decodes_nat (fun n (b : Body) => { b with fencingToken := n }) ht hf hn (by rw [← hb])

private theorem ttlMS_decodes (ht : ShortTag t 0) (hf : σ.field (t.toNat / 8) = some ttlMSField)
    (hb : b.ttlMS = 0) : (varint t ttlMS.toUInt64).Decodes σ b { b with ttlMS } :=
  decodes_int64 (fun n (b : Body) => { b with ttlMS := n }) ht hf (by rw [← hb])

private theorem now_decodes (ht : ShortTag t 0) (hf : σ.field (t.toNat / 8) = some nowField)
    (hb : b.now = 0) : (varint t now.toUInt64).Decodes σ b { b with now } :=
  decodes_int64 (fun n (b : Body) => { b with now := n }) ht hf (by rw [← hb])

private theorem value_decodes (ht : ShortTag t 2) (hf : σ.field (t.toNat / 8) = some valueField)
    (hb : b.value = none) : (bytes t (value.getD [])).Decodes σ b { b with value := decodeBytes value } :=
  decodes_value (fun v (b : Body) => { b with value := v }) ht hf (by rw [← hb])

private theorem oneof_decodes {c : Marshaller} {v : Variant} {b : Body} (ht : ShortTag t 2)
    (hv : Variant.ofNumber (t.toNat / 8) = some v) (hc : c.Decodes v.schema {} b) :
    (message t c).Decodes commandSchema none (some (v,b)) := by
  refine decodes_message ht (congrArg (Option.map _) hv) hc (fun p hp => ?_)
  rw [Variant.put,hp]
  rfl

end Bodies

private theorem command_decodes (cmd : Command) (h : cmd.token < UInt64.size) :
    ∃ v b, cmd.marshaller.Decodes commandSchema none (some (v,b)) ∧ v.command b = cmd.decoded := by
  cases cmd with
  | acquireLock name c tryLock =>
    refine ⟨.acquireLock,{ name, clientID := c, tryLock },oneof_decodes (by decide) rfl ?_,rfl⟩
    exact decodes_cons (name_decodes (by decide) rfl rfl) (decodes_cons (clientID_decodes (by decide) rfl rfl)
      (decodes_cons (tryLock_decodes (by decide) rfl rfl) decodes_nil))
  | releaseLock name c token =>
    refine ⟨.releaseLock,{ name, clientID := c, fencingToken := token },oneof_decodes (by decide) rfl ?_,rfl⟩
    exact decodes_cons (name_decodes (by decide) rfl rfl) (decodes_cons (clientID_decodes (by decide) rfl rfl)
      (decodes_cons (token_decodes (by decide) rfl rfl h) decodes_nil))
  | cancelWait name c =>
    refine ⟨.cancelWait,{ name, clientID := c },oneof_decodes (by decide) rfl ?_,rfl⟩
    exact decodes_cons (name_decodes (by decide) rfl rfl) (decodes_cons (clientID_decodes (by decide) rfl rfl)
      decodes_nil)
  | leaseGrant c ttlMS now =>
    refine ⟨.leaseGrant,{ clientID := c, ttlMS, now },oneof_decodes (by decide) rfl ?_,rfl⟩
    exact decodes_cons (clientID_decodes (by decide) rfl rfl) (decodes_cons (ttlMS_decodes (by decide) rfl rfl)
      (decodes_cons (now_decodes (by decide) rfl rfl) decodes_nil))
  | leaseKeepAlive c now =>
    refine ⟨.leaseKeepAlive,{ clientID := c, now },oneof_decodes (by decide) rfl ?_,rfl⟩
    exact decodes_cons (clientID_decodes (by decide) rfl rfl) (decodes_cons (now_decodes (by decide) rfl rfl)
      decodes_nil)
  | leaseRevoke c =>
    refine ⟨.leaseRevoke,{ clientID := c },oneof_decodes (by decide) rfl ?_,rfl⟩
    exact decodes_cons (clientID_decodes (by decide) rfl rfl) decodes_nil
  | leaseExpire c now =>
    refine ⟨.leaseExpire,{ clientID := c, now },oneof_decodes (by decide) rfl ?_,rfl⟩
    exact decodes_cons (clientID_decodes (by decide) rfl rfl) (decodes_cons (now_decodes (by decide) rfl rfl)
      decodes_nil)
  | campaign name c value =>
    refine ⟨.campaign,{ name, clientID := c, value := decodeBytes value },oneof_decodes (by decide) rfl ?_,rfl⟩
    exact decodes_cons (name_decodes (by decide) rfl rfl) (decodes_cons (clientID_decodes (by decide) rfl rfl)
      (decodes_cons (value_decodes (by decide) rfl rfl) decodes_nil))
  | proclaim name c token value =>
    refine ⟨.proclaim,{ name, clientID := c, fencingToken := token, value := decodeBytes value },
      oneof_decodes (by decide) rfl ?_,rfl⟩
    exact decodes_cons (name_decodes (by decide) rfl rfl) (decodes_cons (clientID_decodes (by decide) rfl rfl)
      (decodes_cons (token_decodes (by decide) rfl rfl h) (decodes_cons (value_decodes (by decide) rfl rfl)
        decodes_nil)))
  | resign name c token =>
    refine ⟨.resign,{ name, clientID := c, fencingToken := token },oneof_decodes (by decide) rfl ?_,rfl⟩
    exact decodes_cons (name_decodes (by decide) rfl rfl) (decodes_cons (clientID_decodes (by decide) rfl rfl)
      (decodes_cons (token_decodes (by decide) rfl rfl h) decodes_nil))

/-- A command fills a buffer of exactly its size, and what it writes decodes to it. -/
theorem unmarshal_marshal {cmd : Command} (h : cmd.Fits) :
    ∃ bs, cmd.marshal = some bs ∧ bs.length = cmd.marshaller.size ∧ unmarshal bs = .ok (.set cmd.decoded) := by
  obtain ⟨v,b,hd,hcmd⟩ := command_decodes cmd h.token
  obtain ⟨bs,hm,hl,hu⟩ := hd.round_trip h.size
  refine ⟨bs,hm,hl,?_⟩
  rw [unmarshal,hu,← hcmd]
  rfl

private theorem getD_decodeBytes (value : Bytes) : (decodeBytes value).getD [] = value.getD [] := by
  match value with
  | none => rfl
  | some [] => rfl
  | some (b :: bs) => rfl

private theorem marshaller_decoded (cmd : Command) : cmd.decoded.marshaller = cmd.marshaller := by
  cases cmd with
  | campaign name c value => simp only [Command.decoded,Command.marshaller,Marshal.campaign,getD_decodeBytes]
  | proclaim name c token value => simp only [Command.decoded,Command.marshaller,Marshal.proclaim,getD_decodeBytes]
  | _ => rfl

/-- A command is written in exactly as many bytes as were counted before, they decode to
it, and two commands are written alike just when they are decoded alike. -/
theorem command_bytes_exact {cmd cmd' : Command} (h : cmd.Fits) (h' : cmd'.Fits) :
    (∃ bs, cmd.marshal = some bs ∧ bs.length = cmd.marshaller.size ∧ unmarshal bs = .ok (.set cmd.decoded)) ∧
    (cmd.marshal = cmd'.marshal ↔ cmd.decoded = cmd'.decoded) := by
  obtain ⟨bs,hm,hl,hu⟩ := unmarshal_marshal h
  obtain ⟨bs',hm',-,hu'⟩ := unmarshal_marshal h'
  refine ⟨⟨bs,hm,hl,hu⟩,fun he => ?_,fun he => ?_⟩
  · obtain rfl : bs = bs' := Option.some.inj (by rw [← hm,← hm',he])
    exact Message.set.inj (Except.ok.inj (hu.symm.trans hu'))
  · rw [Command.marshal,Command.marshal,← marshaller_decoded cmd,← marshaller_decoded cmd',he]

/-- An empty value and no value are the same bytes. -/
theorem empty_campaign_bytes :
    let cmd := Command.campaign (str "k") (str "a") (some [])
    cmd.marshal = some [0x42,6,0x0A,1,107,0x12,1,97] ∧ cmd.marshal = (Command.campaign (str "k") (str "a") none).marshal := by
  intro cmd
  exact ⟨by decide,(command_bytes_exact ⟨by decide,by decide⟩ ⟨by decide,by decide⟩).2.mpr rfl⟩

section Results

/-- The numbers of the outcomes. -/
def Outcome.number : Outcome → Nat
  | unknown => 0
  | granted => 1
  | queued => 2
  | notAcquired => 3
  | released => 4
  | notHolder => 5
  | staleToken => 6
  | noLease => 7
  | leaseGranted => 8
  | leaseRenewed => 9
  | leaseRevoked => 10
  | leaseExpired => 11
  | valueUpdated => 12
  | notFound => 13
  | noop => 14

/-- A result as it is decoded, where any number may stand for the outcome. -/
structure ResultMessage where
  outcome : Int32 := 0
  revision : Nat := 0
  fencingToken : Nat := 0
  lockKey : Str := []
  queuePosition : Nat := 0
  currentHolder : Str := []
  leaseDeadline : Int64 := 0
  value : Bytes := none
  deriving DecidableEq

def resultSchema : Schema ResultMessage :=
  ⟨"CommandResult",numbered [.varint "Outcome" (fun v r => { r with outcome := v.toUInt32.toInt32 }),
    .varint "Revision" (fun v r => { r with revision := v.toNat }),
    .varint "FencingToken" (fun v r => { r with fencingToken := v.toNat }),
    .bytes "LockKey" (fun p r => .ok { r with lockKey := p }),
    .varint "QueuePosition" (fun v r => { r with queuePosition := v.toUInt32.toNat }),
    .bytes "CurrentHolder" (fun p r => .ok { r with currentHolder := p }),
    .varint "LeaseDeadlineUnixNano" (fun v r => { r with leaseDeadline := v.toInt64 }),
    .bytes "Value" (fun p r => .ok { r with value := some p })]⟩

/-- UnmarshalVT of a result. -/
def unmarshalResult (s : Str) : Except WireError ResultMessage := resultSchema.decode {} s

namespace CommandResult

def marshaller (r : CommandResult) : Marshaller :=
  fields [varint 0x08 r.outcome.number.toUInt64,varint 0x10 r.revision.toUInt64,varint 0x18 r.fencingToken.toUInt64,
    bytes 0x22 r.lockKey,varint 0x28 r.queuePosition.toUInt64,bytes 0x32 r.currentHolder,
    varint 0x38 r.leaseDeadline.toUInt64,bytes 0x42 (r.value.getD [])]

/-- MarshalVT of a result. -/
def marshal (r : CommandResult) : Option Str := r.marshaller.marshal

/-- The result as it is decoded. -/
def message (r : CommandResult) : ResultMessage where
  outcome := .ofNat r.outcome.number
  revision := r.revision
  fencingToken := r.fencingToken
  lockKey := r.lockKey
  queuePosition := r.queuePosition
  currentHolder := r.currentHolder
  leaseDeadline := r.leaseDeadline
  value := decodeBytes r.value

/-- The numbers are of their widths, and the size is an int. -/
structure Fits (r : CommandResult) : Prop where
  revision : r.revision < UInt64.size
  token : r.fencingToken < UInt64.size
  position : r.queuePosition < UInt32.size
  size : r.marshaller.size ≤ maxInt

end CommandResult

private theorem outcome_decodes {o : Outcome} : (varint 0x08 o.number.toUInt64).Decodes resultSchema {}
    { outcome := .ofNat o.number } := by
  refine decodes_varint (by decide) rfl ?_ (fun h => ?_)
  · cases o <;> rfl
  · cases o with
    | unknown => rfl
    | _ => cases h

private theorem position_decodes {m : ResultMessage} {k : Nat} (hm : m.queuePosition = 0) (hk : k < UInt32.size) :
    (varint 0x28 k.toUInt64).Decodes resultSchema m { m with queuePosition := k } := by
  have hv : k.toUInt64.toUInt32.toNat = k := by
    rw [UInt64.toNat_toUInt32,Nat.toUInt64,UInt64.toNat_ofNat_of_lt' (Nat.lt_trans hk (by decide))]
    exact Nat.mod_eq_of_lt hk
  refine decodes_varint (by decide) rfl (by rw [hv]) (fun h => ?_)
  rw [h] at hv
  rw [← hv,show (UInt64.toUInt32 0).toNat = 0 from rfl,← hm]

/-- A result fills a buffer of exactly its size, and what it writes decodes to it. -/
theorem unmarshalResult_marshal {r : CommandResult} (h : r.Fits) :
    ∃ bs, r.marshal = some bs ∧ bs.length = r.marshaller.size ∧ unmarshalResult bs = .ok r.message := by
  have hd : r.marshaller.Decodes resultSchema {} r.message := by
    refine decodes_cons outcome_decodes ?_
    refine decodes_cons (decodes_nat (fun n (r : ResultMessage) => { r with revision := n }) (by decide) rfl h.revision
      rfl) ?_
    refine decodes_cons (decodes_nat (fun n (r : ResultMessage) => { r with fencingToken := n }) (by decide) rfl
      h.token rfl) ?_
    refine decodes_cons (decodes_bytes (by decide) rfl (fun _ => rfl) (fun h => by rw [h])) ?_
    refine decodes_cons (position_decodes rfl h.position) ?_
    refine decodes_cons (decodes_bytes (by decide) rfl (fun _ => rfl) (fun h => by rw [h])) ?_
    refine decodes_cons (decodes_int64 (fun n (r : ResultMessage) => { r with leaseDeadline := n }) (by decide) rfl
      rfl) ?_
    exact decodes_cons (decodes_value (fun v (r : ResultMessage) => { r with value := v }) (by decide) rfl rfl)
      decodes_nil
  exact hd.round_trip h.size

end Results
end Zuul.Fsm
