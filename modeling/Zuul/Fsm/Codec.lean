import Zuul.Lib.Wire
import Zuul.Fsm.Message

/-! Decoding a log entry into a command, and the byte strings that hold one. -/
namespace Zuul.Fsm
open Lib Wire
variable {s p : Str}

/-- The messages the oneof of a command can hold. -/
inductive Variant where
  | acquireLock | releaseLock | cancelWait | leaseGrant | leaseKeepAlive | leaseRevoke | leaseExpire | campaign
  | proclaim | resign
  deriving DecidableEq, Repr

/-- The fields of all the variants; each has some of them. -/
structure Body where
  name : Str := []
  clientID : Str := []
  tryLock : Bool := false
  fencingToken : Nat := 0
  ttlMS : Int64 := 0
  now : Int64 := 0
  value : Bytes := none

/-- Entries numbered from one, as the fields of the messages are. -/
def numbered {α : Type} (entries : List α) : Nat → Option α
  | 0 => none
  | n + 1 => entries[n]?

namespace Body

def nameField : KnownField Body := .bytes "Name" (fun p b => .ok { b with name := p })
def clientIDField : KnownField Body := .bytes "ClientId" (fun p b => .ok { b with clientID := p })
def tryLockField : KnownField Body := .varint "TryLock" (fun v b => { b with tryLock := v != 0 })
def fencingTokenField : KnownField Body := .varint "FencingToken" (fun v b => { b with fencingToken := v.toNat })
def ttlMSField : KnownField Body := .varint "TtlMs" (fun v b => { b with ttlMS := v.toInt64 })
def nowField : KnownField Body := .varint "NowUnixNano" (fun v b => { b with now := v.toInt64 })
/-- An empty value that is present is not nil. -/
def valueField : KnownField Body := .bytes "Value" (fun p b => .ok { b with value := some p })

end Body

namespace Variant
open Body

/-- The numbers of the variants in a command. -/
def ofNumber : Nat → Option Variant :=
  numbered [acquireLock,releaseLock,cancelWait,leaseGrant,leaseKeepAlive,leaseRevoke,leaseExpire,campaign,proclaim,
    resign]

def schema : Variant → Schema Body
  | acquireLock => ⟨"AcquireLock",numbered [nameField,clientIDField,tryLockField]⟩
  | releaseLock => ⟨"ReleaseLock",numbered [nameField,clientIDField,fencingTokenField]⟩
  | cancelWait => ⟨"CancelWait",numbered [nameField,clientIDField]⟩
  | leaseGrant => ⟨"LeaseGrant",numbered [clientIDField,ttlMSField,nowField]⟩
  | leaseKeepAlive => ⟨"LeaseKeepAlive",numbered [clientIDField,nowField]⟩
  | leaseRevoke => ⟨"LeaseRevoke",numbered [clientIDField]⟩
  | leaseExpire => ⟨"LeaseExpire",numbered [clientIDField,nowField]⟩
  | campaign => ⟨"Campaign",numbered [nameField,clientIDField,valueField]⟩
  | proclaim => ⟨"Proclaim",numbered [nameField,clientIDField,fencingTokenField,valueField]⟩
  | resign => ⟨"Resign",numbered [nameField,clientIDField,fencingTokenField]⟩

def command (b : Body) : Variant → Command
  | acquireLock => .acquireLock b.name b.clientID b.tryLock
  | releaseLock => .releaseLock b.name b.clientID b.fencingToken
  | cancelWait => .cancelWait b.name b.clientID
  | leaseGrant => .leaseGrant b.clientID b.ttlMS b.now
  | leaseKeepAlive => .leaseKeepAlive b.clientID b.now
  | leaseRevoke => .leaseRevoke b.clientID
  | leaseExpire => .leaseExpire b.clientID b.now
  | campaign => .campaign b.name b.clientID b.value
  | proclaim => .proclaim b.name b.clientID b.fencingToken b.value
  | resign => .resign b.name b.clientID b.fencingToken

/-- A field of the oneof. The same variant again is merged into, another one replaced. -/
def put (v : Variant) (p : Str) (m : Option (Variant × Body)) : Except WireError (Option (Variant × Body)) := do
  let old := match m with
    | some (v',b) => if v' = v then b else {}
    | none => {}
  let b ← v.schema.decode old p
  .ok (some (v,b))

end Variant

def commandSchema : Schema (Option (Variant × Body)) :=
  ⟨"Command",fun n => (Variant.ofNumber n).map (fun v => .bytes v.schema.message v.put)⟩

/-- UnmarshalVT of a command. -/
def unmarshal (s : Str) : Except WireError Message :=
  (commandSchema.decode none s).map (fun
    | none => .unset
    | some (v,b) => .set (v.command b))

section Forms

/-- The fields of the variants as the wire format sees them. -/
def Variant.shape : Variant → Nat → Option Shape
  | .acquireLock | .releaseLock | .resign => numbered [text,text,.varint]
  | .cancelWait => numbered [text,text]
  | .leaseGrant => numbered [text,.varint,.varint]
  | .leaseKeepAlive | .leaseExpire => numbered [text,.varint]
  | .leaseRevoke => numbered [text]
  | .campaign => numbered [text,text,text]
  | .proclaim => numbered [text,text,.varint,text]
where
  text : Shape := .bytes (fun _ => True)

/-- The encodings of one variant. -/
def BodyForm (v : Variant) (p : Str) : Prop := ∃ rs, Records rs p ∧ ∀ r ∈ rs, r.Fits v.shape

/-- A command knows the fields one to ten, each an encoding of its variant. -/
def commandShape (n : Nat) : Option Shape := (Variant.ofNumber n).map (fun v => .bytes (BodyForm v))

/-- The encodings of a command with its oneof set: at least one of its fields is there. -/
def CommandForm (s : Str) : Prop :=
  ∃ rs, Records rs s ∧ (∀ r ∈ rs, r.Fits commandShape) ∧ ∃ r ∈ rs, 1 ≤ r.num ∧ r.num ≤ 10

private theorem describes_numbered {M : Type} {fs : List (KnownField M)} {qs : List Shape}
    (h : List.Forall₂ (fun f q => Describes (some f) (some q)) fs qs) (n : Nat) :
    Describes (numbered fs n) (numbered qs n) := by
  cases n with
  | zero => exact .unknown
  | succ n =>
    rw [numbered,numbered]
    induction h generalizing n with
    | nil => exact .unknown
    | cons h _ ih =>
      cases n with
      | zero => exact h
      | succ n => exact ih n

private theorem describes_text {name : String} {set : Str → Body → Body} :
    Describes (some (.bytes name (fun p b => .ok (set p b)))) (some Variant.shape.text) :=
  .bytes (fun p b => ⟨fun _ => trivial,fun _ => ⟨set p b,rfl⟩⟩)

private theorem describes_body (v : Variant) : ∀ n, Describes (v.schema.field n) (v.shape n) := by
  have h₁ {name : String} {set : Str → Body → Body} := @describes_text name set
  cases v with
  | acquireLock | releaseLock | resign => exact describes_numbered (.cons h₁ (.cons h₁ (.cons .varint .nil)))
  | cancelWait => exact describes_numbered (.cons h₁ (.cons h₁ .nil))
  | leaseGrant => exact describes_numbered (.cons h₁ (.cons .varint (.cons .varint .nil)))
  | leaseKeepAlive | leaseExpire => exact describes_numbered (.cons h₁ (.cons .varint .nil))
  | leaseRevoke => exact describes_numbered (.cons h₁ .nil)
  | campaign => exact describes_numbered (.cons h₁ (.cons h₁ (.cons h₁ .nil)))
  | proclaim => exact describes_numbered (.cons h₁ (.cons h₁ (.cons .varint (.cons h₁ .nil))))

private theorem put_ok_iff {v : Variant} {m : Option (Variant × Body)} :
    (∃ m', v.put p m = .ok m') ↔ BodyForm v p := by
  simp only [Variant.put,bind_ok,Schema.decode_iff]
  constructor
  · rintro ⟨_,b,⟨rs,hrs,hb⟩,-⟩
    exact ⟨rs,hrs,(hrs.reads_iff (describes_body v)).mp ⟨b,hb⟩⟩
  · rintro ⟨rs,hrs,hfit⟩
    obtain ⟨b,hb⟩ := (hrs.reads_iff (describes_body v)).mpr hfit
    exact ⟨_,b,⟨rs,hrs,hb⟩,rfl⟩

private theorem describes_command (n : Nat) : Describes (commandSchema.field n) (commandShape n) := by
  unfold commandSchema commandShape
  dsimp only
  cases Variant.ofNumber n with
  | none => exact .unknown
  | some v => exact .bytes (fun _ _ => put_ok_iff)

private theorem ofNumber_isSome_iff {n : Nat} : (Variant.ofNumber n).isSome ↔ 1 ≤ n ∧ n ≤ 10 := by
  cases n with
  | zero => decide
  | succ n =>
    rw [Variant.ofNumber,numbered,isSome_getElem?]
    change n < 10 ↔ 1 ≤ n + 1 ∧ n + 1 ≤ 10
    omega

private theorem reads_isSome {m m' : Option (Variant × Body)} {rs : List Rec} (h : commandSchema.Reads m rs m') :
    m'.isSome ↔ m.isSome ∨ ∃ r ∈ rs, 1 ≤ r.num ∧ r.num ≤ 10 := by
  induction h with
  | nil => simp
  | @cons m m₁ m₂ r rs h _ ih =>
    have hset : m₁.isSome ↔ m.isSome ∨ (1 ≤ r.num ∧ r.num ≤ 10) := by
      rw [← ofNumber_isSome_iff]
      unfold Schema.Sets commandSchema at h
      cases hv : Variant.ofNumber r.num with
      | none =>
        simp only [hv,Option.map_none] at h
        simp [h]
      | some v =>
        simp only [hv,Option.map_some] at h
        obtain ⟨-,p,-,hp⟩ := h
        obtain ⟨b,-,he⟩ := bind_ok.mp hp
        cases he
        simp
    rw [ih,hset,List.exists_mem_cons_iff,or_assoc]

private theorem unmarshal_eq_set {cmd : Command} (h : unmarshal s = .ok (.set cmd)) :
    ∃ m, commandSchema.decode none s = .ok m ∧ m.isSome := by
  rw [unmarshal] at h
  cases hd : commandSchema.decode none s with
  | error e =>
    rw [hd] at h
    cases h
  | ok m =>
    rw [hd] at h
    cases m with
    | none => cases h
    | some _ => exact ⟨_,rfl,rfl⟩

/-- A byte string decodes to a command with its oneof set exactly if it encodes one. -/
theorem unmarshal_set_iff : (∃ cmd, unmarshal s = .ok (.set cmd)) ↔ CommandForm s := by
  constructor
  · rintro ⟨cmd,h⟩
    obtain ⟨m,hm,hs⟩ := unmarshal_eq_set h
    obtain ⟨rs,hrs,hr⟩ := Schema.decode_iff.mp hm
    exact ⟨rs,hrs,(hrs.reads_iff describes_command).mp ⟨m,hr⟩,((reads_isSome hr).mp hs).resolve_left (by simp)⟩
  · rintro ⟨rs,hrs,hfit,hex⟩
    obtain ⟨m,hr⟩ := (hrs.reads_iff describes_command).mpr hfit
    obtain ⟨⟨v,b⟩,rfl⟩ := Option.isSome_iff_exists.mp ((reads_isSome hr).mpr (.inr hex))
    refine ⟨v.command b,?_⟩
    rw [unmarshal,Schema.decode_iff.mpr ⟨rs,hrs,hr⟩]
    rfl

end Forms
end Zuul.Fsm
