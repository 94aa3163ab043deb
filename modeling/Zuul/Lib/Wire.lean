import Mathlib.Algebra.Ring.Nat
import Mathlib.Data.List.Basic

/-! The protocol buffer wire format: a decoder driven by a message schema, and the
language it accepts. -/
namespace Zuul.Lib.Wire
variable {M : Type} {s rest bs : List UInt8} {v w : UInt64}

/-- The ways decoding fails, with what the error texts show. -/
inductive WireError where
  | intOverflow
  | unexpectedEOF
  | invalidLength
  | unexpectedEndOfGroup
  | illegalWireType (wireType : Nat)
  | endGroup (message : String)
  | illegalTag (message : String) (fieldNum : Int32) (wire : UInt64)
  | wrongWireType (wireType : Nat) (field : String)
  deriving DecidableEq, Repr

section Varints

/-- The loop over the bytes of a varint. Bits past the 64th are shifted out. -/
def varintFrom (shift : Nat) (acc : UInt64) : List UInt8 → Except WireError (UInt64 × List UInt8)
  | [] => .error (if 64 ≤ shift then .intOverflow else .unexpectedEOF)
  | b :: s =>
    if 64 ≤ shift then .error .intOverflow
    else
      let acc := acc ||| (b &&& 0x7F).toUInt64 <<< shift.toUInt64
      if b < 0x80 then .ok (acc,s) else varintFrom (shift + 7) acc s

def varint (s : List UInt8) : Except WireError (UInt64 × List UInt8) := varintFrom 0 0 s

/-- Seven bits a byte, least significant first. -/
def base128 : List UInt8 → Nat
  | [] => 0
  | b :: s => b.toNat % 128 + 128 * base128 s

/-- All bytes but the last have the continuation bit. -/
inductive Chain : List UInt8 → Prop where
  | last {b : UInt8} (hb : b < 0x80) : Chain [b]
  | more {b : UInt8} {s : List UInt8} (hb : ¬ b < 0x80) (hs : Chain s) : Chain (b :: s)

/-- The encodings of a 64-bit number: at most ten bytes, whether or not it needs them. -/
structure Varint (v : UInt64) (bs : List UInt8) : Prop where
  chain : Chain bs
  short : bs.length ≤ 10
  value : v.toNat = base128 bs % UInt64.size

private theorem Chain.pos (h : Chain bs) : 0 < bs.length := by cases h <;> simp

private theorem toNat_or_shift {acc : UInt64} {shift : Nat} (b : UInt8) (hs : shift < 64)
    (ha : acc.toNat < 2 ^ shift) : (acc ||| (b &&& 0x7F).toUInt64 <<< shift.toUInt64).toNat =
      (acc.toNat + 2 ^ shift * (b.toNat % 128)) % UInt64.size := by
  have hb : (b &&& 0x7F).toUInt64.toNat = b.toNat % 128 := by
    rw [UInt8.toNat_toUInt64,UInt8.toNat_and]
    exact Nat.and_two_pow_sub_one_eq_mod b.toNat 7
  have hn : shift.toUInt64.toNat % 64 = shift := by
    simp only [Nat.toUInt64,UInt64.toNat_ofNat']
    omega
  have hz : 2 ^ 64 = 2 ^ shift * 2 ^ (64 - shift) := by
    rw [← Nat.pow_add,Nat.add_sub_cancel' (Nat.le_of_lt hs)]
  have hm : (acc.toNat + 2 ^ shift * (b.toNat % 128)) % (2 ^ shift * 2 ^ (64 - shift)) =
      2 ^ shift * (b.toNat % 128 % 2 ^ (64 - shift)) + acc.toNat := by
    rw [Nat.mod_mul,Nat.add_mul_mod_self_left,Nat.add_mul_div_left _ _ (Nat.two_pow_pos shift),
      Nat.mod_eq_of_lt ha,Nat.div_eq_of_lt ha,Nat.zero_add,Nat.add_comm]
  rw [UInt64.toNat_or,UInt64.toNat_shiftLeft,hb,hn,Nat.shiftLeft_eq,show UInt64.size = 2 ^ 64 from rfl,hz,hm,
    Nat.two_pow_add_eq_or_of_lt ha,Nat.or_comm,Nat.mul_comm,Nat.mul_mod_mul_left]

private theorem or_shift_lt {acc : UInt64} {shift : Nat} (b : UInt8) (hs : shift + 7 < 64)
    (ha : acc.toNat < 2 ^ shift) : (acc ||| (b &&& 0x7F).toUInt64 <<< shift.toUInt64).toNat < 2 ^ (shift + 7) := by
  rw [toNat_or_shift b (by omega) ha]
  have hb : b.toNat % 128 ≤ 127 := Nat.le_of_lt_succ (Nat.mod_lt _ (by omega))
  calc (acc.toNat + 2 ^ shift * (b.toNat % 128)) % UInt64.size
      ≤ acc.toNat + 2 ^ shift * (b.toNat % 128) := Nat.mod_le _ _
    _ ≤ acc.toNat + 2 ^ shift * 127 := Nat.add_le_add_left (Nat.mul_le_mul_left _ hb) _
    _ < 2 ^ (shift + 7) := by rw [Nat.pow_add]; omega

private theorem base128_step {a shift : Nat} (b : UInt8) (s : List UInt8) :
    ((a + 2 ^ shift * (b.toNat % 128)) % UInt64.size + 2 ^ (shift + 7) * base128 s) % UInt64.size =
      (a + 2 ^ shift * base128 (b :: s)) % UInt64.size := by
  rw [Nat.mod_add_mod,base128,Nat.mul_add,← Nat.add_assoc,← Nat.mul_assoc,Nat.pow_add]

private theorem chain_cons {b : UInt8} {P : List UInt8 → Prop} : (∃ bs, b :: s = bs ++ rest ∧ Chain bs ∧ P bs) ↔
    (b < 0x80 ∧ s = rest ∧ P [b]) ∨ (¬ b < 0x80 ∧ ∃ bs, s = bs ++ rest ∧ Chain bs ∧ P (b :: bs)) := by
  constructor
  · rintro ⟨bs,he,hc,hp⟩
    cases hc with
    | last hb =>
      cases he
      exact .inl ⟨hb,rfl,hp⟩
    | more hb hc =>
      cases he
      exact .inr ⟨hb,_,rfl,hc,hp⟩
  · rintro (⟨hb,rfl,hp⟩ | ⟨hb,bs,rfl,hc,hp⟩)
    · exact ⟨[b],rfl,.last hb,hp⟩
    · exact ⟨b :: bs,rfl,.more hb hc,hp⟩

private theorem varintFrom_iff (shift : Nat) (acc : UInt64) (ha : shift < 64 → acc.toNat < 2 ^ shift) :
    varintFrom shift acc s = .ok (v,rest) ↔ ∃ bs, s = bs ++ rest ∧ Chain bs ∧ shift + 7 * bs.length ≤ 70 ∧
      v.toNat = (acc.toNat + 2 ^ shift * base128 bs) % UInt64.size := by
  -- from any round on, the bits read so far lie below the shift
  induction s generalizing shift acc with
  | nil =>
    refine ⟨fun h => (by cases h),?_⟩
    rintro ⟨bs,he,hc,-⟩
    cases hc <;> cases he
  | cons b s ih =>
    rw [varintFrom]
    split
    case isTrue hs =>
      refine ⟨fun h => (by cases h),?_⟩
      rintro ⟨bs,-,hc,hl,-⟩
      have := hc.pos
      omega
    case isFalse hs =>
      have hv := toNat_or_shift b (Nat.lt_of_not_le hs) (ha (Nat.lt_of_not_le hs))
      rw [chain_cons]
      dsimp only
      split
      case isTrue hb =>
        rw [or_iff_left (fun h => h.1 hb),base128,base128,Nat.mul_zero,Nat.add_zero,← hv,UInt64.toNat_inj]
        constructor
        · intro h
          cases h
          exact ⟨hb,rfl,by simp; omega,rfl⟩
        · rintro ⟨-,rfl,-,rfl⟩
          rfl
      case isFalse hb =>
        rw [or_iff_right (fun h => hb h.1),ih _ _ (fun hlt => or_shift_lt b hlt (ha (by omega))),hv]
        simp only [base128_step,List.length_cons,Nat.mul_add,hb,not_false_eq_true,true_and,Nat.add_assoc,Nat.add_comm,
          Nat.mul_one]

/-- A varint is read exactly where one stands, and no byte beyond it. -/
theorem varint_iff : varint s = .ok (v,rest) ↔ ∃ bs, s = bs ++ rest ∧ Varint v bs := by
  rw [varint,varintFrom_iff 0 0 (fun _ => by decide)]
  refine exists_congr (fun bs => and_congr_right (fun _ => ?_))
  constructor
  · rintro ⟨hc,hl,hv⟩
    exact ⟨hc,by omega,by simpa using hv⟩
  · rintro ⟨hc,hl,hv⟩
    exact ⟨hc,by omega,by simpa using hv⟩

end Varints

/-- A successful sequence is a success followed by a success. -/
theorem bind_ok {α β ε : Type} {x : Except ε α} {f : α → Except ε β} {b : β} :
    x >>= f = .ok b ↔ ∃ a, x = .ok a ∧ f a = .ok b := by
  cases x with
  | error e => exact ⟨fun h => (by cases h),fun ⟨_,h,_⟩ => (by cases h)⟩
  | ok a => exact ⟨fun h => ⟨a,rfl,h⟩,fun ⟨_,h,hb⟩ => (by cases h; exact hb)⟩

section Values

/-- The field number, truncated to 32 bits, and the wire type of a tag. -/
def fieldNum (wire : UInt64) : Int32 := (wire >>> 3).toUInt32.toInt32
def wireType (wire : UInt64) : Nat := (wire &&& 0x7).toNat

/-- The error of an index n bytes after i that is not in the data: adding may wrap. -/
def pastEnd (i n : Nat) : WireError :=
  if Int64.maxValue.toInt < ((i + n : Nat) : Int) then .invalidLength else .unexpectedEOF

/-- Take n bytes at index i. -/
def advance (i n : Nat) (s : List UInt8) : Except WireError (List UInt8 × List UInt8) :=
  if s.length < n then .error (pastEnd i n) else .ok (s.take n,s.drop n)

/-- Read a length and take as many bytes, of data that is l bytes long in all. -/
def delimited (l : Nat) (s : List UInt8) : Except WireError (List UInt8 × List UInt8) := do
  let (n,s) ← varint s
  if n.toInt64 < 0 then .error .invalidLength else advance (l - s.length) n.toNat s

/-- Skip what follows a tag of wire type t. Groups are only counted. -/
def skipValue (l depth t : Nat) (s : List UInt8) : Except WireError (Nat × List UInt8) :=
  match t with
  | 0 => do let (_,s) ← varint s; .ok (depth,s)
  | 1 => do let (_,s) ← advance (l - s.length) 8 s; .ok (depth,s)
  | 2 => do let (_,s) ← delimited l s; .ok (depth,s)
  | 3 => .ok (depth + 1,s)
  | 4 => if depth = 0 then .error .unexpectedEndOfGroup else .ok (depth - 1,s)
  | 5 => do let (_,s) ← advance (l - s.length) 4 s; .ok (depth,s)
  | t => .error (.illegalWireType t)

/-- The loop of skip. Inside a group an index counts from the record, outside the
caller adds where the record starts. -/
def skipFrom (outer l : Nat) : (fuel depth : Nat) → List UInt8 → Except WireError (List UInt8)
  | 0, _, _ => .error .unexpectedEOF
  | fuel + 1, depth, s => do
    let (wire,s) ← varint s
    let (depth,s) ← skipValue (if depth = 0 then outer else l) depth (wireType wire) s
    if depth = 0 then .ok s else skipFrom outer l fuel depth s

/-- Drop the first record of the data, the rest of a message that is outer bytes long. -/
def skip (outer : Nat) (s : List UInt8) : Except WireError (List UInt8) := skipFrom outer s.length s.length 0 s

/-- A length, at most the largest int64, and as many bytes. -/
def Delimited (p bs : List UInt8) : Prop := ∃ n hd, bs = hd ++ p ∧ Varint n hd ∧ n.toInt64.toInt = p.length

/-- What may follow a tag, by its wire type, apart from groups. -/
inductive Scalar : Nat → List UInt8 → Prop where
  | varint {v : UInt64} {bs : List UInt8} (h : Varint v bs) : Scalar 0 bs
  | fixed64 {bs : List UInt8} (h : bs.length = 8) : Scalar 1 bs
  | bytes {p bs : List UInt8} (h : Delimited p bs) : Scalar 2 bs
  | fixed32 {bs : List UInt8} (h : bs.length = 4) : Scalar 5 bs

/-- What may follow a tag. A group runs to its end tag and may hold groups. -/
inductive Value : Nat → List UInt8 → Prop where
  | scalar {t : Nat} {bs : List UInt8} (h : Scalar t bs) : Value t bs
  | endGroup {w : UInt64} {tag : List UInt8} (h : Varint w tag) (hw : wireType w = 4) : Value 3 tag
  | member {w : UInt64} {tag bs rest : List UInt8} (h : Varint w tag) (hv : Value (wireType w) bs)
      (hr : Value 3 rest) : Value 3 (tag ++ (bs ++ rest))

private theorem advance_iff {i n : Nat} {p : List UInt8} :
    advance i n s = .ok (p,rest) ↔ s = p ++ rest ∧ p.length = n := by
  rw [advance]
  split
  case isTrue h =>
    refine ⟨fun h => (by cases h),?_⟩
    rintro ⟨rfl,rfl⟩
    rw [List.length_append] at h
    omega
  case isFalse h =>
    constructor
    · intro he
      cases he
      exact ⟨(List.take_append_drop n s).symm,by simp; omega⟩
    · rintro ⟨rfl,rfl⟩
      simp

private theorem toInt64_eq_iff (n : UInt64) (k : Nat) : n.toInt64.toInt = k ↔ ¬ n.toInt64 < 0 ∧ k = n.toNat := by
  have hn : n.toInt64.toInt = if 2 * n.toNat < UInt64.size then (n.toNat : Int) else n.toNat - UInt64.size :=
    BitVec.toInt_eq_toNat_cond n.toBitVec
  have hlt := n.toNat_lt_size
  rw [Int64.lt_iff_toInt_lt,hn,Int64.toInt_zero]
  split <;> omega

private theorem delimited_iff {l : Nat} {p : List UInt8} :
    delimited l s = .ok (p,rest) ↔ ∃ bs, s = bs ++ rest ∧ Delimited p bs := by
  rw [delimited,bind_ok]
  constructor
  · rintro ⟨⟨n,s'⟩,hv,h⟩
    obtain ⟨hd,rfl,hd'⟩ := varint_iff.mp hv
    dsimp only at h
    split at h
    case isTrue => cases h
    case isFalse hn =>
      obtain ⟨rfl,hp⟩ := advance_iff.mp h
      exact ⟨hd ++ p,by simp,n,hd,rfl,hd',(toInt64_eq_iff n _).mpr ⟨hn,hp⟩⟩
  · rintro ⟨_,rfl,n,hd,rfl,hv,hp⟩
    obtain ⟨hn,hp⟩ := (toInt64_eq_iff n _).mp hp
    refine ⟨(n,p ++ rest),varint_iff.mpr ⟨hd,by simp,hv⟩,?_⟩
    dsimp only
    rw [if_neg hn]
    exact advance_iff.mpr ⟨rfl,hp⟩

/-- What skipping the value of one tag does to the number of open groups. -/
inductive Moves : Nat → Nat → List UInt8 → Nat → Prop where
  | scalar {d t : Nat} {bs : List UInt8} (h : Scalar t bs) : Moves d t bs d
  | enter {d : Nat} : Moves d 3 [] (d + 1)
  | leave {d : Nat} : Moves (d + 1) 4 [] d

private theorem skip_scalar {α : Type} {x : Except WireError (α × List UInt8)} {d d' t : Nat} (h3 : t ≠ 3)
    (h4 : t ≠ 4) (hx : ∀ rest, (∃ a, x = .ok (a,rest)) ↔ ∃ bs, s = bs ++ rest ∧ Scalar t bs) :
    (do let (_,s) ← x; .ok (d,s) : Except WireError (Nat × List UInt8)) = .ok (d',rest) ↔
      ∃ bs, s = bs ++ rest ∧ Moves d t bs d' := by
  rw [bind_ok]
  constructor
  · rintro ⟨⟨a,s'⟩,ha,h⟩
    cases h
    obtain ⟨bs,hs,hb⟩ := (hx _).mp ⟨a,ha⟩
    exact ⟨bs,hs,.scalar hb⟩
  · rintro ⟨bs,hs,hm⟩
    cases hm with
    | scalar hb =>
      obtain ⟨a,ha⟩ := (hx rest).mpr ⟨bs,hs,hb⟩
      exact ⟨(a,rest),ha,rfl⟩
    | enter => exact absurd rfl h3
    | leave => exact absurd rfl h4

private theorem scalar_varint : Scalar 0 bs ↔ ∃ v, Varint v bs :=
  ⟨fun h => (by cases h with | varint h => exact ⟨_,h⟩),fun ⟨_,h⟩ => .varint h⟩

private theorem scalar_fixed64 : Scalar 1 bs ↔ bs.length = 8 :=
  ⟨fun h => (by cases h with | fixed64 h => exact h),.fixed64⟩

private theorem scalar_bytes : Scalar 2 bs ↔ ∃ p, Delimited p bs :=
  ⟨fun h => (by cases h with | bytes h => exact ⟨_,h⟩),fun ⟨_,h⟩ => .bytes h⟩

private theorem scalar_fixed32 : Scalar 5 bs ↔ bs.length = 4 :=
  ⟨fun h => (by cases h with | fixed32 h => exact h),.fixed32⟩

private theorem skipValue_iff {l d d' t : Nat} :
    skipValue l d t s = .ok (d',rest) ↔ ∃ bs, s = bs ++ rest ∧ Moves d t bs d' := by
  unfold skipValue
  split
  · refine skip_scalar (by decide) (by decide) (fun rest => ?_)
    simp only [varint_iff,scalar_varint]
    exact exists_comm.trans (exists_congr (fun _ => exists_and_left))
  · refine skip_scalar (by decide) (by decide) (fun rest => ?_)
    simp only [advance_iff,scalar_fixed64]
  · refine skip_scalar (by decide) (by decide) (fun rest => ?_)
    simp only [delimited_iff,scalar_bytes]
    exact exists_comm.trans (exists_congr (fun _ => exists_and_left))
  · constructor
    · intro h
      cases h
      exact ⟨[],rfl,.enter⟩
    · rintro ⟨bs,rfl,hm⟩
      cases hm with
      | scalar h => cases h
      | enter => rfl
  · constructor
    · intro h
      split at h
      case isTrue => cases h
      case isFalse hd =>
        cases h
        obtain ⟨d,rfl⟩ := Nat.exists_eq_succ_of_ne_zero hd
        exact ⟨[],rfl,.leave⟩
    · rintro ⟨bs,rfl,hm⟩
      cases hm with
      | scalar h => cases h
      | leave => rfl
  · refine skip_scalar (by decide) (by decide) (fun rest => ?_)
    simp only [advance_iff,scalar_fixed32]
  · refine ⟨fun h => (by cases h),?_⟩
    rintro ⟨bs,-,hm⟩
    cases hm with
    | scalar h => cases h <;> contradiction
    | enter => contradiction
    | leave => contradiction

/-- The values of d open groups, innermost first. -/
inductive Closes : Nat → List UInt8 → Prop where
  | nil : Closes 0 []
  | cons {d : Nat} {g rest : List UInt8} (hg : Value 3 g) (hr : Closes d rest) : Closes (d + 1) (g ++ rest)

/-- A tag and its value. -/
def Record (bs : List UInt8) : Prop := ∃ w tag v, bs = tag ++ v ∧ Varint w tag ∧ Value (wireType w) v

/-- What the loop of skip has still to read: one record, or the ends of all open groups. -/
def Pending : Nat → List UInt8 → Prop
  | 0, bs => Record bs
  | d + 1, bs => Closes (d + 1) bs

private theorem value_cases {t : Nat} (h : Value t bs) : Scalar t bs ∨ t = 3 := by
  cases h with
  | scalar h => exact .inl h
  | endGroup => exact .inr rfl
  | member => exact .inr rfl

private theorem Value.moves {d t : Nat} {v r : List UInt8} (hv : Value t v) (hr : Closes d r) :
    ∃ x d' r', v ++ r = x ++ r' ∧ Moves d t x d' ∧ Closes d' r' := by
  obtain hs | rfl := value_cases hv
  · exact ⟨v,d,r,rfl,.scalar hs,hr⟩
  · exact ⟨[],d + 1,v ++ r,rfl,.enter,.cons hv hr⟩

private theorem Pending.tagged {d : Nat} {w : UInt64} {tag v r : List UInt8} (hw : Varint w tag)
    (hv : Value (wireType w) v) (hr : Closes d r) : Pending d (tag ++ (v ++ r)) := by
  cases hr with
  | nil => exact ⟨w,tag,v,by simp,hw,hv⟩
  | cons hg hr => simpa [Pending] using Closes.cons (.member hw hv hg) hr

private theorem pending_iff {d : Nat} : Pending d bs ↔
    ∃ w tag x d' r, bs = tag ++ (x ++ r) ∧ Varint w tag ∧ Moves d (wireType w) x d' ∧ Closes d' r := by
  constructor
  · intro h
    cases d with
    | zero =>
      obtain ⟨w,tag,v,rfl,hw,hv⟩ := h
      obtain ⟨x,d',r,he,hm,hr⟩ := hv.moves .nil
      exact ⟨w,tag,x,d',r,by rw [← he,List.append_nil],hw,hm,hr⟩
    | succ d =>
      cases h with
      | @cons _ g rest hg hr =>
        cases hg with
        | scalar h => cases h
        | endGroup hw h4 => exact ⟨_,g,[],d,rest,by simp,hw,h4 ▸ .leave,hr⟩
        | @member w tag v g hw hv hg =>
          obtain ⟨x,d',r,he,hm,hr⟩ := hv.moves (.cons hg hr)
          exact ⟨w,tag,x,d',r,by rw [← he,List.append_assoc,List.append_assoc],hw,hm,hr⟩
  · rintro ⟨w,tag,x,d',r,rfl,hw,hm,hr⟩
    generalize ht : wireType w = t at hm
    cases hm with
    | scalar hs => exact .tagged hw (.scalar (ht ▸ hs)) hr
    | enter =>
      cases hr with
      | cons hg hr =>
        have hv : Value (wireType w) _ := ht.symm ▸ hg
        have := Pending.tagged hw hv hr
        exact this
    | leave => exact .cons (.endGroup hw ht) hr

private theorem skipFrom_iff {outer l : Nat} (fuel d : Nat) (hf : s.length ≤ fuel) :
    skipFrom outer l fuel d s = .ok rest ↔ ∃ bs, s = bs ++ rest ∧ Pending d bs := by
  -- at any depth there are bytes enough for the rounds to come
  induction fuel generalizing d s with
  | zero =>
    rw [skipFrom]
    refine ⟨fun h => (by cases h),?_⟩
    rintro ⟨bs,rfl,hp⟩
    obtain ⟨w,tag,x,d',r,rfl,hw,-,-⟩ := pending_iff.mp hp
    have := hw.chain.pos
    simp only [List.length_append] at hf
    omega
  | succ fuel ih =>
    have hnext (d' : Nat) (s' : List UInt8) (hf : s'.length ≤ fuel) :
        (if d' = 0 then .ok s' else skipFrom outer l fuel d' s') = .ok rest ↔ ∃ r, s' = r ++ rest ∧ Closes d' r := by
      cases d' with
      | zero =>
        constructor
        · intro h
          cases h
          exact ⟨[],rfl,.nil⟩
        · rintro ⟨r,rfl,hr⟩
          cases hr
          rfl
      | succ d' => exact ih (d' + 1) hf
    rw [skipFrom,bind_ok]
    constructor
    · rintro ⟨⟨w,s'⟩,hw,hv⟩
      obtain ⟨⟨d',s''⟩,hm,h⟩ := bind_ok.mp hv
      obtain ⟨tag,rfl,hw'⟩ := varint_iff.mp hw
      obtain ⟨x,rfl,hm'⟩ := skipValue_iff.mp hm
      have := hw'.chain.pos
      simp only [List.length_append] at hf
      obtain ⟨r,rfl,hr⟩ := (hnext d' s'' (by omega)).mp h
      exact ⟨tag ++ (x ++ r),by simp,pending_iff.mpr ⟨w,tag,x,d',r,rfl,hw',hm',hr⟩⟩
    · rintro ⟨bs,rfl,hp⟩
      obtain ⟨w,tag,x,d',r,rfl,hw,hm,hr⟩ := pending_iff.mp hp
      have := hw.chain.pos
      simp only [List.length_append] at hf
      refine ⟨(w,x ++ (r ++ rest)),varint_iff.mpr ⟨tag,by simp,hw⟩,bind_ok.mpr ?_⟩
      exact ⟨(d',r ++ rest),skipValue_iff.mpr ⟨x,rfl,hm⟩,(hnext d' _ (by simp; omega)).mpr ⟨r,rfl,hr⟩⟩

/-- Skip drops exactly one record. -/
theorem skip_iff {outer : Nat} : skip outer s = .ok rest ↔ ∃ bs, s = bs ++ rest ∧ Record bs :=
  skipFrom_iff s.length 0 le_rfl

end Values

section Messages

/-- A field a message knows: its name and how its value is stored. -/
inductive KnownField (M : Type) where
  | varint (name : String) (set : UInt64 → M → M)
  | bytes (name : String) (set : List UInt8 → M → Except WireError M)

structure Schema (M : Type) where
  message : String
  field : Nat → Option (KnownField M)

namespace Schema

/-- What follows the tag of a field. One the message does not know is skipped, from
its tag on. -/
def decodeValue (σ : Schema M) (l n t : Nat) (m : M) (s s' : List UInt8) : Except WireError (M × List UInt8) :=
  match σ.field n with
  | some (.varint name set) =>
    if t ≠ 0 then .error (.wrongWireType t name)
    else do
      let (v,s') ← varint s'
      .ok (set v m,s')
  | some (.bytes name set) =>
    if t ≠ 2 then .error (.wrongWireType t name)
    else do
      let (p,s') ← delimited l s'
      let m ← set p m
      .ok (m,s')
  | none => do
    let s' ← skip l s
    .ok (m,s')

/-- One round of the decoding loop. -/
def decodeField (σ : Schema M) (l : Nat) (m : M) (s : List UInt8) : Except WireError (M × List UInt8) := do
  let (wire,s') ← varint s
  if wireType wire = 4 then .error (.endGroup σ.message)
  else if fieldNum wire ≤ 0 then .error (.illegalTag σ.message (fieldNum wire) wire)
  else σ.decodeValue l (fieldNum wire).toInt.toNat (wireType wire) m s s'

/-- The decoding loop. Every round takes at least one byte. -/
def decodeFrom (σ : Schema M) (l : Nat) : (fuel : Nat) → M → List UInt8 → Except WireError M
  | 0, m, s => if s = [] then .ok m else .error .unexpectedEOF
  | fuel + 1, m, s =>
    if s = [] then .ok m
    else do
      let (m,s) ← σ.decodeField l m s
      decodeFrom σ l fuel m s

/-- Decode into a message that may already have fields set. -/
def decode (σ : Schema M) (m : M) (s : List UInt8) : Except WireError M := σ.decodeFrom s.length s.length m s

end Schema

/-- One field of a message as it is encoded. -/
structure Rec where
  num : Nat
  type : Nat
  value : List UInt8

/-- A tag with a legal field number n and the wire type t. -/
def Tag (n t : Nat) (tag : List UInt8) : Prop :=
  ∃ w, Varint w tag ∧ (fieldNum w).toInt = n ∧ 0 < n ∧ wireType w = t

/-- The encodings of a sequence of fields. -/
inductive Records : List Rec → List UInt8 → Prop where
  | nil : Records [] []
  | cons {r : Rec} {rs : List Rec} {tag rest : List UInt8} (ht : Tag r.num r.type tag) (hv : Value r.type r.value)
      (hr : Records rs rest) : Records (r :: rs) (tag ++ (r.value ++ rest))

/-- What a field does to a message. -/
def Schema.Sets (σ : Schema M) (m : M) (r : Rec) (m' : M) : Prop :=
  match σ.field r.num with
  | some (.varint _ set) => r.type = 0 ∧ ∃ v, Varint v r.value ∧ m' = set v m
  | some (.bytes _ set) => r.type = 2 ∧ ∃ p, Delimited p r.value ∧ set p m = .ok m'
  | none => m' = m

/-- What a sequence of fields does to a message. -/
inductive Schema.Reads (σ : Schema M) : M → List Rec → M → Prop where
  | nil {m : M} : Reads σ m [] m
  | cons {m m₁ m₂ : M} {r : Rec} {rs : List Rec} (h : σ.Sets m r m₁) (hr : Reads σ m₁ rs m₂) : Reads σ m (r :: rs) m₂

private theorem decodeField_tag {σ : Schema M} {l : Nat} {m : M} {r : M × List UInt8} : σ.decodeField l m s = .ok r ↔
    ∃ n t tag s', s = tag ++ s' ∧ Tag n t tag ∧ t ≠ 4 ∧ σ.decodeValue l n t m s s' = .ok r := by
  rw [Schema.decodeField,bind_ok]
  constructor
  · rintro ⟨⟨w,s'⟩,hw,h⟩
    obtain ⟨tag,hs,hw'⟩ := varint_iff.mp hw
    dsimp only at h
    split_ifs at h with h4 h0
    rw [Int32.le_iff_toInt_le,Int32.toInt_zero] at h0
    exact ⟨_,_,tag,s',hs,⟨w,hw',by omega,by omega,rfl⟩,h4,h⟩
  · rintro ⟨n,t,tag,s',rfl,⟨w,hw,hn,h0,rfl⟩,h4,h⟩
    refine ⟨(w,s'),varint_iff.mpr ⟨tag,rfl,hw⟩,?_⟩
    have hlt : ¬ fieldNum w ≤ 0 := by
      rw [Int32.le_iff_toInt_le,Int32.toInt_zero]
      omega
    dsimp only
    rwa [if_neg h4,if_neg hlt,hn,Int.toNat_natCast]

private theorem record_tag {tag s' : List UInt8} {n t : Nat} (ht : Tag n t tag) :
    (∃ bs, tag ++ s' = bs ++ rest ∧ Record bs) ↔ ∃ bs, s' = bs ++ rest ∧ Value t bs := by
  obtain ⟨w,hw,-,-,rfl⟩ := ht
  constructor
  · rintro ⟨_,he,w',tag',v,rfl,hw',hv⟩
    have h₁ : varint (tag ++ s') = .ok (w,s') := varint_iff.mpr ⟨tag,rfl,hw⟩
    have h₂ : varint (tag ++ s') = .ok (w',v ++ rest) := varint_iff.mpr ⟨tag',by rw [he,List.append_assoc],hw'⟩
    rw [h₁] at h₂
    cases h₂
    exact ⟨v,rfl,hv⟩
  · rintro ⟨v,rfl,hv⟩
    exact ⟨tag ++ v,by simp,w,tag,v,rfl,hw,hv⟩

private theorem decodeValue_iff {σ : Schema M} {l n t : Nat} {m m' : M} {tag s' : List UInt8} (ht : Tag n t tag) :
    σ.decodeValue l n t m (tag ++ s') s' = .ok (m',rest) ↔
      ∃ bs, s' = bs ++ rest ∧ Value t bs ∧ σ.Sets m ⟨n,t,bs⟩ m' := by
  unfold Schema.decodeValue Schema.Sets
  dsimp only
  generalize σ.field n = o
  cases o with
  | none =>
    simp only [bind_ok,skip_iff,record_tag ht]
    constructor
    · rintro ⟨s'',⟨bs,hs,hv⟩,he⟩
      cases he
      exact ⟨bs,hs,hv,rfl⟩
    · rintro ⟨bs,hs,hv,rfl⟩
      exact ⟨rest,⟨bs,hs,hv⟩,rfl⟩
  | some field =>
    cases field with
    | varint name set =>
      dsimp only
      constructor
      · intro h
        split_ifs at h with h0
        obtain rfl := not_not.mp h0
        obtain ⟨⟨v,s''⟩,hv,he⟩ := bind_ok.mp h
        cases he
        obtain ⟨bs,hs,hv'⟩ := varint_iff.mp hv
        exact ⟨bs,hs,.scalar (.varint hv'),rfl,v,hv',rfl⟩
      · rintro ⟨bs,hs,-,rfl,v,hv,rfl⟩
        exact bind_ok.mpr ⟨(v,rest),varint_iff.mpr ⟨bs,hs,hv⟩,rfl⟩
    | bytes name set =>
      dsimp only
      constructor
      · intro h
        split_ifs at h with h2
        obtain rfl := not_not.mp h2
        obtain ⟨⟨p,s''⟩,hp,he⟩ := bind_ok.mp h
        obtain ⟨m'',hm,he⟩ := bind_ok.mp he
        cases he
        obtain ⟨bs,hs,hp'⟩ := delimited_iff.mp hp
        exact ⟨bs,hs,.scalar (.bytes hp'),rfl,p,hp',hm⟩
      · rintro ⟨bs,hs,-,rfl,p,hp,hm⟩
        exact bind_ok.mpr ⟨(p,rest),delimited_iff.mpr ⟨bs,hs,hp⟩,bind_ok.mpr ⟨m',hm,rfl⟩⟩

private theorem Value.ne_end {t : Nat} (h : Value t bs) : t ≠ 4 := by
  rintro rfl
  cases h with | scalar h => cases h

/-- A round reads one field and does to the message what the field says. -/
theorem Schema.decodeField_iff {σ : Schema M} {l : Nat} {m m' : M} : σ.decodeField l m s = .ok (m',rest) ↔
    ∃ r tag, s = tag ++ (r.value ++ rest) ∧ Tag r.num r.type tag ∧ Value r.type r.value ∧ σ.Sets m r m' := by
  rw [decodeField_tag]
  constructor
  · rintro ⟨n,t,tag,s',rfl,ht,-,h⟩
    obtain ⟨bs,rfl,hv,hs⟩ := (decodeValue_iff ht).mp h
    exact ⟨⟨n,t,bs⟩,tag,rfl,ht,hv,hs⟩
  · rintro ⟨r,tag,rfl,ht,hv,hs⟩
    exact ⟨r.num,r.type,tag,_,rfl,ht,hv.ne_end,(decodeValue_iff ht).mpr ⟨r.value,rfl,hv,hs⟩⟩

private theorem Tag.pos {n t : Nat} {tag : List UInt8} (h : Tag n t tag) : 0 < tag.length := by
  obtain ⟨w,hw,-⟩ := h
  exact hw.chain.pos

private theorem reads_nil {σ : Schema M} {m m' : M} :
    .ok m = (.ok m' : Except WireError M) ↔ ∃ rs, Records rs [] ∧ σ.Reads m rs m' := by
  constructor
  · intro h
    cases h
    exact ⟨[],.nil,.nil⟩
  · rintro ⟨rs,hrs,h⟩
    generalize hs : [] = s at hrs
    cases hrs with
    | nil =>
      cases h
      rfl
    | cons ht =>
      have := ht.pos
      have := congrArg List.length hs
      simp only [List.length_append,List.length_nil] at this
      omega

private theorem decodeFrom_iff {σ : Schema M} {l : Nat} {m m' : M} (fuel : Nat) (hf : s.length ≤ fuel) :
    σ.decodeFrom l fuel m s = .ok m' ↔ ∃ rs, Records rs s ∧ σ.Reads m rs m' := by
  induction fuel generalizing s m with
  | zero =>
    obtain rfl := List.length_eq_zero_iff.mp (Nat.le_zero.mp hf)
    exact reads_nil
  | succ fuel ih =>
    rw [Schema.decodeFrom]
    split
    case isTrue hs =>
      rw [hs]
      exact reads_nil
    case isFalse hs =>
      rw [bind_ok]
      constructor
      · rintro ⟨⟨m₁,s₁⟩,h₁,h⟩
        obtain ⟨r,tag,rfl,ht,hv,hr⟩ := Schema.decodeField_iff.mp h₁
        have := ht.pos
        simp only [List.length_append] at hf
        obtain ⟨rs,hrs,hreads⟩ := (ih (by omega)).mp h
        exact ⟨r :: rs,.cons ht hv hrs,.cons hr hreads⟩
      · rintro ⟨rs,hrs,hreads⟩
        cases hrs with
        | nil => exact absurd rfl hs
        | cons ht hv hrs =>
          have := ht.pos
          simp only [List.length_append] at hf
          cases hreads with
          | cons hr hreads =>
            refine ⟨(_,_),Schema.decodeField_iff.mpr ⟨_,_,rfl,ht,hv,hr⟩,?_⟩
            exact (ih (by omega)).mpr ⟨_,hrs,hreads⟩

/-- Decoding accepts exactly the encodings of fields that the message takes one after the other. -/
theorem Schema.decode_iff {σ : Schema M} {m m' : M} : σ.decode m s = .ok m' ↔ ∃ rs, Records rs s ∧ σ.Reads m rs m' :=
  decodeFrom_iff s.length le_rfl

/-- What a message asks of a field it knows. -/
inductive Shape where
  | varint
  | bytes (P : List UInt8 → Prop)

/-- A field as the message asks for it; of one it does not know it asks nothing. -/
def Rec.Fits (shape : Nat → Option Shape) (r : Rec) : Prop :=
  match shape r.num with
  | some .varint => r.type = 0
  | some (.bytes P) => r.type = 2 ∧ ∃ p, Delimited p r.value ∧ P p
  | none => True

/-- A shape describes what a schema accepts: bytes count by what they are, not by
what the message holds already. -/
inductive Describes : Option (KnownField M) → Option Shape → Prop where
  | unknown : Describes none none
  | varint {name : String} {set : UInt64 → M → M} : Describes (some (.varint name set)) (some .varint)
  | bytes {name : String} {set : List UInt8 → M → Except WireError M} {P : List UInt8 → Prop}
      (h : ∀ p m, (∃ m', set p m = .ok m') ↔ P p) : Describes (some (.bytes name set)) (some (.bytes P))

section Shapes
variable {σ : Schema M} {shape : Nat → Option Shape} (hσ : ∀ n, Describes (σ.field n) (shape n))
include hσ

private theorem sets_iff_fits {m : M} {r : Rec} (hv : Value r.type r.value) :
    (∃ m', σ.Sets m r m') ↔ r.Fits shape := by
  unfold Schema.Sets Rec.Fits
  have hr := hσ r.num
  generalize σ.field r.num = o at hr
  generalize shape r.num = q at hr
  cases hr with
  | unknown => exact ⟨fun _ => trivial,fun _ => ⟨m,rfl⟩⟩
  | varint =>
    refine ⟨fun ⟨_,ht,_⟩ => ht,fun ht => ?_⟩
    rw [ht] at hv
    obtain ⟨v,h⟩ := scalar_varint.mp ((value_cases hv).resolve_right (by decide))
    exact ⟨_,ht,v,h,rfl⟩
  | bytes h =>
    constructor
    · rintro ⟨m',ht,p,hp,hm⟩
      exact ⟨ht,p,hp,(h p m).mp ⟨m',hm⟩⟩
    · rintro ⟨ht,p,hp,hP⟩
      obtain ⟨m',hm⟩ := (h p m).mpr hP
      exact ⟨m',ht,p,hp,hm⟩

/-- Whether fields can be read does not depend on what they are read into. -/
theorem Records.reads_iff {m : M} {rs : List Rec} (h : Records rs s) :
    (∃ m', σ.Reads m rs m') ↔ ∀ r ∈ rs, r.Fits shape := by
  induction h generalizing m with
  | nil => exact ⟨fun _ r hr => (by cases hr),fun _ => ⟨m,.nil⟩⟩
  | cons _ hv _ ih =>
    rw [List.forall_mem_cons,← sets_iff_fits hσ hv]
    constructor
    · rintro ⟨m',hr⟩
      cases hr with | cons h hr => exact ⟨⟨_,h⟩,ih.mp ⟨_,hr⟩⟩
    · rintro ⟨⟨m₁,h⟩,hr⟩
      obtain ⟨m₂,hr⟩ := ih.mpr hr
      exact ⟨m₂,.cons h hr⟩

end Shapes
end Messages
end Zuul.Lib.Wire
