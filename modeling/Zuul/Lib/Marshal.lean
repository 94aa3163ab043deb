import Zuul.Lib.Wire

/-! Marshalling into a buffer of a size computed before, filled from its end, and that
what is written decodes to what was marshalled. -/
namespace Zuul.Lib.Wire
variable {M : Type} {σ : Schema M} {m m' m₁ m₂ : M} {v : UInt64} {p q bs : List UInt8} {t : UInt8}

section Varints

/-- The number of bits a number needs. -/
def len64 (v : UInt64) : Nat := if v = 0 then 0 else v.toNat.log2 + 1

def sizeOfVarint (v : UInt64) : Nat := (len64 (v ||| 1) + 6) / 7

/-- Seven bits a byte while more are left. Nine shifts leave one bit of 64. -/
def varintLoop : (fuel : Nat) → UInt64 → List UInt8
  | 0, v => [v.toUInt8]
  | fuel + 1, v => if v < 0x80 then [v.toUInt8] else (v &&& 0x7F ||| 0x80).toUInt8 :: varintLoop fuel (v >>> 7)

def varintBytes (v : UInt64) : List UInt8 := varintLoop 9 v

private theorem toNat_more (v : UInt64) : (v &&& 0x7F ||| 0x80).toUInt8.toNat = 128 + v.toNat % 128 := by
  have hand : v.toNat &&& 127 = v.toNat % 128 := Nat.and_two_pow_sub_one_eq_mod v.toNat 7
  have hor := Nat.two_pow_add_eq_or_of_lt (i := 7) (b := v.toNat % 128) (by omega) 1
  rw [UInt64.toNat_toUInt8,UInt64.toNat_or,UInt64.toNat_and]
  change ((v.toNat &&& 127) ||| 128) % 256 = 128 + v.toNat % 128
  rw [hand,Nat.or_comm]
  change 128 + v.toNat % 128 = (128 ||| v.toNat % 128) at hor
  omega

private theorem toNat_shift (v : UInt64) : (v >>> 7).toNat = v.toNat / 128 := by
  rw [UInt64.toNat_shiftRight]
  exact Nat.shiftRight_eq_div_pow v.toNat 7

private theorem log2_or_one (n : Nat) : (n ||| 1).log2 = n.log2 := by
  have hor : (n ||| 1) / 2 = n / 2 := by rw [Nat.or_div_two]; exact Nat.or_zero _
  rw [Nat.log2_def (n ||| 1),Nat.log2_def n,hor]
  split <;> split <;> omega

private theorem log2_div {n : Nat} (h : 128 ≤ n) : n.log2 = (n / 128).log2 + 7 := by
  rw [Nat.log2_eq_iff (by omega)]
  obtain ⟨hle,hlt⟩ := (Nat.log2_eq_iff (show n / 128 ≠ 0 by omega)).mp rfl
  simp only [Nat.pow_add] at hlt ⊢
  omega

private theorem sizeOfVarint_eq (v : UInt64) : sizeOfVarint v = ((v.toNat ||| 1).log2 + 7) / 7 := by
  have hne : v ||| 1 ≠ 0 := by
    intro h
    have hle : 1 ≤ v.toNat ||| 1 := Nat.right_le_or
    have := congrArg UInt64.toNat h
    rw [UInt64.toNat_or] at this
    change v.toNat ||| 1 = 0 at this
    omega
  rw [sizeOfVarint,len64,if_neg hne,UInt64.toNat_or]
  rfl

private theorem sizeOfVarint_small (h : v < 0x80) : sizeOfVarint v = 1 := by
  have hv : v.toNat < 128 := UInt64.lt_iff_toNat_lt.mp h
  have hlt : v.toNat ||| 1 < 2 ^ 7 := Nat.or_lt_two_pow hv (by decide)
  have hpos : v.toNat ||| 1 ≠ 0 := fun hz => absurd (hz ▸ (Nat.right_le_or : 1 ≤ v.toNat ||| 1)) (by decide)
  rw [sizeOfVarint_eq]
  have := (Nat.log2_lt hpos).mpr hlt
  omega

private theorem sizeOfVarint_shift (h : ¬ v < 0x80) : sizeOfVarint v = sizeOfVarint (v >>> 7) + 1 := by
  have hv : 128 ≤ v.toNat := Nat.le_of_not_lt (fun hlt => h (UInt64.lt_iff_toNat_lt.mpr hlt))
  rw [sizeOfVarint_eq,sizeOfVarint_eq,toNat_shift,log2_or_one,log2_or_one,log2_div hv]
  omega

private theorem last_spec (hv : v < 0x80) : Chain [v.toUInt8] ∧ base128 [v.toUInt8] = v.toNat ∧
    [v.toUInt8].length = sizeOfVarint v := by
  have hn : v.toNat < 128 := UInt64.lt_iff_toNat_lt.mp hv
  have hb : v.toUInt8.toNat = v.toNat := by rw [UInt64.toNat_toUInt8]; omega
  refine ⟨.last (UInt8.lt_iff_toNat_lt.mpr (by rw [hb]; exact hn)),?_,(sizeOfVarint_small hv).symm⟩
  rw [base128,base128,hb]
  omega

private theorem varintLoop_spec (fuel : Nat) (h : v.toNat < 128 ^ (fuel + 1)) :
    Chain (varintLoop fuel v) ∧ base128 (varintLoop fuel v) = v.toNat ∧
    (varintLoop fuel v).length = sizeOfVarint v ∧ (varintLoop fuel v).length ≤ fuel + 1 := by
  -- from any round on, what is left is written in as many bytes as it needs
  induction fuel generalizing v with
  | zero =>
    have hv : v < 0x80 := UInt64.lt_iff_toNat_lt.mpr h
    obtain ⟨hc,hb,hl⟩ := last_spec hv
    exact ⟨hc,hb,hl,Nat.le_refl 1⟩
  | succ fuel ih =>
    rw [varintLoop]
    split
    case isTrue hv =>
      obtain ⟨hc,hb,hl⟩ := last_spec hv
      exact ⟨hc,hb,hl,by simp⟩
    case isFalse hv =>
      have hq : (v >>> 7).toNat < 128 ^ (fuel + 1) := by
        rw [toNat_shift]
        rw [Nat.pow_succ] at h
        omega
      obtain ⟨hc,hb,hl,hle⟩ := ih hq
      refine ⟨.more ?_ hc,?_,?_,?_⟩
      · rw [UInt8.lt_iff_toNat_lt,toNat_more]
        change ¬ 128 + v.toNat % 128 < 128
        omega
      · rw [base128,hb,toNat_more,toNat_shift]
        omega
      · rw [List.length_cons,hl,sizeOfVarint_shift hv]
      · rw [List.length_cons]
        omega

private theorem varintBytes_spec (v : UInt64) : Chain (varintBytes v) ∧ base128 (varintBytes v) = v.toNat ∧
    (varintBytes v).length = sizeOfVarint v ∧ (varintBytes v).length ≤ 10 :=
  varintLoop_spec 9 (Nat.lt_of_lt_of_le v.toNat_lt_size (by decide))

/-- The size counted for a varint is the number of its bytes. -/
theorem varintBytes_length (v : UInt64) : (varintBytes v).length = sizeOfVarint v := (varintBytes_spec v).2.2.1

/-- What is written for a number is an encoding of it. -/
theorem varintBytes_varint (v : UInt64) : Varint v (varintBytes v) := by
  obtain ⟨hc,hb,-,hl⟩ := varintBytes_spec v
  exact ⟨hc,hl,by rw [hb,Nat.mod_eq_of_lt v.toNat_lt_size]⟩

end Varints

section Buffers

/-- A buffer, written from index i on. -/
structure Buffer where
  data : List UInt8
  i : Nat

namespace Buffer

/-- Move the index back by n and store bytes there. An index that leaves the buffer
ends the program. -/
def store (n : Nat) (p : List UInt8) (b : Buffer) : Option Buffer :=
  if n ≤ b.i ∧ b.i - n + p.length ≤ b.data.length then
    some ⟨b.data.take (b.i - n) ++ (p ++ b.data.drop (b.i - n + p.length)),b.i - n⟩
  else none

def encodeVarint (v : UInt64) (b : Buffer) : Option Buffer := b.store (sizeOfVarint v) (varintBytes v)

/-- Bytes right before the ones written last. -/
def push (p : List UInt8) (b : Buffer) : Buffer :=
  ⟨b.data.take (b.i - p.length) ++ (p ++ b.data.drop b.i),b.i - p.length⟩

/-- There is room for n bytes before the index. -/
structure Room (n : Nat) (b : Buffer) : Prop where
  left : n ≤ b.i
  inside : b.i ≤ b.data.length

private theorem Room.push {b : Buffer} {n : Nat} (h : b.Room (n + p.length)) : (b.push p).Room n := by
  have hl := h.left
  have hi := h.inside
  refine ⟨?_,?_⟩
  · change n ≤ b.i - p.length
    omega
  · simp only [Buffer.push,List.length_append,List.length_take,List.length_drop]
    omega

private theorem Room.mono {b : Buffer} {n k : Nat} (h : b.Room n) (hk : k ≤ n) :
    b.Room k := ⟨Nat.le_trans hk h.left,h.inside⟩

private theorem push_push {b : Buffer} (h : b.Room (q.length + p.length)) : (b.push p).push q = b.push (q ++ p) := by
  have hl := h.left
  have hi := h.inside
  have hsub : b.i - p.length - q.length = b.i - (q ++ p).length := by rw [List.length_append]; omega
  have htake : (b.data.take (b.i - p.length)).length = b.i - p.length := by rw [List.length_take]; omega
  unfold push
  dsimp only
  rw [hsub,List.take_append_of_le_length (by rw [htake]; omega),List.take_take,Nat.min_eq_left (by omega),
    List.drop_append_of_le_length (by rw [htake]),List.drop_of_length_le (by rw [htake]),List.nil_append,
    List.append_assoc q p]

/-- A writer that, where there is room for these bytes, writes just them. -/
def Puts (w : Buffer → Option Buffer) (p : List UInt8) : Prop := ∀ b : Buffer, b.Room p.length → w b = some (b.push p)

private theorem puts_none : Puts some [] := by
  intro b hb
  simp [push]

private theorem puts_store (p : List UInt8) : Puts (store p.length p) p := by
  intro b h
  have hl := h.left
  have hi := h.inside
  rw [store,if_pos ⟨hl,by omega⟩,Nat.sub_add_cancel hl]
  rfl

private theorem puts_varint (v : UInt64) : Puts (encodeVarint v) (varintBytes v) := by
  intro b h
  rw [encodeVarint,← varintBytes_length]
  exact puts_store _ b h

/-- What is written next stands before what was written first. -/
theorem Puts.bind {w w' : Buffer → Option Buffer} (h : Puts w p) (h' : Puts w' q) :
    Puts (fun b => w b >>= w') (q ++ p) := by
  intro b hb
  rw [List.length_append] at hb
  have hp : w b = some (b.push p) := h b (hb.mono (by omega))
  change (w b).bind w' = _
  rw [hp,Option.bind_some,h' _ hb.push,push_push hb]

end Buffer
end Buffers

section Marshallers

/-- How a message or a field is marshalled: its size, and the writing of it. -/
structure Marshaller where
  size : Nat
  write : Buffer → Option Buffer

namespace Marshaller
variable {c : Marshaller} {cs : List Marshaller}

/-- A field that is left out. -/
def absent : Marshaller := ⟨0,some⟩

/-- A string or bytes as it is always written for an element of a list. -/
def element (tag : UInt8) (p : List UInt8) : Marshaller where
  size := 1 + p.length + sizeOfVarint p.length.toUInt64
  write b := do
    let b ← b.store p.length p
    let b ← b.encodeVarint p.length.toUInt64
    b.store 1 [tag]

/-- A string or bytes field. The empty one is left out. -/
def bytes (tag : UInt8) (p : List UInt8) : Marshaller := if p.length > 0 then element tag p else absent

/-- A number as it is always written for a choice of a oneof. -/
def number (tag : UInt8) (v : UInt64) : Marshaller where
  size := 1 + sizeOfVarint v
  write b := do
    let b ← b.encodeVarint v
    b.store 1 [tag]

/-- A field with a number. Zero is left out. -/
def varint (tag : UInt8) (v : UInt64) : Marshaller := if v ≠ 0 then number tag v else absent

def bool (tag : UInt8) (set : Bool) : Marshaller :=
  if set then
    { size := 2
      write b := do
        let b ← b.store 1 [1]
        b.store 1 [tag] }
  else absent

/-- A message in a field. It is written into the buffer up to the index, and the
length in front of it is the number of bytes that were written. -/
def message (tag : UInt8) (c : Marshaller) : Marshaller where
  size := 1 + c.size + sizeOfVarint c.size.toUInt64
  write b := do
    let inner ← c.write ⟨b.data.take b.i,b.i⟩
    let size := b.i - inner.i
    let b : Buffer := ⟨inner.data ++ b.data.drop b.i,b.i - size⟩
    let b ← b.encodeVarint size.toUInt64
    b.store 1 [tag]

/-- The fields of a message, written from the last to the first. -/
def fields : List Marshaller → Marshaller
  | [] => absent
  | c :: cs =>
    { size := c.size + (fields cs).size
      write b := do
        let b ← (fields cs).write b
        c.write b }

/-- The messages of a list, written from the last to the first. -/
def repeated {α : Type} (tag : UInt8) (f : α → Marshaller) (xs : List α) : Marshaller :=
  fields (xs.map (fun x => message tag (f x)))

/-- A message in a buffer of its size: what lies before the number of bytes written. -/
def marshal (c : Marshaller) : Option (List UInt8) := do
  let b ← c.write ⟨List.replicate c.size 0,c.size⟩
  some (b.data.take (c.size - b.i))

/-- These bytes are written, as many as the size says. -/
structure Writes (c : Marshaller) (bs : List UInt8) : Prop where
  size : c.size = bs.length
  puts : Buffer.Puts c.write bs

open Buffer

private theorem absent_writes : absent.Writes [] := ⟨rfl,puts_none⟩

private theorem element_writes (tag : UInt8) (p : List UInt8) :
    (element tag p).Writes (tag :: (varintBytes p.length.toUInt64 ++ p)) where
  size := by
    change 1 + p.length + sizeOfVarint p.length.toUInt64 = _
    rw [List.length_cons,List.length_append,varintBytes_length]
    omega
  puts := (puts_store p).bind ((puts_varint _).bind (puts_store [tag]))

private theorem number_writes (tag : UInt8) (v : UInt64) : (number tag v).Writes (tag :: varintBytes v) := by
  refine ⟨?_,(puts_varint v).bind (puts_store [tag])⟩
  rw [List.length_cons,varintBytes_length]
  exact Nat.add_comm 1 _

private theorem bool_writes (tag : UInt8) :
    (bool tag true).Writes [tag,1] := ⟨rfl,(puts_store [1]).bind (puts_store [tag])⟩

private theorem message_writes (tag : UInt8) (h : c.Writes bs) :
    (message tag c).Writes (tag :: (varintBytes bs.length.toUInt64 ++ bs)) where
  size := by
    change 1 + c.size + sizeOfVarint c.size.toUInt64 = _
    rw [List.length_cons,List.length_append,varintBytes_length,h.size]
    omega
  puts := by
    intro b hb
    have hl : (varintBytes bs.length.toUInt64).length + 1 + bs.length ≤ b.i := by
      have := hb.left
      simp only [List.length_cons,List.length_append] at this
      omega
    have hi := hb.inside
    have hin : c.write ⟨b.data.take b.i,b.i⟩ = some ((⟨b.data.take b.i,b.i⟩ : Buffer).push bs) :=
      h.puts _ ⟨by change bs.length ≤ b.i; omega,by change b.i ≤ (b.data.take b.i).length; rw [List.length_take]; omega⟩
    -- the part of the buffer behind the index is put back
    have hback : (⟨((⟨b.data.take b.i,b.i⟩ : Buffer).push bs).data ++ b.data.drop b.i,b.i - bs.length⟩ : Buffer) =
        b.push bs := by
      simp only [push,List.take_take,Nat.min_eq_left (Nat.sub_le b.i bs.length),List.append_assoc,
        List.drop_of_length_le (List.length_take_le b.i b.data),List.nil_append]
    have hsize : b.i - ((⟨b.data.take b.i,b.i⟩ : Buffer).push bs).i = bs.length := by
      change b.i - (b.i - bs.length) = bs.length
      omega
    have hrest := ((puts_varint bs.length.toUInt64).bind (puts_store [tag])) (b.push bs)
      (Room.push ⟨by simp; omega,hi⟩)
    rw [push_push ⟨by simp; omega,hi⟩] at hrest
    change (c.write ⟨b.data.take b.i,b.i⟩).bind _ = _
    rw [hin,Option.bind_some]
    dsimp only
    rw [hsize,hback]
    exact hrest

private theorem fields_writes (h : c.Writes p) (hs : (fields cs).Writes q) : (fields (c :: cs)).Writes (p ++ q) :=
  ⟨by rw [List.length_append,← h.size,← hs.size]; rfl,hs.puts.bind h.puts⟩

/-- The buffer is filled, and all of it is the result. -/
theorem marshal_eq (h : c.Writes bs) : c.marshal = some bs := by
  have hroom : (⟨List.replicate c.size 0,c.size⟩ : Buffer).Room bs.length := ⟨Nat.le_of_eq h.size.symm,by simp⟩
  rw [marshal,h.puts _ hroom]
  simp [push,h.size]

end Marshaller
end Marshallers

section RoundTrips

/-- The largest length there is. -/
def maxInt : Nat := 9223372036854775807

/-- The fields these bytes hold do this to a message. -/
def Schema.Takes (σ : Schema M) (m : M) (bs : List UInt8) (m' : M) : Prop := ∃ rs, Records rs bs ∧ σ.Reads m rs m'

private theorem Records.append {rs rs' : List Rec} (h : Records rs p) (h' : Records rs' q) :
    Records (rs ++ rs') (p ++ q) := by
  induction h with
  | nil => exact h'
  | cons ht hv _ ih =>
    rw [List.append_assoc,List.append_assoc]
    exact .cons ht hv ih

private theorem Schema.Reads.append {rs rs' : List Rec} (h : σ.Reads m rs m₁) (h' : σ.Reads m₁ rs' m₂) :
    σ.Reads m (rs ++ rs') m₂ := by
  induction h with
  | nil => exact h'
  | cons hs _ ih => exact .cons hs (ih h')

private theorem Schema.Takes.append (h : σ.Takes m p m₁) (h' : σ.Takes m₁ q m₂) : σ.Takes m (p ++ q) m₂ := by
  obtain ⟨rs,hrs,hr⟩ := h
  obtain ⟨rs',hrs',hr'⟩ := h'
  exact ⟨rs ++ rs',hrs.append hrs',hr.append hr'⟩

/-- A tag of one byte, with a field number and the wire type k. -/
def ShortTag (t : UInt8) (k : Nat) : Prop := 8 ≤ t.toNat ∧ t.toNat < 128 ∧ t.toNat % 8 = k

instance (t : UInt8) (k : Nat) : Decidable (ShortTag t k) := inferInstanceAs (Decidable (_ ∧ _))

private theorem ShortTag.tag {k : Nat} (h : ShortTag t k) : Tag (t.toNat / 8) k [t] := by
  obtain ⟨hlo,hhi,hk⟩ := h
  have hw : t.toUInt64.toNat = t.toNat := UInt8.toNat_toUInt64 t
  refine ⟨t.toUInt64,⟨.last ?_,by simp,?_⟩,?_,by omega,?_⟩
  · rw [UInt8.lt_iff_toNat_lt]
    exact hhi
  · rw [hw,base128,base128,Nat.mod_eq_of_lt (by change _ < 18446744073709551616; omega)]
    omega
  · have hnum : (t.toUInt64 >>> 3).toUInt32.toNat = t.toNat / 8 := by
      rw [UInt64.toNat_toUInt32,UInt64.toNat_shiftRight,hw]
      change t.toNat >>> 3 % 4294967296 = t.toNat / 8
      rw [Nat.shiftRight_eq_div_pow]
      omega
    have hcond : (fieldNum t.toUInt64).toInt =
        if 2 * (t.toUInt64 >>> 3).toUInt32.toNat < UInt32.size then ((t.toUInt64 >>> 3).toUInt32.toNat : Int)
        else (t.toUInt64 >>> 3).toUInt32.toNat - UInt32.size := BitVec.toInt_eq_toNat_cond _
    rw [hcond,hnum,if_pos (by change 2 * (t.toNat / 8) < 4294967296; omega)]
  · rw [wireType,UInt64.toNat_and,hw,← hk]
    exact Nat.and_two_pow_sub_one_eq_mod t.toNat 3

private theorem takes_varint {name : String} {set : UInt64 → M → M} (ht : ShortTag t 0)
    (hf : σ.field (t.toNat / 8) = some (.varint name set)) (v : UInt64) (m : M) : σ.Takes m (t :: varintBytes v) (set v m) := by
  have hv := varintBytes_varint v
  refine ⟨[⟨t.toNat / 8,0,varintBytes v⟩],?_,.cons ?_ .nil⟩
  · have := Records.cons (r := ⟨t.toNat / 8,0,varintBytes v⟩) ht.tag (.scalar (.varint hv)) .nil
    rwa [List.append_nil] at this
  · unfold Schema.Sets
    dsimp only
    rw [hf]
    exact ⟨rfl,v,hv,rfl⟩

private theorem delimited_bytes (h : p.length ≤ maxInt) : Delimited p (varintBytes p.length.toUInt64 ++ p) := by
  refine ⟨p.length.toUInt64,_,rfl,varintBytes_varint _,?_⟩
  have hn : p.length.toUInt64.toNat = p.length := by
    rw [Nat.toUInt64,UInt64.toNat_ofNat']
    exact Nat.mod_eq_of_lt (by change _ < 18446744073709551616; unfold maxInt at h; omega)
  have hcond : p.length.toUInt64.toInt64.toInt = if 2 * p.length.toUInt64.toNat < UInt64.size
      then (p.length.toUInt64.toNat : Int) else p.length.toUInt64.toNat - UInt64.size := BitVec.toInt_eq_toNat_cond _
  rw [hcond,hn,if_pos (by change _ < 18446744073709551616; unfold maxInt at h; omega)]

private theorem takes_bytes {name : String} {set : List UInt8 → M → Except WireError M} (ht : ShortTag t 2)
    (hf : σ.field (t.toNat / 8) = some (.bytes name set)) (hs : set p m = .ok m') (hp : p.length ≤ maxInt) :
    σ.Takes m (t :: (varintBytes p.length.toUInt64 ++ p)) m' := by
  have hd := delimited_bytes hp
  refine ⟨[⟨t.toNat / 8,2,varintBytes p.length.toUInt64 ++ p⟩],?_,.cons ?_ .nil⟩
  · have := Records.cons (r := ⟨t.toNat / 8,2,varintBytes p.length.toUInt64 ++ p⟩) ht.tag (.scalar (.bytes hd)) .nil
    rwa [List.append_nil] at this
  · unfold Schema.Sets
    dsimp only
    rw [hf]
    exact ⟨rfl,p,hd,hs⟩

namespace Marshaller
variable {c : Marshaller} {cs : List Marshaller} {name : String}

/-- What is marshalled has this effect on the message it is decoded into. -/
def Decodes (c : Marshaller) (σ : Schema M) (m m' : M) : Prop :=
  ∃ bs, c.Writes bs ∧ (bs.length ≤ maxInt → σ.Takes m bs m')

private theorem decodes_absent : absent.Decodes σ m m := ⟨[],absent_writes,fun _ => ⟨[],.nil,.nil⟩⟩

/-- An element of a repeated field is read back, empty or not. -/
theorem decodes_element {set : List UInt8 → M → Except WireError M} (ht : ShortTag t 2)
    (hf : σ.field (t.toNat / 8) = some (.bytes name set)) (hs : set p m = .ok m') : (element t p).Decodes σ m m' := by
  refine ⟨_,element_writes t p,fun hl => takes_bytes ht hf hs ?_⟩
  simp only [List.length_cons,List.length_append] at hl
  omega

/-- A string or bytes field; decoding the empty one would change nothing. -/
theorem decodes_bytes {set : List UInt8 → M → Except WireError M} (ht : ShortTag t 2)
    (hf : σ.field (t.toNat / 8) = some (.bytes name set)) (hs : p ≠ [] → set p m = .ok m') (hz : p = [] → m' = m) :
    (bytes t p).Decodes σ m m' := by
  rw [bytes]
  split
  case isTrue hp => exact decodes_element ht hf (hs (List.ne_nil_of_length_pos hp))
  case isFalse hp =>
    rw [hz (List.eq_nil_of_length_eq_zero (by omega))]
    exact decodes_absent

/-- A number that is always written is read back. -/
theorem decodes_number {set : UInt64 → M → M} (ht : ShortTag t 0) (hf : σ.field (t.toNat / 8) = some (.varint name set))
    (hs : set v m = m') : (number t v).Decodes σ m m' :=
  ⟨_,number_writes t v,fun _ => hs ▸ takes_varint ht hf v m⟩

/-- A number left out where it is zero is read back, as zero leaves the message alone. -/
theorem decodes_varint {set : UInt64 → M → M} (ht : ShortTag t 0) (hf : σ.field (t.toNat / 8) = some (.varint name set))
    (hs : set v m = m') (hz : v = 0 → m' = m) : (varint t v).Decodes σ m m' := by
  rw [varint]
  split
  case isTrue => exact decodes_number ht hf hs
  case isFalse hv =>
    rw [hz (not_not.mp hv)]
    exact decodes_absent

/-- A number that is stored as a natural number. -/
theorem decodes_nat {k : Nat} (set : Nat → M → M) (ht : ShortTag t 0)
    (hf : σ.field (t.toNat / 8) = some (.varint name (fun v => set v.toNat))) (hk : k < UInt64.size)
    (hz : set 0 m = m) : (varint t k.toUInt64).Decodes σ m (set k m) := by
  have hv : k.toUInt64.toNat = k := UInt64.toNat_ofNat_of_lt' hk
  refine decodes_varint ht hf (by rw [hv]) (fun h => ?_)
  rw [h,UInt64.toNat_zero] at hv
  rw [← hv,hz]

/-- A signed number, written as its two's complement. -/
theorem decodes_int64 {k : Int64} (set : Int64 → M → M) (ht : ShortTag t 0)
    (hf : σ.field (t.toNat / 8) = some (.varint name (fun v => set v.toInt64))) (hz : set 0 m = m) :
    (varint t k.toUInt64).Decodes σ m (set k m) := by
  have hv := Int64.toInt64_toUInt64 k
  refine decodes_varint ht hf (by rw [hv]) (fun h => ?_)
  rw [h] at hv
  rw [← hv]
  exact hz

/-- The same for a flag. -/
theorem decodes_bool {b : Bool} {set : UInt64 → M → M} (ht : ShortTag t 0)
    (hf : σ.field (t.toNat / 8) = some (.varint name set)) (hs : b = true → set 1 m = m') (hz : b = false → m' = m) :
    (bool t b).Decodes σ m m' := by
  cases b with
  | false =>
    rw [hz rfl]
    exact decodes_absent
  | true => exact ⟨_,bool_writes t,fun _ => hs rfl ▸ takes_varint ht hf 1 m⟩

/-- A message in a field, by what the field does with what the message decodes to. -/
theorem decodes_message {M' : Type} {τ : Schema M'} {x x' : M'} {set : List UInt8 → M → Except WireError M}
    (ht : ShortTag t 2) (hf : σ.field (t.toNat / 8) = some (.bytes name set)) (hc : c.Decodes τ x x')
    (hs : ∀ p, τ.decode x p = .ok x' → set p m = .ok m') : (message t c).Decodes σ m m' := by
  obtain ⟨bs,hw,hd⟩ := hc
  refine ⟨_,message_writes t hw,fun hl => ?_⟩
  simp only [List.length_cons,List.length_append] at hl
  exact takes_bytes ht hf (hs bs (Schema.decode_iff.mpr (hd (by omega)))) (by omega)

theorem decodes_nil : (fields []).Decodes σ m m := decodes_absent

/-- Fields are read back one after the other. -/
theorem decodes_cons (h : c.Decodes σ m m₁) (hs : (fields cs).Decodes σ m₁ m₂) : (fields (c :: cs)).Decodes σ m m₂ := by
  obtain ⟨bs,hw,hd⟩ := h
  obtain ⟨bs',hw',hd'⟩ := hs
  refine ⟨bs ++ bs',fields_writes hw hw',fun hl => ?_⟩
  rw [List.length_append] at hl
  exact (hd (by omega)).append (hd' (by omega))

private theorem decodes_append {α β : Type} {f : α → Marshaller} {y : α → β} (g : List β → M) {xs : List α}
    (h : ∀ x ∈ xs, ∀ ys, (f x).Decodes σ (g ys) (g (ys ++ [y x]))) (ys : List β) :
    (fields (xs.map f)).Decodes σ (g ys) (g (ys ++ xs.map y)) := by
  induction xs generalizing ys with
  | nil =>
    simp only [List.map_nil,List.append_nil]
    exact decodes_nil
  | cons x xs ih =>
    have hx := h x List.mem_cons_self ys
    have hxs := ih (fun z hz => h z (List.mem_cons_of_mem _ hz)) (ys ++ [y x])
    rw [List.append_assoc,List.singleton_append] at hxs
    exact decodes_cons hx hxs

/-- A list field: g is the message with its list, and every element is appended to it. -/
theorem decodes_list {α β : Type} {f : α → Marshaller} {y : α → β} (g : List β → M) {xs : List α}
    (h : ∀ x ∈ xs, ∀ ys, (f x).Decodes σ (g ys) (g (ys ++ [y x]))) (hm : g [] = m) :
    (fields (xs.map f)).Decodes σ m (g (xs.map y)) :=
  hm ▸ decodes_append g h []

/-- A message whose size is a length is marshalled to as many bytes, and they decode to it. -/
theorem Decodes.round_trip (h : c.Decodes σ m m') (hsize : c.size ≤ maxInt) :
    ∃ bs, c.marshal = some bs ∧ bs.length = c.size ∧ σ.decode m bs = .ok m' := by
  obtain ⟨bs,hw,hd⟩ := h
  have hlen := hw.size
  exact ⟨bs,marshal_eq hw,hlen.symm,Schema.decode_iff.mpr (hd (by omega))⟩

end Marshaller
end RoundTrips
end Zuul.Lib.Wire
