import Mathlib.Data.Nat.Digits.Defs
import Mathlib.Data.List.Induction

/-! Decimal numerals as byte strings: how a number is written, and which strings are
read as one. -/
namespace Zuul.Lib.Decimal
variable {n m : Nat} {s : List UInt8} {b : UInt8}

def digitByte (d : Nat) : UInt8 := UInt8.ofNat (48 + d)

/-- The numeral of a number, without leading zeros. -/
def decimal (n : Nat) : List UInt8 := if n = 0 then [48] else (Nat.digits 10 n).reverse.map digitByte

/-- A number is written with its sign only if it is negative. -/
def itoa (n : Int) : List UInt8 := if n < 0 then 45 :: decimal n.natAbs else decimal n.natAbs

def isDigit (b : UInt8) : Bool := 48 ≤ b && b ≤ 57

/-- The number a string of digits stands for. -/
def value (s : List UInt8) : Nat := s.foldl (fun n b => 10 * n + (b.toNat - 48)) 0

/-- Read a 64-bit number: an optional sign of either kind, then at least one digit. -/
def atoi (s : List UInt8) : Option Int :=
  let digits := if s.head? = some 43 ∨ s.head? = some 45 then s.tail else s
  if digits = [] ∨ ¬ digits.all isDigit then none
  else
    let n : Int := if s.head? = some 45 then -value digits else value digits
    if -9223372036854775808 ≤ n ∧ n ≤ 9223372036854775807 then some n else none

/-- No sign and no leading zero. -/
def Plain (s : List UInt8) : Prop := s = [48] ∨ ∃ b ∈ s.head?, 49 ≤ b ∧ b ≤ 57

section Numerals

private theorem toNat_digitByte (h : n < 10) : (digitByte n).toNat = 48 + n := by
  rw [digitByte,UInt8.toNat_ofNat']
  omega

private theorem digit_lt (h : isDigit b = true) : b.toNat - 48 < 10 := by
  simp only [isDigit,Bool.and_eq_true,decide_eq_true_eq,UInt8.le_iff_toNat_le,UInt8.reduceToNat] at h
  omega

private theorem digitByte_toNat (h : isDigit b = true) : digitByte (b.toNat - 48) = b := by
  simp only [isDigit,Bool.and_eq_true,decide_eq_true_eq,UInt8.le_iff_toNat_le,UInt8.reduceToNat] at h
  apply UInt8.toNat_inj.mp
  rw [toNat_digitByte (by omega)]
  omega

private theorem isDigit_digitByte (h : n < 10) : isDigit (digitByte n) = true := by
  simp only [isDigit,Bool.and_eq_true,decide_eq_true_eq,UInt8.le_iff_toNat_le,toNat_digitByte h,UInt8.reduceToNat]
  omega

private theorem decimal_of_lt (h : n < 10) : decimal n = [digitByte n] := by
  rw [decimal]
  split_ifs with h0
  · rw [h0]
    rfl
  · rw [Nat.digits_of_lt 10 n h0 h]
    rfl

/-- The last digit is the remainder. -/
theorem decimal_of_ge (h : 10 ≤ n) : decimal n = decimal (n / 10) ++ [digitByte (n % 10)] := by
  have hd : n / 10 ≠ 0 := by omega
  rw [decimal,decimal,if_neg (by omega),if_neg hd,Nat.digits_def' (by decide) (by omega),List.reverse_cons,
    List.map_append]
  rfl

/-- Numerals grow at the end. -/
theorem decimal_rule {P : Nat → List UInt8 → Prop} (small : ∀ n < 10, P n [digitByte n])
    (step : ∀ n, 10 ≤ n → P (n / 10) (decimal (n / 10)) → P n (decimal (n / 10) ++ [digitByte (n % 10)])) (n : Nat) :
    P n (decimal n) := by
  induction n using Nat.strongRecOn with
  | ind n ih =>
    by_cases h : n < 10
    · rw [decimal_of_lt h]
      exact small n h
    · rw [decimal_of_ge (Nat.not_lt.mp h)]
      exact step n (Nat.not_lt.mp h) (ih (n / 10) (by omega))

private theorem value_append (s : List UInt8) (b : UInt8) : value (s ++ [b]) = 10 * value s + (b.toNat - 48) := by
  rw [value,value,List.foldl_append]
  rfl

private theorem value_decimal (n : Nat) : value (decimal n) = n := by
  refine decimal_rule (P := fun n s => value s = n) (fun n h => ?_) (fun n h ih => ?_) n
  · rw [value,List.foldl_cons,List.foldl_nil,toNat_digitByte h]
    omega
  · rw [value_append,ih,toNat_digitByte (Nat.mod_lt _ (by decide))]
    omega

/-- No two numbers have the same numeral. -/
theorem decimal_injective : Function.Injective decimal := fun n m h => by
  rw [← value_decimal n,h,value_decimal]

/-- A numeral consists of digits. -/
theorem decimal_digits (n : Nat) : ∀ b ∈ decimal n, isDigit b = true := by
  refine decimal_rule (P := fun _ s => ∀ b ∈ s, isDigit b = true) (fun n h => ?_) (fun n h ih => ?_) n
  · rw [List.forall_mem_singleton]
    exact isDigit_digitByte h
  · rw [List.forall_mem_append,List.forall_mem_singleton]
    exact ⟨ih,isDigit_digitByte (Nat.mod_lt _ (by decide))⟩

/-- A number other than zero is written with a leading digit other than zero. -/
theorem decimal_plain (n : Nat) : Plain (decimal n) := by
  have hrule : n ≠ 0 → ∃ b ∈ (decimal n).head?, 49 ≤ b ∧ b ≤ 57 := by
    refine decimal_rule (P := fun n s => n ≠ 0 → ∃ b ∈ s.head?, 49 ≤ b ∧ b ≤ 57) (fun n h h0 => ?_) (fun n h ih _ => ?_) n
    · refine ⟨digitByte n,rfl,?_⟩
      simp only [UInt8.le_iff_toNat_le,toNat_digitByte h,UInt8.reduceToNat]
      omega
    · obtain ⟨b,hb,hr⟩ := ih (by omega)
      refine ⟨b,?_,hr⟩
      rw [List.head?_append,hb]
      rfl
  by_cases h0 : n = 0
  · rw [h0]
    exact .inl rfl
  · exact .inr (hrule h0)

/-- A plain string of digits is the numeral of its value. -/
theorem decimal_value (hd : ∀ b ∈ s, isDigit b = true) (hp : Plain s) : decimal (value s) = s := by
  induction s using List.reverseRecOn with
  | nil =>
    rcases hp with h | ⟨b,hb,-⟩
    · cases h
    · cases hb
  | append_singleton s b ih =>
    rw [List.forall_mem_append,List.forall_mem_singleton] at hd
    have hb := digitByte_toNat hd.2
    have hlt : b.toNat - 48 < 10 := digit_lt hd.2
    by_cases hs : s = []
    · rw [hs,List.nil_append,value,List.foldl_cons,List.foldl_nil,Nat.mul_zero,Nat.zero_add,decimal_of_lt hlt,hb]
    · have hlead : ∃ c ∈ s.head?, 49 ≤ c ∧ c ≤ 57 := by
        obtain ⟨c,rest,rfl⟩ := List.exists_cons_of_ne_nil hs
        rcases hp with h | h
        · cases rest <;> cases h
        · exact h
      have hv := ih hd.1 (.inr hlead)
      -- a value of zero would leave the single digit zero in front
      have hpos : value s ≠ 0 := by
        intro h0
        rw [h0] at hv
        obtain ⟨c,hc,hr,-⟩ := hlead
        rw [← hv] at hc
        cases hc
        exact absurd hr (by decide)
      rw [value_append,decimal_of_ge (by omega),Nat.mul_add_div (by decide),Nat.mul_add_mod,Nat.div_eq_of_lt hlt,
        Nat.mod_eq_of_lt hlt,Nat.add_zero,hv,hb]

end Numerals

section Reading
variable {z : Int}

private theorem atoi_digits (h : atoi s = some z) :
    ∀ b ∈ if s.head? = some 43 ∨ s.head? = some 45 then s.tail else s, isDigit b = true := by
  rw [atoi] at h
  dsimp only at h
  generalize (if s.head? = some 43 ∨ s.head? = some 45 then s.tail else s) = digits at h ⊢
  by_cases hbad : digits = [] ∨ ¬ digits.all isDigit = true
  · rw [if_pos hbad] at h
    cases h
  · exact List.all_eq_true.mp (not_not.mp (not_or.mp hbad).2)

/-- What is read as a number is a sign or nothing, and then digits. -/
theorem atoi_bytes (h : atoi s = some z) : ∀ b ∈ s, isDigit b = true ∨ b = 43 ∨ b = 45 := by
  have hd := atoi_digits h
  split_ifs at hd with hsign
  · cases s with
    | nil => exact fun b hb => by cases hb
    | cons c s =>
      exact List.forall_mem_cons.mpr ⟨.inr (hsign.imp Option.some.inj Option.some.inj),fun b hb => .inl (hd b hb)⟩
  · exact fun b hb => .inl (hd b hb)

private theorem plain_unsigned (h : Plain s) : s.head? ≠ some 43 ∧ s.head? ≠ some 45 := by
  rcases h with rfl | ⟨b,hb,hr,-⟩
  · decide
  · rw [Option.mem_def] at hb
    rw [hb]
    refine ⟨fun he => ?_,fun he => ?_⟩
    all_goals
      cases he
      exact absurd hr (by decide)

/-- The one plain string that is read as a number is its numeral. -/
theorem plain_iff (h : atoi s = some (n : Int)) : Plain s ↔ s = decimal n := by
  refine ⟨fun hp => ?_,fun he => he ▸ decimal_plain n⟩
  obtain ⟨hplus,hminus⟩ := plain_unsigned hp
  have hd := atoi_digits h
  rw [if_neg (not_or.mpr ⟨hplus,hminus⟩)] at hd
  rw [atoi] at h
  dsimp only at h
  rw [if_neg (not_or.mpr ⟨hplus,hminus⟩),if_neg hminus] at h
  split_ifs at h
  obtain rfl : value s = n := Int.ofNat.inj (Option.some.inj h)
  exact (decimal_value hd hp).symm

end Reading
end Zuul.Lib.Decimal
