import Mathlib.Data.List.Basic

/-! A byte string read as UTF-8. A byte that does not begin a well-formed sequence
counts as one replacement character. -/
namespace Zuul.Lib.Utf8
variable {a b c d : UInt8} {s : List UInt8}

def runeError : Nat := 0xFFFD

def follows (b : UInt8) : Bool := 0x80 ≤ b && b ≤ 0xBF

def isPair (a b : UInt8) : Bool := 0xC2 ≤ a && a ≤ 0xDF && follows b

/-- Neither an overlong form nor half of a surrogate pair. -/
def isTriple (a b c : UInt8) : Bool :=
  0xE0 ≤ a && a ≤ 0xEF && follows b && follows c && (a != 0xE0 || 0xA0 ≤ b) && (a != 0xED || b ≤ 0x9F)

/-- Neither an overlong form nor beyond the last code point. -/
def isQuad (a b c d : UInt8) : Bool :=
  0xF0 ≤ a && a ≤ 0xF4 && follows b && follows c && follows d && (a != 0xF0 || 0x90 ≤ b) && (a != 0xF4 || b ≤ 0x8F)

/-- The rune at the front of a :: s and its width. -/
def decodeRune (a : UInt8) (s : List UInt8) : Nat × Nat :=
  -- a missing byte reads as zero, which follows nothing
  let b := s.getD 0 0
  let c := s.getD 1 0
  let d := s.getD 2 0
  if a < 0x80 then (a.toNat,1)
  else if isPair a b then (a.toNat % 32 * 64 + b.toNat % 64,2)
  else if isTriple a b c then (a.toNat % 16 * 4096 + b.toNat % 64 * 64 + c.toNat % 64,3)
  else if isQuad a b c d then
    (a.toNat % 8 * 262144 + b.toNat % 64 * 4096 + c.toNat % 64 * 64 + d.toNat % 64,4)
  else (runeError,1)

/-- The runes after the next few bytes have been passed over. -/
def runesFrom : (skip : Nat) → List UInt8 → List Nat
  | _, [] => []
  | skip + 1, _ :: s => runesFrom skip s
  | 0, a :: s => (decodeRune a s).1 :: runesFrom ((decodeRune a s).2 - 1) s

/-- The runes of a string, from first to last. -/
def runes (s : List UInt8) : List Nat := runesFrom 0 s

private theorem decodeRune_ascii (ha : a < 0x80) : decodeRune a s = (a.toNat,1) := if_pos ha

private theorem pair_wide (h : isPair a b = true) : 0x80 ≤ a.toNat % 32 * 64 + b.toNat % 64 := by
  simp only [isPair,follows,Bool.and_eq_true,decide_eq_true_eq,UInt8.le_iff_toNat_le,UInt8.reduceToNat] at h
  omega

private theorem triple_wide (h : isTriple a b c = true) :
    0x80 ≤ a.toNat % 16 * 4096 + b.toNat % 64 * 64 + c.toNat % 64 := by
  simp only [isTriple,follows,Bool.and_eq_true,Bool.or_eq_true,bne_iff_ne,ne_eq,decide_eq_true_eq,
    UInt8.le_iff_toNat_le,← UInt8.toNat_inj,UInt8.reduceToNat] at h
  omega

private theorem quad_wide (h : isQuad a b c d = true) :
    0x80 ≤ a.toNat % 8 * 262144 + b.toNat % 64 * 4096 + c.toNat % 64 * 64 + d.toNat % 64 := by
  simp only [isQuad,follows,Bool.and_eq_true,Bool.or_eq_true,bne_iff_ne,ne_eq,decide_eq_true_eq,
    UInt8.le_iff_toNat_le,← UInt8.toNat_inj,UInt8.reduceToNat] at h
  omega

/-- What begins with a byte beyond the ASCII range is a rune beyond it. -/
theorem decodeRune_wide (ha : ¬ a < 0x80) : 0x80 ≤ (decodeRune a s).1 := by
  rw [decodeRune,if_neg ha]
  split_ifs with h2 h3 h4
  · exact pair_wide h2
  · exact triple_wide h3
  · exact quad_wide h4
  · decide

/-- A test that no rune beyond the ASCII range passes is a test of the bytes. -/
theorem all_runes_iff {p : Nat → Prop} (hp : ∀ r, 0x80 ≤ r → ¬ p r) : (∀ r ∈ runes s, p r) ↔ ∀ b ∈ s, p b.toNat := by
  induction s with
  | nil => exact ⟨fun _ b hb => (by cases hb),fun _ r hr => (by cases hr)⟩
  | cons a s ih =>
    rw [runes,runesFrom,List.forall_mem_cons,List.forall_mem_cons]
    by_cases ha : a < 0x80
    · rw [decodeRune_ascii ha]
      exact and_congr_right (fun _ => ih)
    · have hbyte : 0x80 ≤ a.toNat := UInt8.le_iff_toNat_le.mp (UInt8.not_lt.mp ha)
      exact iff_of_false (fun h => hp _ (decodeRune_wide ha) h.1) (fun h => hp _ hbyte h.1)

end Zuul.Lib.Utf8
