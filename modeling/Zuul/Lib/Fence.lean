import Mathlib.Order.Nat

/-! Fencing by a shared counter: a slot is held under a number drawn from the
counter, and a new hold always takes a number beyond every number drawn before. -/
namespace Zuul.Lib
variable {K C : Type}

structure Fence (K C : Type) where
  counter : Nat
  hold : K → Option (C × Nat)

namespace Fence
variable {a b d : Fence K C} {k : K} {c c' : C} {t t' : Nat}

/-- Every number in use was drawn. -/
def Bounded (a : Fence K C) : Prop := ∀ {k c t}, a.hold k = some (c,t) → t ≤ a.counter

/-- Time went on: a hold stays, ends, or gives way to one with a new number. -/
structure Advances (a b : Fence K C) : Prop where
  counter : a.counter ≤ b.counter
  hold : ∀ k, b.hold k = a.hold k ∨ b.hold k = none ∨ ∃ c t, b.hold k = some (c,t) ∧ a.counter < t

theorem Advances.refl (a : Fence K C) : Advances a a := ⟨le_rfl,fun _ => .inl rfl⟩

/-- Fences that advance step by step advance over all. -/
theorem Advances.trans (h : Advances a b) (j : Advances b d) : Advances a d where
  counter := h.counter.trans j.counter
  hold k := by
    rcases j.hold k with he | hn | ⟨c,t,hc,ht⟩
    · rw [he]
      exact h.hold k
    · exact .inr (.inl hn)
    · exact .inr (.inr ⟨c,t,hc,h.counter.trans_lt ht⟩)

/-- A later hold of the slot is the same hold or has a larger number. -/
theorem Advances.increasing (h : Advances a b) (hb : a.Bounded) (hk : a.hold k = some (c,t))
    (hk' : b.hold k = some (c',t')) : (c',t') = (c,t) ∨ t < t' := by
  rcases h.hold k with he | hn | ⟨d,n,hd,hn⟩
  · rw [hk',hk] at he
    exact .inl (Option.some.inj he)
  · rw [hk'] at hn
    cases hn
  · rw [hk'] at hd
    cases hd
    exact .inr ((hb hk).trans_lt hn)

/-- A number that was drawn and is not in use at the slot stays out of use there. -/
theorem Advances.never_returns (h : Advances a b) (hk : a.hold k ≠ some (c,t)) (ht : t ≤ a.counter) :
    b.hold k ≠ some (c,t) := by
  intro hc
  rcases h.hold k with he | hn | ⟨d,n,hd,hn⟩
  · exact hk (he.symm.trans hc)
  · rw [hc] at hn
    cases hn
  · rw [hc] at hd
    cases hd
    exact Nat.not_le_of_lt hn ht

end Fence
end Zuul.Lib
