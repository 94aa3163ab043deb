import Mathlib.Data.List.Basic

/-! Strings cut at a separator: the part before the first one is determined. -/
namespace Zuul.Lib
variable {α : Type} {c : α} {a b x y : List α}

/-- Nothing follows, or the separator does. -/
def Stops (c : α) (x : List α) : Prop := ∀ d ∈ x.head?, d = c

theorem stops_nil : Stops c [] := fun _ hd => by cases hd

theorem stops_cons (c : α) (x : List α) : Stops c (c :: x) := fun _ hd => (Option.some.inj hd).symm

/-- Texts that stop at a separator stop when put together. -/
theorem Stops.append (hx : Stops c x) (hy : Stops c y) : Stops c (x ++ y) := by
  cases x with
  | nil => exact hy
  | cons d x => exact hx

/-- The part before the separator is cut off exactly. -/
theorem takeWhile_stops [DecidableEq α] (ha : c ∉ a) (hx : Stops c x) : (a ++ x).takeWhile (· ≠ c) = a := by
  rw [List.takeWhile_append_of_pos]
  · cases x with
    | nil => simp
    | cons d x => simp [hx d rfl]
  · intro d hd
    exact decide_eq_true (fun he => ha (he ▸ hd))

/-- Two ways to cut one string before its first separator are the same. -/
theorem append_stops_inj [DecidableEq α] (ha : c ∉ a) (hb : c ∉ b) (hx : Stops c x) (hy : Stops c y)
    (h : a ++ x = b ++ y) : a = b ∧ x = y := by
  have he : a = b := by rw [← takeWhile_stops ha hx,h,takeWhile_stops hb hy]
  subst he
  exact ⟨rfl,List.append_cancel_left h⟩

end Zuul.Lib
