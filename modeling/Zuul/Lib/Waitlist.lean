import Mathlib.Data.Set.Insert

/-! Lines of members: one ordered line for each key. -/
namespace Zuul.Lib

/-- For each key the members standing in its line, and the set of all members. -/
structure Waitlist (K C : Type) where
  line : K → List C
  members : Set C

namespace Waitlist
variable {K C : Type} [DecidableEq K] [DecidableEq C]

/-- Replace the line of one key. -/
def put (a : Waitlist K C) (k : K) (line : List C) : Waitlist K C :=
  { a with line := Function.update a.line k line }

/-- A client becomes a member. -/
def enrol (a : Waitlist K C) (c : C) : Waitlist K C := { a with members := insert c a.members }

/-- A member leaves, and with it its place in every line. -/
def withdraw (a : Waitlist K C) (c : C) : Waitlist K C where
  line k := (a.line k).filter (· ≠ c)
  members := a.members \ {c}

omit [DecidableEq C] in
/-- Writing back a line that is there changes nothing. -/
theorem put_line (a : Waitlist K C) (k : K) : a.put k (a.line k) = a := by
  simp only [put,Function.update_eq_self]

omit [DecidableEq K] [DecidableEq C] in
/-- A waitlist is its lines and its members. -/
theorem ext_line {a b : Waitlist K C} (hl : ∀ k, a.line k = b.line k) (hm : ∀ c, c ∈ a.members ↔ c ∈ b.members) :
    a = b := by
  cases a
  cases b
  congr
  · exact funext hl
  · exact Set.ext hm

omit [DecidableEq K] in
/-- Members leave one after the other: the others keep their order, whatever the
order of leaving. -/
theorem withdraw_all_line (a : Waitlist K C) (cs : List C) (k : K) :
    (cs.foldl withdraw a).line k = (a.line k).filter (· ∉ cs) := by
  induction cs generalizing a with
  | nil => exact (List.filter_eq_self.mpr (fun _ _ => by simp)).symm
  | cons c cs ih =>
    rw [List.foldl_cons,ih,withdraw,List.filter_filter]
    exact List.filter_congr (fun d _ => by simp [Bool.and_comm])

omit [DecidableEq K] in
/-- After several withdrawals the members are those that did not withdraw. -/
theorem mem_withdraw_all (a : Waitlist K C) (cs : List C) (c : C) :
    c ∈ (cs.foldl withdraw a).members ↔ c ∈ a.members ∧ c ∉ cs := by
  induction cs generalizing a with
  | nil => simp
  | cons d cs ih =>
    rw [List.foldl_cons,ih]
    simp [withdraw,and_assoc]

end Waitlist
end Zuul.Lib
