import Mathlib.Logic.Function.Basic
import Mathlib.Data.List.Induction

/-! Change logs: each entry names a key and carries what is now true of it. -/
namespace Zuul.Lib.ChangeLog
variable {K E I : Type} [DecidableEq K] (key : E → K) (image : E → I)

/-- Apply the entries in order. -/
def replay (σ : K → I) (evs : List E) : K → I := evs.foldl (fun σ e => Function.update σ (key e) (image e)) σ

/-- The entries about one key. -/
def about (k : K) (evs : List E) : List E := evs.filter (fun e => key e = k)

/-- The events about a key in one list and then another. -/
theorem about_append (k : K) (a b : List E) : about key k (a ++ b) = about key k a ++ about key k b :=
  List.filter_append ..

theorem mem_about {k : K} {evs : List E} {e : E} : e ∈ about key k evs ↔ e ∈ evs ∧ key e = k := by simp [about]

/-- Replaying goes on where it stopped. -/
theorem replay_append (σ : K → I) (a b : List E) :
    replay key image σ (a ++ b) = replay key image (replay key image σ a) b := List.foldl_append

/-- Only the last entry about a key counts. -/
theorem replay_apply (σ : K → I) (evs : List E) (k : K) :
    replay key image σ evs k = ((about key k evs).getLast?.map image).getD (σ k) := by
  induction evs using List.reverseRecOn with
  | nil => rfl
  | append_singleton evs e ih =>
    rw [replay_append,about_append]
    change Function.update (replay key image σ evs) (key e) (image e) k = _
    by_cases hk : key e = k
    · subst hk
      rw [Function.update_self]
      simp [about]
    · rw [Function.update_of_ne (Ne.symm hk),ih]
      simp [about,hk]

end Zuul.Lib.ChangeLog
