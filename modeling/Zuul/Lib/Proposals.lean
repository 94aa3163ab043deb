import Mathlib.Data.List.Basic

/-! A replicated state with proposals that their callers have given up: each of them
commits at some later time or never. -/
namespace Zuul.Lib

structure Proposals (σ κ : Type) where
  state : σ
  inFlight : List κ := []

namespace Proposals
variable {σ κ : Type} {apply : σ → κ → σ × Bool} {g : Proposals σ κ} {H : κ → Prop} {P Q : σ → Prop} {cmd : κ}

/-- One of the proposals commits. The state machine may refuse it. -/
def commit (apply : σ → κ → σ × Bool) (g : Proposals σ κ) (k : Nat) : Proposals σ κ :=
  match g.inFlight[k]? with
  | none => g
  | some cmd => { state := (apply g.state cmd).1, inFlight := g.inFlight.eraseIdx k }

def commitAll (apply : σ → κ → σ × Bool) (g : Proposals σ κ) (ks : List Nat) :
    Proposals σ κ := ks.foldl (commit apply) g

def propose (g : Proposals σ κ) (cmd : κ) : Proposals σ κ := { g with inFlight := g.inFlight ++ [cmd] }

/-- The state satisfies P, and what may still commit is harmless. -/
structure Calm (H : κ → Prop) (P : σ → Prop) (g : Proposals σ κ) : Prop where
  state : P g.state
  inFlight : ∀ cmd ∈ g.inFlight, H cmd

/-- What is kept may be weakened. -/
theorem Calm.mono (h : g.Calm H P) (hQ : P g.state → Q g.state) : g.Calm H Q := ⟨hQ h.state,h.inFlight⟩

/-- Putting a harmless command in flight changes no state. -/
theorem Calm.propose (h : g.Calm H P) (hc : H cmd) : (g.propose cmd).Calm H P := by
  refine ⟨h.state,fun c hmem => ?_⟩
  rcases List.mem_append.mp hmem with hmem | hmem
  · exact h.inFlight c hmem
  · rw [List.mem_singleton.mp hmem]
    exact hc

/-- What harmless commands keep is kept by whatever commits late. -/
theorem Calm.commit (hP : ∀ s cmd, P s → H cmd → P (apply s cmd).1) (h : g.Calm H P) (k : Nat) :
    (g.commit apply k).Calm H P := by
  rw [Proposals.commit]
  split
  · exact h
  · rename_i cmd hk
    exact ⟨hP _ _ h.state (h.inFlight cmd (List.mem_of_getElem? hk)),
      fun c hc => h.inFlight c (List.mem_of_mem_eraseIdx hc)⟩

/-- Harmless commands may commit in any number, whenever they do. -/
theorem Calm.commitAll (hP : ∀ s cmd, P s → H cmd → P (apply s cmd).1) (h : g.Calm H P) (ks : List Nat) :
    (g.commitAll apply ks).Calm H P := by
  induction ks generalizing g with
  | nil => exact h
  | cons k ks ih => exact ih (h.commit hP k)

end Proposals
end Zuul.Lib
