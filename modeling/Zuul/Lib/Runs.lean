import Mathlib.Data.Option.Basic

/-! Runs of a system whose step is a partial function of the action. -/
namespace Zuul.Lib
variable {σ α : Type} {next : σ → α → Option σ} {ok : σ → α → Prop} {s s' : σ}

/-- States reached by steps that all satisfy ok. -/
inductive Reaches (next : σ → α → Option σ) (ok : σ → α → Prop) (start : σ) : σ → Prop where
  | init : Reaches next ok start start
  | step {s s' : σ} {a : α} (h : Reaches next ok start s) (ha : ok s a) (hn : next s a = some s') :
      Reaches next ok start s'

/-- What holds at the start and is kept by every step holds in every state reached. -/
theorem Reaches.rule {I : σ → Prop} {start : σ} (h : Reaches next ok start s) (hstart : I start)
    (hstep : ∀ s a s', I s → ok s a → next s a = some s' → I s') : I s := by
  induction h with
  | init => exact hstart
  | step _ ha hn ih => exact hstep _ _ _ ih ha hn

/-- Execute a list of steps that are all possible and satisfy ok. -/
def exec (next : σ → α → Option σ) (ok : σ → α → Prop) [∀ s a, Decidable (ok s a)] : σ → List α → Option σ
  | s, [] => some s
  | s, a :: as => if ok s a then (next s a).bind (fun s' => exec next ok s' as) else none

section Exec
variable [∀ s a, Decidable (ok s a)]

/-- A run begins with its first step. -/
theorem exec_cons {a : α} {as : List α} (he : exec next ok s (a :: as) = some s') :
    ∃ t, ok s a ∧ next s a = some t ∧ exec next ok t as = some s' := by
  rw [exec] at he
  split at he
  · rename_i ha
    obtain ⟨t,ht,he⟩ := Option.bind_eq_some_iff.mp he
    exact ⟨t,ha,ht,he⟩
  · cases he

/-- One more step in front. -/
theorem exec_of_next {a : α} {as : List α} {t : σ} (ha : ok s a) (hn : next s a = some t) :
    exec next ok s (a :: as) = exec next ok t as := by
  rw [exec,if_pos ha,hn]
  rfl

/-- What a run ends in is reached. -/
theorem exec_reaches {start : σ} {as : List α} (h : Reaches next ok start s) (he : exec next ok s as = some s') :
    Reaches next ok start s' := by
  induction as generalizing s with
  | nil =>
    cases he
    exact h
  | cons a as ih =>
    obtain ⟨t,ha,ht,he⟩ := exec_cons he
    exact ih (h.step ha ht) he

private theorem exec_rule_from {I : List α → σ → Prop} {done as : List α}
    (hstep : ∀ as s a s', I as s → ok s a → next s a = some s' → I (as ++ [a]) s') (hi : I done s)
    (he : exec next ok s as = some s') : I (done ++ as) s' := by
  induction as generalizing done s with
  | nil =>
    cases he
    rwa [List.append_nil]
  | cons a as ih =>
    obtain ⟨t,ha,hn,he⟩ := exec_cons he
    rw [List.append_cons]
    exact ih (hstep _ _ _ _ hi ha hn) he

/-- What holds before the first step and is kept by every one, with the steps so far. -/
theorem exec_rule {I : List α → σ → Prop} {as : List α} (he : exec next ok s as = some s') (hstart : I [] s)
    (hstep : ∀ as s a s', I as s → ok s a → next s a = some s' → I (as ++ [a]) s') : I as s' :=
  exec_rule_from hstep hstart he

end Exec

/-- Every step of the run satisfies P. -/
def Along (next : σ → α → Option σ) (P : σ → α → σ → Prop) : σ → List α → Prop
  | _, [] => True
  | s, a :: as => ∀ s' ∈ next s a, P s a s' ∧ Along next P s' as

instance {P : σ → α → σ → Prop} [∀ s a s', Decidable (P s a s')] : ∀ s as, Decidable (Along next P s as)
  | _, [] => .isTrue trivial
  | s, a :: as =>
    have := fun s' => instDecidableAlong (P := P) s' as
    inferInstanceAs (Decidable (∀ s' ∈ next s a, P s a s' ∧ Along next P s' as))

/-- Two properties of steps that agree in every reachable state agree along every run. -/
theorem along_congr [∀ s a, Decidable (ok s a)] {P Q : σ → α → σ → Prop} {start : σ} {as : List α}
    (hpq : ∀ {s a s'}, Reaches next ok start s → next s a = some s' → (P s a s' ↔ Q s a s'))
    (h : Reaches next ok start s) (he : exec next ok s as = some s') : Along next P s as ↔ Along next Q s as := by
  induction as generalizing s with
  | nil => exact Iff.rfl
  | cons a as ih =>
    obtain ⟨t,ha,ht,he⟩ := exec_cons he
    simp only [Along,ht,Option.mem_some_iff,forall_eq']
    exact and_congr (hpq h ht) (ih (h.step ha ht) he)

end Zuul.Lib
