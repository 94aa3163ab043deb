import Zuul.Access.Plane
import Zuul.Auth.Paths

/-! Authorizers: the per-identity prefix rules and the home directory of every identity. -/
namespace Zuul.Access
open Lib Fsm
open Auth (Keypath.hasPrefix Keypath.owner)

/-- Whether the identity may do the operation on the key; ErrDenied is the only error. -/
abbrev Authorizer := Str → Str → Op → Bool

/-- A grant of an identity for the keys under a prefix; the empty one covers every key. -/
structure Rule where
  pre : Str := []
  write : Bool := false
  admin : Bool := false
  deriving DecidableEq, Repr

/-- A rule always allows reading; the other rights are separate. -/
def Rule.grants (r : Rule) : Op → Bool
  | .read => true
  | .write => r.write
  | .admin => r.admin
  | .unknown => false

abbrev Rules := KeyedMap Str (List Rule)

def prefixCovers (pre key : Str) : Bool := Keypath.hasPrefix pre key

/-- The loop over the rules of an identity: a rule that does not cover the key or
lacks the right is passed over. -/
def authorizeRules (key : Str) (op : Op) : List Rule → Bool
  | [] => false
  | r :: rs =>
    if prefixCovers r.pre key = false then authorizeRules key op rs
    else if r.grants op then true
    else authorizeRules key op rs

def prefixPolicy (rules : Rules) : Authorizer :=
  fun identity key op => authorizeRules key op ((rules.lookup identity).getD [])

/-- Whether the key is a canonical path that belongs to the identity. -/
def owns (identity key : Str) : Bool :=
  match Keypath.owner key with
  | .ok owner => owner == identity
  | .error _ => false

/-- Every identity reads and writes under its own path; the rest is left to inner. -/
def homeDir (inner : Authorizer) : Authorizer :=
  fun identity key op =>
    if identity ≠ [] ∧ (op = .read ∨ op = .write) ∧ owns identity key = true then true else inner identity key op

section Decisions
variable {identity key : Str} {op : Op} {rules : Rules}

private theorem authorizeRules_iff (rs : List Rule) :
    authorizeRules key op rs = true ↔ ∃ r ∈ rs, Keypath.hasPrefix r.pre key = true ∧ r.grants op = true := by
  induction rs with
  | nil => simp [authorizeRules]
  | cons r rs ih =>
    rw [authorizeRules,List.exists_mem_cons_iff,← ih,prefixCovers]
    split_ifs with hc hg
    · simp [hc]
    · simp [hc,hg]
    · simp [hg]

/-- The prefix policy permits by a rule of the identity that covers the key and grants the
operation. -/
theorem prefixPolicy_iff : prefixPolicy rules identity key op = true ↔
    ∃ r ∈ (rules.lookup identity).getD [], Keypath.hasPrefix r.pre key = true ∧ r.grants op = true :=
  authorizeRules_iff _

private theorem owns_iff : owns identity key = true ↔ Keypath.owner key = .ok identity := by
  rw [owns]
  split
  · rename_i owner h
    rw [h,beq_iff_eq,Except.ok.injEq]
  · rename_i h
    rw [h]
    exact iff_of_false (fun h => by cases h) (fun h => by cases h)

/-- Besides what the inner policy permits, an identity may read and write under its own name. -/
theorem homeDir_iff {inner : Authorizer} : homeDir inner identity key op = true ↔
    (identity ≠ [] ∧ (op = .read ∨ op = .write) ∧ Keypath.owner key = .ok identity) ∨ inner identity key op = true := by
  rw [homeDir,← owns_iff]
  split_ifs with h
  · exact iff_of_true rfl (.inl h)
  · rw [or_iff_right h]

end Decisions

/-- A rule that lacks the right is passed over for a later one. -/
example : homeDir (prefixPolicy ((∅ : Rules).insert (str "bob") [⟨str "/a",false,false⟩,⟨str "/a/",true,false⟩]))
    (str "bob") (str "/a/x") .write = true := by decide

end Zuul.Access
