import Zuul.Lib.Runs
import Mathlib.Data.List.Forall2
import Mathlib.Logic.Function.Basic

/-! Replicas of a state machine over one agreed log: entries applied in batches, snapshots
written while the log goes on, and restarts. Every replica is where the log says. -/
namespace Zuul.Lib.Replication
variable {σ κ γ β α ν φ : Type}

/-- What the replicas run: commands κ become entries β of the log, a batch of entries
leaves α behind, and a snapshot ν of a state σ is written to a file φ. None is fatal. -/
structure Machine (σ κ β α ν φ : Type) where
  init : σ
  encode : κ → Option β
  update : σ → (first : Nat) → List β → Option (σ × α)
  prepare : σ → ν
  save : ν → Option φ
  recover : σ → φ → Option σ

/-- A replica: its state, the number of entries in it, and a snapshot that was taken
but not written yet. -/
structure Replica (σ ν : Type) where
  state : σ
  applied : Nat := 0
  prepared : Option (Nat × ν) := none
  down : Bool := false

/-- What a replica left behind when it applied count entries after the first ones. -/
structure Batch (α : Type) where
  first : Nat
  count : Nat
  left : α

/-- The log, the replicas, the snapshot files with the entries they stand for, and all
the batches applied anywhere. -/
structure Group (σ β α ν φ : Type) where
  log : List β := []
  replica : Nat → Replica σ ν
  files : List (Nat × φ) := []
  batches : List (Batch α) := []

inductive Act (κ : Type) where
  | commit (c : κ)
  | apply (r n : Nat)
  | prepare (r : Nat)
  | save (r : Nat)
  | recover (r file : Nat)
  | restart (r : Nat)

def Group.set (g : Group σ β α ν φ) (r : Nat) (x : Replica σ ν) : Group σ β α ν φ :=
  { g with replica := Function.update g.replica r x }

namespace Machine
variable (M : Machine σ κ β α ν φ)

def start : Group σ β α ν φ := { replica := fun _ => ⟨M.init,0,none,false⟩ }

/-- The next n entries of the log, as one batch. -/
def apply (g : Group σ β α ν φ) (r n : Nat) (x : Replica σ ν) : Group σ β α ν φ :=
  let es := (g.log.drop x.applied).take n
  match M.update x.state x.applied es with
  | none => g.set r { x with down := true }
  | some (s,left) =>
    { g.set r { x with state := s, applied := x.applied + es.length } with
      batches := g.batches ++ [⟨x.applied,es.length,left⟩] }

def write (g : Group σ β α ν φ) (r : Nat) (x : Replica σ ν) (taken : Nat × ν) : Group σ β α ν φ :=
  match M.save taken.2 with
  | none => g.set r { x with down := true }
  | some file => { g.set r { x with prepared := none } with files := g.files ++ [(taken.1,file)] }

def install (g : Group σ β α ν φ) (r : Nat) (x : Replica σ ν) (file : Nat × φ) : Group σ β α ν φ :=
  match M.recover x.state file.2 with
  | none => g.set r { x with down := true }
  | some s => g.set r { x with state := s, applied := file.1 }

/-- One move. A replica that is down can only be restarted. -/
def next (g : Group σ β α ν φ) : Act κ → Option (Group σ β α ν φ)
  | .commit c => (M.encode c).map (fun e => { g with log := g.log ++ [e] })
  | .apply r n => if (g.replica r).down then none else some (M.apply g r n (g.replica r))
  | .prepare r =>
    let x := g.replica r
    if x.down then none else some (g.set r { x with prepared := some (x.applied,M.prepare x.state) })
  | .save r =>
    let x := g.replica r
    if x.down then none else x.prepared.map (M.write g r x)
  | .recover r file =>
    let x := g.replica r
    if x.down then none else (g.files[file]?).map (M.install g r x)
  | .restart r => some (g.set r ⟨M.init,0,none,false⟩)

end Machine

/-- A machine represents the sequence of values γ of its commands, as long as the
sequence is in range. Enc says what value an entry holds, Rep and File which sequence a
state or a file stands for, and Out what a batch after one sequence leaves behind. -/
structure Model (M : Machine σ κ β α ν φ) (γ : Type) where
  value : κ → γ
  Allowed : κ → Prop
  InRange : List γ → Prop
  Enc : β → γ → Prop
  Rep : σ → List γ → Prop
  File : φ → List γ → Prop
  Out : List γ → List γ → α → Prop
  mono : ∀ {cs ds}, InRange (cs ++ ds) → InRange cs
  init : Rep M.init []
  encode : ∀ {c e}, Allowed c → M.encode c = some e → Enc e (value c)
  update : ∀ {x cs ds es} (first : Nat), InRange (cs ++ ds) → Rep x cs → List.Forall₂ Enc es ds →
    ∃ x' left, M.update x first es = some (x',left) ∧ Rep x' (cs ++ ds) ∧ Out cs ds left
  save : ∀ {x cs}, InRange cs → Rep x cs → ∃ file, M.save (M.prepare x) = some file ∧ File file cs
  recover : ∀ {file cs y ds}, File file cs → Rep y ds → ∃ x, M.recover y file = some x ∧ Rep x cs

namespace Model
variable {M : Machine σ κ β α ν φ} (R : Model M γ) {cs ds : List γ} {g g' : Group σ β α ν φ} {r : Nat}
  {x : Replica σ ν}

/-- A replica is up, and stands for the entries it has applied. -/
structure ReplicaSound (cs : List γ) (x : Replica σ ν) : Prop where
  up : x.down = false
  applied : x.applied ≤ cs.length
  state : R.Rep x.state (cs.take x.applied)
  prepared : ∀ i v, x.prepared = some (i,v) → i ≤ cs.length ∧ ∃ y, R.Rep y (cs.take i) ∧ M.prepare y = v

/-- Everything in the group stands for the values that were committed. -/
structure Sound (cs : List γ) (g : Group σ β α ν φ) : Prop where
  log : List.Forall₂ R.Enc g.log cs
  replica : ∀ r, R.ReplicaSound cs (g.replica r)
  files : ∀ p ∈ g.files, p.1 ≤ cs.length ∧ R.File p.2 (cs.take p.1)
  batches : ∀ b ∈ g.batches, b.first + b.count ≤ cs.length ∧
    R.Out (cs.take b.first) ((cs.drop b.first).take b.count) b.left

variable {R}

private theorem sound_start : R.Sound [] M.start where
  log := .nil
  replica _ := ⟨rfl,Nat.le_refl 0,R.init,fun _ _ h => by cases h⟩
  files _ h := by cases h
  batches _ h := by cases h

private theorem Sound.set (h : R.Sound cs g) (hx : R.ReplicaSound cs x) : R.Sound cs (g.set r x) where
  log := h.log
  replica k := by
    change R.ReplicaSound cs (Function.update g.replica r x k)
    rw [Function.update_apply]
    split
    · exact hx
    · exact h.replica k
  files := h.files
  batches := h.batches

private theorem ReplicaSound.append (h : R.ReplicaSound cs x) (ds : List γ) : R.ReplicaSound (cs ++ ds) x where
  up := h.up
  applied := by
    have := h.applied
    rw [List.length_append]
    omega
  state := by
    rw [List.take_append_of_le_length h.applied]
    exact h.state
  prepared i v he := by
    obtain ⟨hi,hy⟩ := h.prepared i v he
    rw [List.take_append_of_le_length hi,List.length_append]
    exact ⟨by omega,hy⟩

private theorem Sound.commit {e : β} {c : γ} (h : R.Sound cs g) (he : R.Enc e c) :
    R.Sound (cs ++ [c]) { g with log := g.log ++ [e] } where
  log := List.rel_append h.log (.cons he .nil)
  replica k := (h.replica k).append [c]
  files p hp := by
    obtain ⟨hi,hf⟩ := h.files p hp
    rw [List.take_append_of_le_length hi,List.length_append]
    exact ⟨by omega,hf⟩
  batches b hb := by
    obtain ⟨hi,ho⟩ := h.batches b hb
    rw [List.take_append_of_le_length (by omega),List.drop_append_of_le_length (by omega),
      List.take_append_of_le_length (by rw [List.length_drop]; omega),List.length_append]
    exact ⟨by omega,ho⟩

private theorem take_range (cs : List γ) (i n : Nat) :
    cs.take (i + ((cs.drop i).take n).length) = cs.take i ++ (cs.drop i).take n := by
  rw [List.take_add,List.length_take,← List.take_eq_take_min]

private theorem inRange_take (h : R.InRange cs) (i : Nat) : R.InRange (cs.take i) :=
  R.mono (show R.InRange (cs.take i ++ cs.drop i) by rwa [List.take_append_drop])

private theorem Sound.apply (h : R.Sound cs g) (hr : R.InRange cs) (r n : Nat) :
    R.Sound cs (M.apply g r n (g.replica r)) := by
  have hx := h.replica r
  generalize g.replica r = x at hx
  have hes := List.forall₂_take n (List.forall₂_drop x.applied h.log)
  have hlen := hes.length_eq
  have hrange := take_range cs x.applied n
  obtain ⟨s,left,hu,hs,ho⟩ := R.update x.applied (by rw [← hrange]; exact inRange_take hr _) hx.state hes
  have hle : x.applied + ((cs.drop x.applied).take n).length ≤ cs.length := by
    have := hx.applied
    simp only [List.length_take,List.length_drop]
    omega
  unfold Machine.apply
  dsimp only
  rw [hu]
  have hset : R.Sound cs (g.set r { x with state := s, applied := x.applied + ((g.log.drop x.applied).take n).length }) :=
    h.set ⟨hx.up,by rw [hlen]; exact hle,by rw [hlen,hrange]; exact hs,hx.prepared⟩
  refine ⟨hset.log,hset.replica,hset.files,fun b hb => ?_⟩
  obtain hb | hb := List.mem_append.mp hb
  · exact h.batches b hb
  · rw [List.mem_singleton.mp hb,hlen]
    refine ⟨hle,?_⟩
    rw [show (cs.drop x.applied).take ((cs.drop x.applied).take n).length = (cs.drop x.applied).take n by
      rw [List.length_take,← List.take_eq_take_min]]
    exact ho

private theorem Sound.write (h : R.Sound cs g) (hr : R.InRange cs) {taken : Nat × ν}
    (ht : (g.replica r).prepared = some taken) : R.Sound cs (M.write g r (g.replica r) taken) := by
  have hx := h.replica r
  obtain ⟨i,v⟩ := taken
  obtain ⟨hi,y,hy,rfl⟩ := hx.prepared i v ht
  obtain ⟨file,hs,hf⟩ := R.save (inRange_take hr i) hy
  unfold Machine.write
  dsimp only
  rw [hs]
  have hset : R.Sound cs (g.set r { g.replica r with prepared := none }) :=
    h.set ⟨hx.up,hx.applied,hx.state,fun _ _ he => by cases he⟩
  refine ⟨hset.log,hset.replica,fun p hp => ?_,hset.batches⟩
  obtain hp | hp := List.mem_append.mp hp
  · exact h.files p hp
  · rw [List.mem_singleton.mp hp]
    exact ⟨hi,hf⟩

private theorem Sound.install (h : R.Sound cs g) {file : Nat × φ} (hf : file ∈ g.files) :
    R.Sound cs (M.install g r (g.replica r) file) := by
  have hx := h.replica r
  obtain ⟨hi,hfile⟩ := h.files file hf
  obtain ⟨s,hs,hrep⟩ := R.recover hfile hx.state
  unfold Machine.install
  rw [hs]
  exact h.set ⟨hx.up,hi,hrep,hx.prepared⟩

/-- The value a move commits, if it commits one. -/
def committed (R : Model M γ) : Act κ → List γ
  | .commit c => [R.value c]
  | _ => []

/-- Only commands that are allowed are committed. -/
def Allows (R : Model M γ) (_ : Group σ β α ν φ) : Act κ → Prop
  | .commit c => R.Allowed c
  | _ => True

private theorem Sound.move (h : R.Sound cs g) (hr : R.InRange cs) {a : Act κ} (ha : R.committed a = [])
    (hn : M.next g a = some g') : R.Sound cs g' := by
  cases a with
  | commit c => cases ha
  | apply r n =>
    rw [Machine.next] at hn
    split at hn
    · cases hn
    · cases hn
      exact h.apply hr r n
  | prepare r =>
    simp only [Machine.next] at hn
    split at hn
    · cases hn
    · cases hn
      have hx := h.replica r
      exact h.set ⟨hx.up,hx.applied,hx.state,fun i v he => by cases he; exact ⟨hx.applied,_,hx.state,rfl⟩⟩
  | save r =>
    simp only [Machine.next] at hn
    split at hn
    · cases hn
    · obtain ⟨taken,ht,rfl⟩ := Option.map_eq_some_iff.mp hn
      exact h.write hr ht
  | recover r file =>
    simp only [Machine.next] at hn
    split at hn
    · cases hn
    · obtain ⟨p,hp,rfl⟩ := Option.map_eq_some_iff.mp hn
      exact h.install (List.mem_of_getElem? hp)
  | restart r =>
    cases hn
    exact h.set ⟨rfl,Nat.zero_le _,by rw [List.take_zero]; exact R.init,fun _ _ he => by cases he⟩

private theorem Sound.next (h : R.Sound cs g) {a : Act κ} (ha : R.Allows g a)
    (hr : R.InRange (cs ++ R.committed a)) (hn : M.next g a = some g') : R.Sound (cs ++ R.committed a) g' := by
  cases a with
  | commit c =>
    obtain ⟨e,he,rfl⟩ := Option.map_eq_some_iff.mp hn
    exact h.commit (R.encode ha he)
  | _ =>
    simp only [committed,List.append_nil] at hr ⊢
    exact h.move hr rfl hn

/-- Along every run, everything in the group stands for the values committed so far. -/
theorem sound_exec [∀ g a, Decidable (R.Allows g a)] {acts : List (Act κ)} (h : R.Sound cs g)
    (hr : R.InRange (cs ++ acts.flatMap R.committed)) (he : exec M.next R.Allows g acts = some g') :
    R.Sound (cs ++ acts.flatMap R.committed) g' := by
  induction acts generalizing cs g with
  | nil =>
    cases he
    rw [List.flatMap_nil,List.append_nil]
    exact h
  | cons a acts ih =>
    rw [List.flatMap_cons,← List.append_assoc] at hr ⊢
    obtain ⟨t,ha,ht,he⟩ := exec_cons he
    exact ih (h.next ha (R.mono hr) ht) hr he

/-- What a run committed was allowed. -/
theorem allowed_of_exec [∀ g a, Decidable (R.Allows g a)] {acts : List (Act κ)}
    (he : exec M.next R.Allows g acts = some g') {c : κ} (hc : .commit c ∈ acts) : R.Allowed c := by
  induction acts generalizing g with
  | nil => cases hc
  | cons a acts ih =>
    obtain ⟨t,ha,-,he⟩ := exec_cons he
    cases hc with
    | head => exact ha
    | tail _ hc => exact ih he hc

/-- A run from the start: everything in the group stands for the values committed. -/
theorem sound_run [∀ g a, Decidable (R.Allows g a)] {acts : List (Act κ)}
    (hr : R.InRange (acts.flatMap R.committed)) (he : exec M.next R.Allows M.start acts = some g) :
    R.Sound (acts.flatMap R.committed) g := sound_exec sound_start hr he

end Model
end Zuul.Lib.Replication
