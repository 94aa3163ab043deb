import Zuul.Fsm.Determinism
import Zuul.Fsm.Events
import Zuul.Fsm.SnapshotCodec
import Zuul.Lib.Replication
import Zuul.Raft.Forward

/-! The replicas of a lock shard. Commands, answers and snapshots are bytes on the way,
and still every replica is what one copy of the state machine would be. -/
namespace Zuul.Raft
open Lib Wire Fsm Replication
variable {notifier : Bool} {f : FSM} {cmds log : List Command}

/-- What an entry is answered with: the number of the outcome and the result's bytes. -/
structure SmResult where
  value : UInt64
  data : Str

def answer (res : CommandResult) : Option SmResult := res.marshal.map (fun data => ⟨res.outcome.number.toUInt64,data⟩)

/-- Update of the state machine adapter, on entries that follow the first ones. -/
def updateEntries (f : FSM) (first : Nat) (entries : List Str) : Option (FSM × List SmResult × List Event) :=
  let u := update f (entries.mapIdx (fun k cmd => ⟨first + k + 1,cmd⟩))
  match u.results with
  | .error _ => none
  | .ok rs => (rs.mapM answer).map (fun answers => (u.fsm,answers,u.events))

/-- RecoverFromSnapshot of the state machine adapter. -/
def recoverFromSnapshot (f : FSM) (file : Str) : Option FSM :=
  match unmarshalSnapshot file with
  | .error _ => none
  | .ok snap => some (f.restore snap).1

/-- A lock shard: the state machine behind its adapter. -/
def lockShard (notifier : Bool) : Machine FSM Command Str (List SmResult × List Event) Snapshot Str where
  init := new notifier
  encode := Command.marshal
  update := updateEntries
  prepare := FSM.snapshot
  save := Snapshot.marshal
  recover := recoverFromSnapshot

section OneCopy

private theorem runResults_append (f : FSM) (a b : List Command) :
    f.runResults (a ++ b) = f.runResults a ++ (f.run a).runResults b := by
  induction a generalizing f with
  | nil => rfl
  | cons cmd a ih => rw [List.cons_append,FSM.runResults,FSM.runResults,ih,List.cons_append,FSM.run_cons]

/-- Decoded entries are applied one after the other. -/
theorem update_run {es : List Entry} (h : List.Forall₂ (fun e cmd => unmarshal e.cmd = .ok (.set cmd)) es cmds) :
    update f es = ⟨f.run cmds,f.runEvents cmds,.ok (f.runResults cmds)⟩ := by
  induction h generalizing f with
  | nil => rfl
  | cons he _ ih =>
    simp only [update,he,FSM.apply,ih]
    rfl

private theorem run_counters (h : Inv f) (hn : ∀ cmd ∈ cmds, cmd.Named) :
    f.seq ≤ (f.run cmds).seq ∧ f.revision ≤ (f.run cmds).revision := by
  induction cmds generalizing f with
  | nil => exact ⟨Nat.le_refl _,Nat.le_refl _⟩
  | cons cmd cmds ih =>
    rw [List.forall_mem_cons] at hn
    have hs := step_seq h hn.1
    have hr := (step_revision h hn.1).1
    obtain ⟨hs',hr'⟩ := ih (step_inv h hn.1) hn.2
    rw [FSM.run_cons]
    omega

/-- The counters fit a uint64 and what is marshalled an int, all along the log. -/
structure InBounds (notifier : Bool) (cmds : List Command) : Prop where
  seq : ((new notifier).run cmds).seq < UInt64.size
  revision : ((new notifier).run cmds).revision < UInt64.size
  results : ∀ r ∈ (new notifier).runResults cmds, r.marshaller.size ≤ maxInt
  snapshots : ∀ i ≤ cmds.length, ((new notifier).run (cmds.take i)).snapshot.marshaller.size ≤ maxInt

/-- What a log of proposed commands holds once it is decoded, in bounds. -/
structure Log (notifier : Bool) (cmds : List Command) : Prop where
  wire : ∀ cmd ∈ cmds, cmd.FromWire
  bounds : InBounds notifier cmds

namespace Log

private theorem named (h : Log notifier cmds) : ∀ cmd ∈ cmds, cmd.Named := fun cmd hc => (h.wire cmd hc).1

private theorem inv (h : Log notifier cmds) : Inv ((new notifier).run cmds) := run_inv (inv_new notifier) h.named

private theorem initial {log : List Command} (h : Log notifier (cmds ++ log)) : Log notifier cmds := by
  have hwire : ∀ cmd ∈ cmds, cmd.FromWire := fun cmd hc => h.wire cmd (List.mem_append_left _ hc)
  have hcount := run_counters (run_inv (inv_new notifier) (fun cmd hc => (hwire cmd hc).1))
    (fun cmd hc => h.named cmd (List.mem_append_right cmds hc))
  rw [← FSM.run_append] at hcount
  refine ⟨hwire,Nat.lt_of_le_of_lt hcount.1 h.bounds.seq,Nat.lt_of_le_of_lt hcount.2 h.bounds.revision,
    fun r hr => ?_,fun i hi => ?_⟩
  · refine h.bounds.results r ?_
    rw [runResults_append]
    exact List.mem_append_left _ hr
  · have := h.bounds.snapshots i (by rw [List.length_append]; omega)
    rwa [List.take_append_of_le_length hi] at this

private theorem result_counted (h : Inv f) (hn : ∀ cmd ∈ cmds, cmd.Named) {r : CommandResult}
    (hr : r ∈ f.runResults cmds) : r.revision ≤ (f.run cmds).revision ∧ r.fencingToken ≤ (f.run cmds).seq ∧
      r.queuePosition < UInt32.size := by
  induction cmds generalizing f with
  | nil => cases hr
  | cons cmd cmds ih =>
    rw [List.forall_mem_cons] at hn
    have hi := step_inv h hn.1
    rw [FSM.run_cons]
    cases hr with
    | head =>
      have hc := step_counted h cmd
      have hle := run_counters hi hn.2
      exact ⟨by rw [hc.revision]; exact hle.2,Nat.le_trans hc.token hle.1,hc.position⟩
    | tail _ hr => exact ih hi hn.2 hr

private theorem fits (h : Log notifier cmds) {r : CommandResult} (hr : r ∈ (new notifier).runResults cmds) :
    r.Fits := by
  obtain ⟨hrev,htok,hpos⟩ := result_counted (inv_new notifier) h.named hr
  exact ⟨Nat.lt_of_le_of_lt hrev h.bounds.revision,Nat.lt_of_le_of_lt htok h.bounds.seq,hpos,h.bounds.results r hr⟩

end Log

/-- What is answered element by element can be read back element by element. -/
theorem mapM_read {α β γ : Type} {f : α → Option β} {read : β → γ} {g : α → γ} {xs : List α}
    (h : ∀ x ∈ xs, ∃ y, f x = some y ∧ read y = g x) : ∃ ys, xs.mapM f = some ys ∧ ys.map read = xs.map g := by
  induction xs with
  | nil => exact ⟨[],rfl,rfl⟩
  | cons x xs ih =>
    rw [List.forall_mem_cons] at h
    obtain ⟨⟨y,hy,hr⟩,hxs⟩ := h
    obtain ⟨ys,hys,hrs⟩ := ih hxs
    refine ⟨y :: ys,?_,by rw [List.map_cons,List.map_cons,hr,hrs]⟩
    rw [List.mapM_cons,hy,hys]
    rfl

private theorem answer_decodes {r : CommandResult} (h : r.Fits) :
    ∃ a, answer r = some a ∧ (a.value,unmarshalResult a.data) = (r.outcome.number.toUInt64,.ok r.message) := by
  obtain ⟨data,hm,-,hu⟩ := unmarshalResult_marshal h
  exact ⟨⟨r.outcome.number.toUInt64,data⟩,by rw [answer,hm]; rfl,by rw [hu]⟩

end OneCopy

section Representation

private theorem decoded_fromWire {cmd : Command} (h : cmd.Named) : cmd.decoded.FromWire := by
  cases cmd with
  | campaign name c value => exact ⟨h,decodeBytes_clean value⟩
  | proclaim name c token value => exact ⟨h,decodeBytes_clean value⟩
  | _ => exact ⟨h,by simp [Command.decoded,Command.Decoded,Command.value]⟩

/-- A state machine that is, in every lookup, what one copy is after these commands. -/
structure Holds (notifier : Bool) (f : FSM) (cmds : List Command) : Prop where
  same : f.Same ((new notifier).run cmds)
  notifier : f.notifier = notifier

private theorem Log.notifier_eq (h : Log notifier cmds) : ((new notifier).run cmds).notifier = notifier :=
  run_notifier (inv_new notifier) h.named

/-- A file that decodes to the snapshot of one copy after these commands. -/
structure Saved (notifier : Bool) (file : Str) (cmds : List Command) : Prop where
  log : Log notifier cmds
  snapshot : unmarshalSnapshot file = .ok ((new notifier).run cmds).snapshot.wire

/-- What one copy answers and publishes on the commands ds, after the commands cs. -/
structure Answered (notifier : Bool) (cs ds : List Command) (left : List SmResult × List Event) : Prop where
  results : left.1.map (fun a => (a.value,unmarshalResult a.data)) =
    (((new notifier).run cs).runResults ds).map (fun r => (r.outcome.number.toUInt64,.ok r.message))
  events : left.2 = ((new notifier).run cs).runEvents ds

/-- Entries are numbered without a change to what they hold. -/
theorem numbered_entries {κ : Type} {P : Str → κ → Prop} {es : List Str} {cs : List κ} (h : List.Forall₂ P es cs)
    (entry : Nat → Str → Entry) (he : ∀ k e, (entry k e).cmd = e) :
    List.Forall₂ (fun (e : Entry) c => P e.cmd c) (es.mapIdx entry) cs := by
  induction h generalizing entry with
  | nil => exact .nil
  | cons hp _ ih =>
    rw [List.mapIdx_cons]
    exact .cons (by rwa [he]) (ih _ (fun k e => he (k + 1) e))

private theorem updateEntries_holds {f : FSM} {cs ds : List Command} {es : List Str} (first : Nat)
    (hl : Log notifier (cs ++ ds)) (hf : Holds notifier f cs)
    (he : List.Forall₂ (fun e cmd => unmarshal e = .ok (.set cmd)) es ds) :
    ∃ g left, updateEntries f first es = some (g,left) ∧ Holds notifier g (cs ++ ds) ∧
      Answered notifier cs ds left := by
  have hes : List.Forall₂ (fun (e : Entry) cmd => unmarshal e.cmd = .ok (.set cmd))
      (es.mapIdx (fun k cmd => ⟨first + k + 1,cmd⟩)) ds := numbered_entries he _ (fun _ _ => rfl)
  have hsame := run_same hf.same ds
  have hrs : f.runResults ds = ((new notifier).run cs).runResults ds := runResults_same hf.same ds
  have hevs : f.runEvents ds = ((new notifier).run cs).runEvents ds := runEvents_same hf.same ds
  rw [← FSM.run_append] at hsame
  obtain ⟨answers,ha,hd⟩ := mapM_read (fun r hr => answer_decodes (hl.fits (r := r) (by
    rw [runResults_append]
    exact List.mem_append_right _ hr)))
  refine ⟨f.run ds,(answers,f.runEvents ds),?_,⟨hsame,hsame.notifier.trans hl.notifier_eq⟩,hd,hevs⟩
  unfold updateEntries
  rw [update_run hes]
  dsimp only
  rw [hrs,ha]
  rfl

def lockShardModel (notifier : Bool) : Model (lockShard notifier) Command where
  value := Command.decoded
  Allowed cmd := cmd.Named ∧ cmd.Fits
  InRange := Log notifier
  Enc e cmd := unmarshal e = .ok (.set cmd)
  Rep := Holds notifier
  File := Saved notifier
  Out := Answered notifier
  mono := Log.initial
  init := ⟨.refl _,rfl⟩
  encode {cmd e} ha he := by
    obtain ⟨bs,hm,-,hu⟩ := unmarshal_marshal ha.2
    obtain rfl : bs = e := Option.some.inj (hm.symm.trans he)
    exact hu
  update first hl hf he := updateEntries_holds first hl hf he
  save {f cmds} hl hf := by
    obtain ⟨bs,hm,-,hu⟩ := unmarshalSnapshot_marshal (snapshot_counted hl.inv hl.bounds.seq hl.bounds.revision)
      (by
        have := hl.bounds.snapshots cmds.length (Nat.le_refl _)
        rwa [List.take_length] at this)
    refine ⟨bs,?_,hl,hu⟩
    change f.snapshot.marshal = some bs
    rw [snapshot_same hf.same]
    exact hm
  recover {file cmds g ds} hs hg := by
    have hr : Reachable Command.FromWire ((new notifier).run cmds) := (Reachable.start notifier).run hs.log.wire
    have ht := (restore_indistinguishable hr g).1
    rw [hg.notifier.trans hs.log.notifier_eq.symm] at ht
    refine ⟨_,?_,ht,ht.notifier.trans hs.log.notifier_eq⟩
    change recoverFromSnapshot g file = _
    rw [recoverFromSnapshot,hs.snapshot]

instance (cmd : Command) : Decidable cmd.Fits :=
  decidable_of_iff (cmd.token < UInt64.size ∧ cmd.marshaller.size ≤ maxInt) ⟨fun h => ⟨h.1,h.2⟩,fun h => ⟨h.1,h.2⟩⟩

instance (g : Group FSM Str (List SmResult × List Event) Snapshot Str) :
    (a : Act Command) → Decidable ((lockShardModel notifier).Allows g a)
  | .commit cmd => inferInstanceAs (Decidable (cmd.Named ∧ cmd.Fits))
  | .apply .. | .prepare _ | .save _ | .recover .. | .restart _ => .isTrue trivial

end Representation

/-- The commands committed by a run, as they are decoded. -/
def logged (acts : List (Act Command)) : List Command :=
  acts.filterMap (fun
    | .commit cmd => some cmd.decoded
    | _ => none)

private theorem logged_eq (acts : List (Act Command)) :
    acts.flatMap (lockShardModel notifier).committed = logged acts := by
  induction acts with
  | nil => rfl
  | cons a acts ih =>
    rw [List.flatMap_cons,ih]
    cases a <;> rfl

/-- Where only marshalled commands are committed, with a client named and in memory, and
the counters and sizes stay in bounds: however the replicas of a shard apply batches, take
snapshots, install them and restart, none ever fails, and each is, in every lookup and
query, one copy of the state machine after the commands committed first. Whatever a batch
answered and published, anywhere, is what that copy answers and publishes. -/
theorem replicas_refine_log {acts : List (Act Command)} {g : Group FSM Str (List SmResult × List Event) Snapshot Str}
    (he : exec (lockShard notifier).next (lockShardModel notifier).Allows (lockShard notifier).start acts = some g)
    (hb : InBounds notifier (logged acts)) :
    (∀ r, let x := g.replica r
      let one := (new notifier).run ((logged acts).take x.applied)
      x.down = false ∧ x.applied ≤ (logged acts).length ∧ x.state.Same one ∧ ∀ q, x.state.query q = one.query q) ∧
    ∀ b ∈ g.batches, let one := (new notifier).run ((logged acts).take b.first)
      let cmds := ((logged acts).drop b.first).take b.count
      b.first + b.count ≤ (logged acts).length ∧ b.left.2 = one.runEvents cmds ∧
      b.left.1.map (fun a => (a.value,unmarshalResult a.data)) =
        (one.runResults cmds).map (fun r => (r.outcome.number.toUInt64,.ok r.message)) := by
  have hw : ∀ cmd ∈ logged acts, cmd.FromWire := by
    intro cmd hc
    obtain ⟨a,ha,hm⟩ := List.mem_filterMap.mp hc
    cases a with
    | commit c =>
      cases hm
      exact decoded_fromWire (Model.allowed_of_exec he ha).1
    | _ => cases hm
  have hs := Model.sound_run (by rw [logged_eq]; exact ⟨hw,hb⟩) he
  rw [logged_eq] at hs
  refine ⟨fun r => ?_,fun b hm => ?_⟩
  · have hx := hs.replica r
    exact ⟨hx.up,hx.applied,hx.state.same,query_same hx.state.same⟩
  · obtain ⟨hle,ho⟩ := hs.batches b hm
    exact ⟨hle,ho.events,ho.results⟩

/-- A snapshot written while the log goes on, installed on another replica, which then
hands the key over itself. -/
theorem handover_after_catch_up :
    let acts : List (Act Command) := [.commit (.leaseGrant (str "a") 5 0),.commit (.leaseGrant (str "b") 5 0),
      .commit (.campaign (str "k") (str "a") (some [1])),.apply 0 2,.commit (.campaign (str "k") (str "b") (some [])),
      .apply 0 7,.prepare 0,.commit (.leaseRevoke (str "a")),.apply 0 1,.save 0,.recover 1 0,.apply 1 1]
    ∃ g, exec (lockShard true).next (lockShardModel true).Allows (lockShard true).start acts = some g ∧
      (g.replica 1).applied = 5 ∧ g.batches.length = 4 ∧ (g.replica 1).state.hold (str "k") = some (str "b",3) ∧
      (g.replica 1).state.Same ((new true).run (logged acts)) := by
  intro acts
  have hsome : (exec (lockShard true).next (lockShardModel true).Allows (lockShard true).start acts).map
      (fun g => ((g.replica 1).applied,g.batches.length,(g.replica 1).state.hold (str "k"))) =
        some (5,4,some (str "b",3)) := by decide +kernel
  obtain ⟨g,he,hg⟩ := Option.map_eq_some_iff.mp hsome
  obtain ⟨ha,hl,hh⟩ : (g.replica 1).applied = 5 ∧ g.batches.length = 4 ∧
    (g.replica 1).state.hold (str "k") = some (str "b",3) := by simpa using hg
  have hb : InBounds true (logged acts) := ⟨by decide +kernel,by decide +kernel,by decide +kernel,by decide +kernel⟩
  have hx := ((replicas_refine_log he hb).1 1).2.2.1
  rw [ha] at hx
  exact ⟨g,he,ha,hl,hh,hx⟩

end Zuul.Raft
