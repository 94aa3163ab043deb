import Zuul.Fsm.Commands
import Zuul.Sessions.Streams

/-! What the end of a replaced stream takes from a client that has reconnected. -/
namespace Zuul.Sessions
open Lib Fsm
variable {cfg : Config} {c : Str} {s s' : Sys} {call : Call} {ch : Choice} {r : Moved} {a : Action}
  {node node₁ node₂ : Nat} {i : Side}

/-- Clients are named, and the opening request of the second stream is answered
before the first stream ends. -/
def Allowed (s : Sys) : Action → Prop
  | .eof .first => (s.streams .second).Answered
  | .spawn job => job.client ≠ []
  | .commit _ cmd => cmd.Named
  | _ => True

instance (s : Sys) (a : Action) : Decidable (Allowed s a) :=
  match a with
  | .eof .first => inferInstanceAs (Decidable (Stream.Answered _))
  | .spawn _ => inferInstanceAs (Decidable (_ ≠ _))
  | .commit _ _ => inferInstanceAs (Decidable (Command.Named _))
  | .eof .second | .request .. | .work .. | .proceed .. | .fail _ | .progress .. => .isTrue trivial

/-- The steps of Manager.Close. -/
def Call.Closes : Call → Prop
  | .close | .listRevokes _ | .revoke _ | .done _ => True
  | _ => False

/-- What holds in every state of a run. -/
structure Good (s : Sys) : Prop where
  shards : ∀ k, Inv (s.shards k)
  closing : ∀ {i call}, (s.streams i).phase = .closing call → call.Closes
  jobs : ∀ job ∈ s.jobs, job.client ≠ []

section Invariant

private theorem CallStep.closes {m : Manager} {shards : Nat → FSM} (h : CallStep c m shards ch call r)
    (hc : call.Closes) :
    r.call.Closes := by
  cases h with
  | close =>
    cases m.get c with
    | none => trivial
    | some p => trivial
  | listRevokes | revoke | revoked => trivial
  | _ => cases hc

private theorem absorb_inv (h : ∀ k, Inv (s.shards k)) (hn : ∀ k cmd, r.commit = some (k,cmd) → cmd.Named) (j : Nat) :
    Inv ((s.absorb node r).shards j) := by
  rw [Sys.absorb]
  split
  · exact h j
  · exact update_inv h (hn _ _ ‹_›) _ j

/-- A change of one handler's phase that enters no close. -/
theorem Good.setStream {st : Stream} (h : Good s) (hc : ∀ call, st.phase = .closing call → call.Closes) :
    Good (s.setStream i st) := by
  refine ⟨h.shards,?_,h.jobs⟩
  intro j call hp
  rw [Sys.setStream_streams] at hp
  split at hp
  · exact hc call hp
  · exact h.closing hp

private theorem setTask_closing {ph : Phase} {n : Nat} {call call' : Call} (h : ph.setTask n call = .closing call') :
    call' = call ∧ ∃ old, ph = .closing old := by
  cases ph with
  | closing old => exact ⟨(Phase.closing.inj h).symm,old,rfl⟩
  | _ => cases h

private theorem work_good {n : Nat} (hc : c ≠ []) (h : Good s) (hw : s.work c i n ch = some s') : Good s' := by
  obtain ⟨call,r,ht,hs,rfl⟩ := Sys.work_inversion hw
  have hg : Good (s.absorb (s.streams i).node r) := by
    refine ⟨absorb_inv h.shards (fun k cmd hr => ?_),?_,?_⟩
    · rw [Command.Named,hs.client hr]
      exact hc
    · rw [Sys.absorb_streams]
      exact h.closing
    · rw [Sys.absorb_jobs]
      exact h.jobs
  refine hg.setStream (fun call' hp => ?_)
  obtain ⟨rfl,old,ho⟩ := setTask_closing hp
  have hcl := h.closing ho
  rw [ho] at ht
  cases ht
  exact hs.closes hcl

private theorem progress_good {n : Nat} (h : Good s) (hp : s.progress n ch = some s') : Good s' := by
  obtain ⟨job,hj,hp⟩ := Option.bind_eq_some_iff.mp hp
  obtain ⟨r,hr,rfl⟩ := Option.map_eq_some_iff.mp hp
  have hn := h.jobs job (List.mem_of_getElem? hj)
  refine ⟨absorb_inv h.shards (fun k cmd hk => ?_),?_,?_⟩
  · rw [Command.Named,(step_call hr).client hk]
    exact hn
  · change ∀ {i call}, ((s.absorb job.node r).streams i).phase = .closing call → call.Closes
    rw [Sys.absorb_streams]
    exact h.closing
  · intro job' hm
    rcases List.mem_or_eq_of_mem_set hm with hm | rfl
    · exact h.jobs job' hm
    · exact hn

private theorem receive_closing {st st' : Stream} {reconnect : Bool} {reqMS : Int64}
    (h : st.receive cfg reconnect reqMS = some st') : ∀ call, st'.phase = .closing call → call.Closes := by
  -- a close is entered only through io.EOF, before its first step
  rw [Stream.receive] at h
  split at h
  all_goals cases h
  all_goals exact fun _ hp => (by cases hp)

private theorem proceed_closing {st st' : Stream} {now : Int64} (h : st.proceed cfg c now = some st') :
    ∀ call, st'.phase = .closing call → call.Closes := by
  rw [Stream.proceed] at h
  split at h
  · cases h
    intro call hp
    rw [Stream.setPhase] at hp
    split at hp
    · cases hp
    · cases hp
  · split at h
    · cases h
      exact fun _ hp => (by cases hp)
    · cases h
  all_goals cases h
  all_goals exact fun _ hp => (by cases hp)

private theorem eof_closing {st st' : Stream} (h : st.eof = some st') :
    ∀ call, st'.phase = .closing call → call.Closes := by
  rw [Stream.eof] at h
  split at h
  all_goals cases h
  · exact fun _ hp => (by cases hp)
  · intro call hp
    cases hp
    trivial

private theorem fail_closing {st st' : Stream} (h : st.fail = some st') :
    ∀ call, st'.phase = .closing call → call.Closes := by
  rw [Stream.fail] at h
  split at h
  all_goals cases h
  all_goals exact fun _ hp => (by cases hp)

private theorem moveStream_good {move : Stream → Option Stream} (h : Good s) (hn : s.moveStream i move = some s')
    (hm : ∀ {st}, move (s.streams i) = some st → ∀ call, st.phase = .closing call → call.Closes) : Good s' := by
  obtain ⟨st,hst,rfl⟩ := Option.map_eq_some_iff.mp hn
  exact h.setStream (hm hst)

private theorem next_good (hc : c ≠ []) (h : Good s) (ha : Allowed s a) (hn : s.next cfg c a = some s') : Good s' := by
  cases a with
  | request i reconnect reqMS =>
    rw [Sys.next] at hn
    exact moveStream_good h hn receive_closing
  | work i n ch => exact work_good hc h hn
  | proceed i now =>
    rw [Sys.next] at hn
    exact moveStream_good h hn proceed_closing
  | eof i =>
    rw [Sys.next] at hn
    exact moveStream_good h hn eof_closing
  | fail i =>
    rw [Sys.next] at hn
    exact moveStream_good h hn fail_closing
  | spawn job =>
    simp only [Sys.next] at hn
    split at hn
    · cases hn
      refine ⟨h.shards,h.closing,fun job' hm => ?_⟩
      rcases List.mem_append.mp hm with hm | hm
      · exact h.jobs job' hm
      · cases List.mem_singleton.mp hm
        exact ha
    · cases hn
  | progress n ch => exact progress_good h hn
  | commit k cmd =>
    cases hn
    exact ⟨update_inv h.shards ha k,h.closing,h.jobs⟩

private theorem init_good (node₁ node₂ : Nat) : Good (init node₁ node₂) := by
  refine ⟨fun _ => inv_new true,?_,nofun⟩
  intro i call hp
  cases i with
  | first => cases hp
  | second => cases hp

private theorem reaches_good (hc : c ≠ []) (h : Reaches (Sys.next cfg c) Allowed (init node₁ node₂) s) : Good s :=
  h.rule (init_good node₁ node₂) (fun _ _ _ => next_good hc)

end Invariant

section EndOfStream

/-- The client lost nothing: its leases, its places in line, and the session that
the second stream renews. -/
structure Keeps (c : Str) (s s' : Sys) : Prop where
  lease : ∀ k ls, (s.shards k).leases.lookup c = some ls → (s'.shards k).leases.lookup c = some ls
  place : ∀ k name, c ∈ (s.shards k).line name → (s'.shards k).locks.lookup name = (s.shards k).locks.lookup name
  session : ∀ p, (s.managers (s.streams .second).node).get c = some p →
    (s'.managers (s.streams .second).node).get c = some p

/-- The close of the first stream meets nothing of the client: not the session the
second stream renews, and no lease in a shard whose revoke commits. -/
def Harmless (c : Str) (s : Sys) (ch : Choice) : Call → Prop
  | .close => (s.streams .first).node ≠ (s.streams .second).node ∨ (s.managers (s.streams .second).node).get c = none
  | .revoke todo => ch.shard ∈ todo → ch.commits = true → (s.shards ch.shard).leases.lookup c = none
  | _ => True

instance (c : Str) (s : Sys) (ch : Choice) (call : Call) : Decidable (Harmless c s ch call) :=
  match call with
  | .close => inferInstanceAs (Decidable (_ ∨ _ = none))
  | .revoke _ => inferInstanceAs (Decidable (_ → _ → _ = none))
  | .open _ | .refresh .. | .recover _ | .attach _ | .record .. | .ensureLease _ | .checkLease .. | .grantLease ..
  | .keepAlive | .listRenewals _ | .stampRenewals .. | .renew .. | .listRevokes _ | .done _ => .isTrue trivial

/-- The step of the first stream's close that an action takes, if it takes one. -/
def Sys.ending (s : Sys) : Action → Option (Choice × Call)
  | .work .first _ ch =>
    match (s.streams .first).phase with
    | .closing call => some (ch,call)
    | _ => none
  | _ => none

def EndKeeps (c : Str) (s : Sys) (a : Action) (s' : Sys) : Prop := s.ending a ≠ none → Keeps c s s'

def EndHarmless (c : Str) (s : Sys) (a : Action) (_ : Sys) : Prop := ∀ x ∈ s.ending a, Harmless c s x.1 x.2

instance (c : Str) (s : Sys) (a : Action) (s' : Sys) : Decidable (EndHarmless c s a s') :=
  inferInstanceAs (Decidable (∀ x ∈ s.ending a, Harmless c s x.1 x.2))

private theorem revoke_absent {f : FSM} (h : f.leases.lookup c = none) : (f.step (.leaseRevoke c)).fsm = f.bump := by
  have hb : f.bump.leases.lookup c = none := h
  rw [FSM.step,FSM.dispatch,FSM.leaseRevoke,hb]

private theorem revoke_present {f : FSM} (h : Inv f) {ls : Lease} (hc : f.leases.lookup c = some ls) :
    (f.step (.leaseRevoke c)).fsm.leases.lookup c = none := by
  have hb : f.bump.leases.lookup c = some ls := hc
  rw [FSM.step,FSM.dispatch,FSM.leaseRevoke,hb]
  exact (dropLease_spec h.bump hb).gone

private theorem keeps_setPhase {ph : Phase} : Keeps c s (s'.setPhase i ph) ↔ Keeps c s s' :=
  ⟨fun h => ⟨h.lease,h.place,h.session⟩,fun h => ⟨h.lease,h.place,h.session⟩⟩

private theorem keeps_of_same (hs : s'.shards = s.shards)
    (hm : ∀ p, (s.managers (s.streams .second).node).get c = some p →
      (s'.managers (s.streams .second).node).get c = some p) : Keeps c s s' := by
  refine ⟨?_,?_,hm⟩
  · rw [hs]
    exact fun _ _ h => h
  · rw [hs]
    exact fun _ _ _ => rfl

private theorem absorb_keeps (hr : r.commit = none) (hm : r.manager = s.managers node) :
    Keeps c s (s.absorb node r) := by
  refine keeps_of_same (Sys.absorb_idle node hr) (fun p hp => ?_)
  rw [Sys.absorb_managers]
  split
  · rename_i hn
    rw [hm,← hn]
    exact hp
  · exact hp

private theorem close_keeps_iff (hr : r.commit = none)
    (hm : r.manager = (s.managers (s.streams .first).node).remove c) :
    Keeps c s (s.absorb (s.streams .first).node r) ↔ Harmless c s ch .close := by
  -- the removal from the map is seen by a second stream on the same node
  by_cases hn : (s.streams .second).node = (s.streams .first).node
  · have hgone : ((s.absorb (s.streams .first).node r).managers (s.streams .second).node).get c = none := by
      rw [Sys.absorb_managers,if_pos hn,hm]
      exact AList.lookup_erase _ _
    constructor
    · intro h
      right
      cases hp : (s.managers (s.streams .second).node).get c with
      | none => rfl
      | some p => cases hgone.symm.trans (h.session p hp)
    · rintro (h | h)
      · exact (h hn.symm).elim
      · exact keeps_of_same (Sys.absorb_idle _ hr) (fun p hp => by cases h.symm.trans hp)
  · refine ⟨fun _ => .inl (Ne.symm hn),fun _ => keeps_of_same (Sys.absorb_idle _ hr) (fun p hp => ?_)⟩
    rw [Sys.absorb_managers,if_neg hn]
    exact hp

private theorem revoke_keeps_iff (hg : Good s) {k : Nat} (hr : r.commit = some (k,.leaseRevoke c))
    (hm : r.manager = s.managers node) : Keeps c s (s.absorb node r) ↔ (s.shards k).leases.lookup c = none := by
  -- without the lease nothing but the revision changes
  have hs : ∀ j, (s.absorb node r).shards j =
      if j = k then ((s.shards k).step (.leaseRevoke c)).fsm else s.shards j := by
    intro j
    rw [Sys.absorb,hr]
    exact Sys.apply_shards ..
  constructor
  · intro h
    cases hl : (s.shards k).leases.lookup c with
    | none => rfl
    | some ls =>
      have hk := h.lease k ls hl
      rw [hs,if_pos rfl,revoke_present (hg.shards k) hl] at hk
      cases hk
  · intro hl
    have hj : ∀ j, ((s.absorb node r).shards j).leases = (s.shards j).leases ∧
        ((s.absorb node r).shards j).locks = (s.shards j).locks := by
      intro j
      rw [hs]
      split
      · subst j
        rw [revoke_absent hl]
        exact ⟨rfl,rfl⟩
      · exact ⟨rfl,rfl⟩
    refine ⟨fun j ls h => ?_,fun j name _ => ?_,fun p hp => ?_⟩
    · rw [(hj j).1]
      exact h
    · rw [(hj j).2]
    · have hidle : Keeps c s (s.absorb node { r with commit := none }) := absorb_keeps rfl hm
      have hsame := hidle.session p hp
      rw [Sys.absorb_managers] at hsame ⊢
      exact hsame

private theorem work_keeps_iff {n : Nat} (hg : Good s) (hp : (s.streams .first).phase = .closing call)
    (hn : s.work c .first n ch = some s') : Keeps c s s' ↔ Harmless c s ch call := by
  have hcl := hg.closing hp
  obtain ⟨call',r,ht,hs,rfl⟩ := Sys.work_inversion hn
  rw [hp] at ht
  cases ht
  rw [keeps_setPhase]
  cases hs with
  | close => exact close_keeps_iff rfl rfl
  | listRevokes hl => exact iff_of_true (absorb_keeps rfl rfl) trivial
  | revoked => exact iff_of_true (absorb_keeps rfl rfl) nofun
  | @revoke todo ht =>
    by_cases hcm : ch.commits = true
    · rw [revoke_keeps_iff hg (if_pos hcm) rfl]
      exact ⟨fun h _ _ => h,fun h => h ht hcm⟩
    · exact iff_of_true (absorb_keeps (if_neg hcm) rfl) (fun _ h => (hcm h).elim)
  | _ => cases hcl

private theorem end_keeps_iff (hg : Good s) (hn : s.next cfg c a = some s') :
    EndKeeps c s a s' ↔ EndHarmless c s a s' := by
  rw [EndKeeps,EndHarmless]
  cases he : s.ending a with
  | none => exact iff_of_true (fun h => (h rfl).elim) nofun
  | some x =>
    unfold Sys.ending at he
    split at he
    · split at he
      · rename_i hp
        cases he
        rw [work_keeps_iff hg hp hn]
        exact ⟨fun h y hy => Option.mem_some_iff.mp hy ▸ h nofun,fun h _ => h _ rfl⟩
      · cases he
    · cases he

/-- In every run of two streams of one client, the end of the first one leaves the
client's leases, places and session alone exactly if each step of its close is
harmless: the streams have different managers, and no revoke of it commits in a
shard where the client has a lease. -/
theorem stream_end_keeps_iff (cfg : Config) (node₁ node₂ : Nat) (hc : c ≠ []) (as : List Action)
    (hrun : (exec (Sys.next cfg c) Allowed (init node₁ node₂) as).isSome) :
    Along (Sys.next cfg c) (EndKeeps c) (init node₁ node₂) as ↔
      Along (Sys.next cfg c) (EndHarmless c) (init node₁ node₂) as := by
  obtain ⟨s,hs⟩ := Option.isSome_iff_exists.mp hrun
  exact along_congr (fun h hn => end_keeps_iff (reaches_good hc h) hn) .init hs

/-- The client c holds nothing through its first stream, opens the second one on
another node, and takes the lock k there before the first stream ends. -/
theorem idle_stream_end_keeps :
    let next := Sys.next { shards := [1] } (str "c")
    let as : List Action :=
      [.request .first false 5000,.work .first 0 {},.work .first 0 {},.proceed .first 0,.proceed .first 0,
        .request .second true 5000,.work .second 0 {},.work .second 0 {},.proceed .second 0,
        .work .second 0 {},.proceed .second 0,.proceed .second 0,
        .spawn ⟨2,str "c",.ensureLease 1⟩,.progress 0 {},.progress 0 {},.progress 0 {},
        .commit 1 (.acquireLock (str "k") (str "c") false),
        .eof .first,.work .first 0 {},.work .first 0 {},.work .first 0 {},.proceed .first 0]
    Along next (EndKeeps (str "c")) (init 1 2) as ∧ ∃ s ∈ exec next Allowed (init 1 2) as,
      (s.streams .first).phase = .returned false ∧ (s.shards 1).hold (str "k") = some (str "c",1) ∧
      (s.managers 2).get (str "c") = some 0 := by
  intro next as
  exact ⟨(stream_end_keeps_iff { shards := [1] } 1 2 (by decide) as (by decide +kernel)).mpr (by decide +kernel),
    by decide +kernel⟩

/-- The client c opens its first stream on a node, takes the lock k in shard 1 there,
and opens the second stream. -/
def reconnected (node : Nat) : List Action :=
  [.request .first false 5000,.work .first 0 {},.work .first 0 {},.proceed .first 0,.proceed .first 0,
    .spawn ⟨node,str "c",.ensureLease 1⟩,.progress 0 {},.progress 0 {},.progress 0 {},
    .commit 1 (.acquireLock (str "k") (str "c") false),
    .request .second true 5000,.work .second 0 {},.work .second 0 {},.proceed .second 0,
    .work .second 0 {},.work .second 0 {},.work .second 0 {},.proceed .second 0,.proceed .second 0]

/-- Recv of the first stream returns io.EOF, and Close runs to its end. -/
def firstEnds : List Action := [.eof .first,.work .first 0 {},.work .first 0 {},.work .first 0 { shard := 1 }]

/-- The lock is lost with the lease, on one node and on two. On one node the
session goes as well, and the next heartbeat of the second stream fails. -/
theorem old_stream_revokes_lock :
    let next := Sys.next { shards := [1] } (str "c")
    (∃ s ∈ exec next Allowed (init 1 1) (reconnected 1), ∃ s' ∈ exec next Allowed s firstEnds,
      (s.shards 1).hold (str "k") = some (str "c",1) ∧ (s.managers 1).get (str "c") = some 0 ∧
      (s'.shards 1).hold (str "k") = none ∧ (s'.managers 1).get (str "c") = none ∧
      ∃ s'' ∈ exec next Allowed s' [.request .second true 5000,.work .second 0 {},.proceed .second 0],
        (s''.streams .second).phase = .returned true) ∧
    ∃ s ∈ exec next Allowed (init 1 2) (reconnected 1), ∃ s' ∈ exec next Allowed s firstEnds,
      (s.shards 1).hold (str "k") = some (str "c",1) ∧ (s'.shards 1).hold (str "k") = none ∧
      (s'.managers 2).get (str "c") = some 0 := by
  decide +kernel

end EndOfStream

end Zuul.Sessions
