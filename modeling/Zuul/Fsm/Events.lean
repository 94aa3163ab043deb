import Zuul.Fsm.Reachable

/-! The published events as a change log of who owns which key. -/
namespace Zuul.Fsm
open Lib
variable {f : FSM} {k : Str} {lk : Lock} {v : Bytes} {cmd : Command}

/-- Holder, token and value an event reports; an empty holder means a free key. -/
def Event.owner (e : Event) : Option (Str × Nat × Bytes) :=
  if e.holder = [] then none else some (e.holder,e.token,e.value)

/-- The ownership record in the answer to a status query. -/
def Status.owner (st : Status) : Option (Str × Nat × Bytes) :=
  if st.held then some (st.holder,st.token,st.value) else none

/-- The one event that describes the key as it stands. -/
def FSM.report (f : FSM) (k : Str) : Event :=
  match f.locks.lookup k with
  | none => ⟨k,[],0,none,f.revision⟩
  | some lk => ⟨k,lk.holder,lk.token,lk.value,f.revision⟩

private theorem announce_eq (hn : f.notifier = true) (k : Str) : f.announce k = [f.report k] := by
  rw [FSM.announce,FSM.report]
  cases f.locks.lookup k with
  | none => simp only [FSM.emit,hn,if_true]
  | some lk => simp only [FSM.emit,hn,if_true]

/-- A status shows the owner of the key. -/
theorem status_owner (h : Inv f) (k : Str) : (f.status k).owner = f.owner k := by
  cases hk : f.locks.lookup k with
  | none => simp [Status.owner,FSM.status,FSM.owner,hk]
  | some lk => simp [Status.owner,FSM.status,FSM.owner,hk,h.holder_ne hk]

/-- A status that says held names the current hold. -/
theorem status_hold (hs : (f.status k).held = true) : f.hold k = some ((f.status k).holder,(f.status k).token) := by
  cases hk : f.locks.lookup k with
  | none => simp [FSM.status,hk] at hs
  | some lk =>
    rw [FSM.hold_of_lookup hk]
    by_cases hh : lk.holder = []
    · simp [FSM.status,hk,hh] at hs
    · simp [FSM.status,hk,hh]

/-- An event shows the owner of its key. -/
theorem report_owner (h : Inv f) (k : Str) : (f.report k).owner = f.owner k := by
  cases hk : f.locks.lookup k with
  | none => simp [Event.owner,FSM.report,FSM.owner,hk]
  | some lk => simp [Event.owner,FSM.report,FSM.owner,hk,h.holder_ne hk]

/-- An event that describes its key in the given state. -/
structure Event.Describes (e : Event) (f : FSM) : Prop where
  revision : e.revision = f.revision
  absent : f.locks.lookup e.key = none ↔ e.holder = [] ∧ e.token = 0 ∧ e.value = none
  present : ∀ {lk}, f.locks.lookup e.key = some lk → e.holder = lk.holder ∧ e.token = lk.token ∧ e.value = lk.value

theorem report_key (f : FSM) (k : Str) : (f.report k).key = k := by
  rw [FSM.report]
  split <;> rfl

/-- What is published describes the state it is published from. -/
theorem report_describes (h : Inv f) (k : Str) : (f.report k).Describes f := by
  cases hk : f.locks.lookup k with
  | none =>
    have he : f.report k = ⟨k,[],0,none,f.revision⟩ := by rw [FSM.report,hk]
    rw [he]
    refine ⟨rfl,⟨fun _ => ⟨rfl,rfl,rfl⟩,fun _ => hk⟩,fun hl => ?_⟩
    cases hk.symm.trans hl
  | some lk =>
    have he : f.report k = ⟨k,lk.holder,lk.token,lk.value,f.revision⟩ := by rw [FSM.report,hk]
    rw [he]
    refine ⟨rfl,⟨fun hl => ?_,fun hz => (h.holder_ne hk hz.1).elim⟩,fun hl => ?_⟩
    · cases hk.symm.trans hl
    · cases hk.symm.trans hl
      exact ⟨rfl,rfl,rfl⟩

/-- Owners after some events on top of the owners before them. -/
def replay (σ : Str → Option (Str × Nat × Bytes)) (evs : List Event) : Str → Option (Str × Nat × Bytes) :=
  ChangeLog.replay Event.key Event.owner σ evs

/-- A turn that is not announced changes the queue at most. -/
theorem turn_owner {lo hi : Nat} {o o' : Option Lock} (ht : Turn lo hi v k o o' false) :
    o'.map (fun lk => (lk.holder,lk.token,lk.value)) = o.map (fun lk => (lk.holder,lk.token,lk.value)) := by
  cases ht with
  | same => rfl
  | joined => rfl
  | left => rfl

/-- Every answer carries the revision of the state it leaves. -/
theorem step_result_revision (f : FSM) (cmd : Command) : (f.step cmd).result.revision = (f.step cmd).fsm.revision := by
  have hacq : ∀ (g : FSM) k c v b, (g.acquire k c v b).result.revision = (g.acquire k c v b).fsm.revision := by
    intro g k c v b
    simp only [FSM.acquire]
    repeat' split
    all_goals rfl
  have hrel : ∀ (g : FSM) k c t, (g.release k c t).result.revision = (g.release k c t).fsm.revision := by
    intro g k c t
    simp only [FSM.release]
    repeat' split
    all_goals rfl
  rw [FSM.step]
  cases cmd with
  | acquireLock | campaign => exact hacq ..
  | releaseLock | resign => exact hrel ..
  | cancelWait =>
    simp only [FSM.dispatch,FSM.cancelWait]
    repeat' split
    all_goals rfl
  | proclaim =>
    simp only [FSM.dispatch,FSM.proclaim]
    repeat' split
    all_goals rfl
  | leaseGrant => rfl
  | leaseKeepAlive =>
    simp only [FSM.dispatch,FSM.leaseKeepAlive]
    split <;> rfl
  | leaseRevoke =>
    simp only [FSM.dispatch,FSM.leaseRevoke]
    split <;> rfl
  | leaseExpire =>
    simp only [FSM.dispatch,FSM.leaseExpire]
    repeat' split
    all_goals rfl

/-- At each key a command either publishes nothing and leaves the owner, or
publishes the one event that describes the key afterwards. -/
theorem step_events (h : Inv f) (hn : f.notifier = true) (hc : cmd.Named) (k : Str) :
    (about k (f.step cmd).events = [] ∧ (f.step cmd).fsm.owner k = f.owner k) ∨
    about k (f.step cmd).events = [(f.step cmd).fsm.report k] := by
  obtain ⟨told,ht,he⟩ := step_turn h hc k
  cases told with
  | false => exact .inl ⟨he,turn_owner ht⟩
  | true => exact .inr (he.trans (announce_eq ((step_revision h hc).2.trans hn) k))

/-- No command turns the notifications on or off. -/
theorem run_notifier (h : Inv f) {log : List Command} (hl : ∀ cmd ∈ log, cmd.Named) :
    (f.run log).notifier = f.notifier := by
  induction log generalizing f with
  | nil => rfl
  | cons cmd log ih =>
    have hc := hl cmd List.mem_cons_self
    exact (ih (step_inv h hc) (fun a ha => hl a (List.mem_cons_of_mem _ ha))).trans (step_revision h hc).2

private theorem replay_step (h : Inv f) (hn : f.notifier = true) (hc : cmd.Named) :
    replay f.owner (f.step cmd).events = (f.step cmd).fsm.owner := by
  funext k
  have hl : replay f.owner (f.step cmd).events k =
      ((about k (f.step cmd).events).getLast?.map Event.owner).getD (f.owner k) := ChangeLog.replay_apply ..
  rcases step_events h hn hc k with ⟨he,ho⟩ | he
  · rw [hl,he,ho]; rfl
  · rw [hl,he,List.getLast?_singleton,Option.map_some,Option.getD_some,report_owner (step_inv h hc)]

/-- Replaying the events of a log on top of the owners before it gives the owners after it. -/
theorem replay_run (h : Inv f) (hn : f.notifier = true) {log : List Command} (hl : ∀ cmd ∈ log, cmd.Named) :
    replay f.owner (f.runEvents log) = (f.run log).owner := by
  induction log generalizing f with
  | nil => rfl
  | cons cmd log ih =>
    have hc := hl cmd List.mem_cons_self
    have ha : replay f.owner (f.runEvents (cmd :: log)) =
        replay (replay f.owner (f.step cmd).events) ((f.step cmd).fsm.runEvents log) := ChangeLog.replay_append ..
    rw [ha,replay_step h hn hc]
    exact ih (step_inv h hc) ((step_revision h hc).2.trans hn) (fun a ha => hl a (List.mem_cons_of_mem _ ha))

/-- The events of a command are its changes: at most one a key, each with the
key's record and revision after the command, and none missing. So the events of
a whole log, replayed over nothing, give the owners that status queries report. -/
theorem events_are_change_log :
    (∀ f : FSM, Reachable Command.Named f → f.notifier = true → ∀ cmd : Command, cmd.Named →
      let out := f.step cmd
      (∀ k, (about k out.events).length ≤ 1) ∧
      (∀ e ∈ out.events, e.Describes out.fsm ∧ e.revision = out.result.revision) ∧
      ∀ k, out.fsm.owner k ≠ f.owner k → ∃ e ∈ out.events, e.key = k) ∧
    ∀ log : List Command, (∀ cmd ∈ log, cmd.Named) →
      replay (fun _ => none) ((new true).runEvents log) = fun k => (((new true).run log).status k).owner := by
  refine ⟨?_,?_⟩
  · intro f hf hn cmd hc out
    have h := reachable_inv hf
    refine ⟨?_,?_,?_⟩
    · intro k
      rcases step_events h hn hc k with ⟨he,_⟩ | he
      · rw [he]; exact Nat.zero_le 1
      · rw [he]; exact Nat.le_refl 1
    · intro e he
      have hm : e ∈ about e.key out.events := (ChangeLog.mem_about _).mpr ⟨he,rfl⟩
      have hr : e = out.fsm.report e.key := by
        rcases step_events h hn hc e.key with ⟨hnil,_⟩ | hone
        · rw [hnil] at hm; cases hm
        · rw [hone] at hm; exact List.mem_singleton.mp hm
      have hd : e.Describes out.fsm := hr ▸ report_describes (step_inv h hc) e.key
      exact ⟨hd,hd.revision.trans (step_result_revision f cmd).symm⟩
    · intro k hne
      rcases step_events h hn hc k with ⟨_,ho⟩ | he
      · exact (hne ho).elim
      · have hm : out.fsm.report k ∈ about k out.events := by rw [he]; exact List.mem_singleton.mpr rfl
        obtain ⟨h1,h2⟩ := (ChangeLog.mem_about _).mp hm
        exact ⟨_,h1,h2⟩
  · intro log hl
    funext k
    have hi := run_inv (inv_new true) hl
    have hr := replay_run (inv_new true) rfl hl
    rw [status_owner hi]
    exact congrFun hr k

/-- A revocation of a lease with two keys: one is handed over, the other becomes free. -/
theorem revocation_is_logged :
    let log : List Command := [.leaseGrant (str "a") 5 0,.leaseGrant (str "b") 5 0,
      .acquireLock (str "k") (str "a") false,.acquireLock (str "l") (str "a") false,
      .acquireLock (str "k") (str "b") false,.leaseRevoke (str "a")]
    replay (fun _ => none) ((new true).runEvents log) = (fun k => (((new true).run log).status k).owner) ∧
    (((new true).run log).status (str "k")).owner = some (str "b",4,none) ∧
    (((new true).run log).status (str "l")).owner = none ∧
    (((new true).run log.dropLast).step (.leaseRevoke (str "a"))).events.length = 2 ∧
    ∀ e ∈ (((new true).run log.dropLast).step (.leaseRevoke (str "a"))).events,
      e.Describes (((new true).run log.dropLast).step (.leaseRevoke (str "a"))).fsm := by
  intro log
  have hr : Reachable Command.Named ((new true).run log.dropLast) := (Reachable.start true).run (by decide)
  refine ⟨events_are_change_log.2 log (by decide),by decide,by decide,by decide,fun e he => ?_⟩
  exact ((events_are_change_log.1 _ hr (by decide) _ (by decide)).2.1 e he).1

section Recovery

/-- The ownership record of a key as a snapshot message has it. -/
def Snapshot.owner (snap : Snapshot) (k : Str) : Option (Str × Nat × Bytes) :=
  (snap.locks.find? (fun l => l.name = k)).map (fun l => (l.holder.getD [],l.token,l.value))

/-- Restoring informs its watchers: every key whose owner changed is published
once, as it stands after the recovery. -/
def Informs (before : FSM) (out : FSM × List Event) : Prop :=
  ∀ k, out.1.owner k ≠ before.owner k → about k out.2 = [out.1.report k]

private theorem read_names {r : FSM} {snap : Snapshot} (hs : r.snapshot.Read snap) :
    (snap.locks.map LockState.name).Nodup := by
  have hd : (r.snapshot.locks.map LockState.name).Nodup := by
    change ((r.locks.dump Lock.state).map LockState.name).Nodup
    rw [KeyedMap.dump_keys _ _ _ (fun _ _ => rfl)]
    exact KeyedMap.sortedKeys_nodup _
  cases hs with
  | memory => exact hd
  | wire =>
    change ((r.snapshot.locks.map (LockState.mapValue decodeBytes)).map LockState.name).Nodup
    rw [List.map_map]
    exact hd

private theorem restore_owner {r : FSM} {snap : Snapshot} (hs : r.snapshot.Read snap) (f : FSM) (k : Str) :
    (f.restore snap).1.owner k = snap.owner k := by
  have hl : (f.restore snap).1.locks.lookup k = (snap.locks.find? (fun l => l.name = k)).map LockState.lock :=
    KeyedMap.fill_lookup_find _ _ _ (read_names hs) k
  rw [FSM.owner,hl,Option.map_map]
  rfl

/-- Restore publishes nothing, so it informs its watchers exactly when there is
nothing to tell: the snapshot has the same owner for every key as the replica. -/
theorem restore_informs_iff (s r : FSM) {snap : Snapshot} (hs : r.snapshot.Read snap) :
    Informs s (s.restore snap) ↔ ∀ k, snap.owner k = s.owner k := by
  constructor
  · intro h k
    by_contra hne
    have hk := h k (by rwa [restore_owner hs])
    cases hk
  · intro h k hne
    rw [restore_owner hs] at hne
    exact (hne (h k)).elim

/-- A follower that saw the lock queued and then jumps past the promotion. -/
theorem restore_silent_on_promotion :
    let log : List Command := [.leaseGrant (str "a") 5 0,.leaseGrant (str "b") 5 0,
      .acquireLock (str "k") (str "a") false,.acquireLock (str "k") (str "b") false]
    let s := (new true).run log
    let r := (new true).run (log ++ [.releaseLock (str "k") (str "a") 1])
    Reachable Command.Named r ∧ s.notifier = true ∧ s.hold (str "k") = some (str "a",1) ∧
    (s.restore r.snapshot.wire).1.hold (str "k") = some (str "b",3) ∧
    (s.restore r.snapshot.wire).2 = [] ∧ ¬ Informs s (s.restore r.snapshot.wire) := by
  intro log s r
  have hne : (s.restore r.snapshot.wire).1.owner (str "k") ≠ s.owner (str "k") := by decide
  refine ⟨(Reachable.start true).run (by decide),by decide,by decide,by decide,rfl,fun h => ?_⟩
  have hk := h (str "k") hne
  cases hk

/-- A snapshot in which one more client waits behind the same holder has nothing to tell. -/
theorem restore_of_queued_client_informs :
    let log : List Command := [.leaseGrant (str "a") 5 0,.leaseGrant (str "b") 5 0,
      .acquireLock (str "k") (str "a") false]
    let s := (new true).run log
    let r := (new true).run (log ++ [.acquireLock (str "k") (str "b") false])
    s.hold (str "k") = some (str "a",1) ∧ s.line (str "k") = [str "a"] ∧
    (s.restore r.snapshot.wire).1.line (str "k") = [str "a",str "b"] ∧
    (∀ k, r.snapshot.wire.owner k = s.owner k) ∧ Informs s (s.restore r.snapshot.wire) := by
  intro log s r
  have hs : s.locks.keys = [str "k"] := by decide
  have hr : r.snapshot.wire.locks.map LockState.name = [str "k"] := by decide
  have h : ∀ k, r.snapshot.wire.owner k = s.owner k := by
    intro k
    by_cases hk : k = str "k"
    · rw [hk]
      decide
    · have hn : ∀ l ∈ r.snapshot.wire.locks, ¬ decide (l.name = k) = true := by
        intro l hl he
        have hm := List.mem_map_of_mem (f := LockState.name) hl
        rw [hr,List.mem_singleton,of_decide_eq_true he] at hm
        exact hk hm
      have hl : k ∉ s.locks := by
        rw [AList.mem_keys,hs]
        exact fun hm => hk (List.mem_singleton.mp hm)
      rw [Snapshot.owner,FSM.owner,List.find?_eq_none.mpr hn,AList.lookup_eq_none.mpr hl]
      rfl
  exact ⟨by decide,by decide,by decide,h,(restore_informs_iff s r .wire).mpr h⟩

end Recovery
end Zuul.Fsm
