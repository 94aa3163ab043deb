import Zuul.Fsm.Snapshot

/-! States that are equal as maps and sets, whatever order they enumerate.
No command, event or snapshot can tell them apart. -/
namespace Zuul.Fsm
open Lib

/-- Equal records with equal index sets. -/
structure Lease.Same (a b : Lease) : Prop where
  clientID : a.clientID = b.clientID
  ttlMS : a.ttlMS = b.ttlMS
  expireAt : a.expireAt = b.expireAt
  held : ∀ k, k ∈ a.held ↔ k ∈ b.held
  waiting : ∀ k, k ∈ a.waiting ↔ k ∈ b.waiting

/-- Equal in every field, the maps and sets read through their lookups. -/
structure FSM.Same (f g : FSM) : Prop where
  locks : ∀ k, f.locks.lookup k = g.locks.lookup k
  leases : ∀ c, Option.Rel Lease.Same (f.leases.lookup c) (g.leases.lookup c)
  seq : f.seq = g.seq
  revision : f.revision = g.revision
  notifier : f.notifier = g.notifier

/-- Same next state, same answer, same events. -/
structure Applied.Same (a b : Applied) : Prop where
  fsm : a.fsm.Same b.fsm
  result : a.result = b.result
  events : a.events = b.events

/-- The same for a step without an answer. -/
structure SameOut (a b : FSM × List Event) : Prop where
  fsm : a.1.Same b.1
  events : a.2 = b.2

theorem Lease.Same.refl (a : Lease) : a.Same a := ⟨rfl,rfl,rfl,fun _ => .rfl,fun _ => .rfl⟩

namespace FSM.Same
variable {f g : FSM} {k c : Str} {a b : Lease}

theorem refl (f : FSM) : f.Same f := ⟨fun _ => rfl,fun _ => KeyedMap.rel_refl Lease.Same.refl _,rfl,rfl,rfl⟩

/-- Either neither state has the lease, or both do and the records agree. -/
theorem lease_cases (h : f.Same g) (c : Str) : (f.leases.lookup c = none ∧ g.leases.lookup c = none) ∨
    ∃ a b, f.leases.lookup c = some a ∧ g.leases.lookup c = some b ∧ a.Same b := by
  have hr := h.leases c
  generalize f.leases.lookup c = a, g.leases.lookup c = b at hr
  cases hr with
  | none => exact .inl ⟨rfl,rfl⟩
  | some he => exact .inr ⟨_,_,rfl,rfl,he⟩

/-- Replicas that agree have the same leases. -/
theorem mem_leases (h : f.Same g) (c : Str) : c ∈ f.leases ↔ c ∈ g.leases := (KeyedMap.rel_mem_iff h.leases c).symm

/-- Replicas that agree have the same locks. -/
theorem mem_locks (h : f.Same g) (k : Str) : k ∈ f.locks ↔ k ∈ g.locks := by
  rw [KeyedMap.mem_iff_lookup,KeyedMap.mem_iff_lookup,h.locks k]

private theorem bump (h : f.Same g) : f.bump.Same g.bump :=
  ⟨h.locks,h.leases,h.seq,congrArg (· + 1) h.revision,h.notifier⟩

private theorem seqUp (h : f.Same g) : { f with seq := f.seq + 1 }.Same { g with seq := g.seq + 1 } :=
  ⟨h.locks,h.leases,congrArg (· + 1) h.seq,h.revision,h.notifier⟩

private theorem setLock (h : f.Same g) (k : Str) (lk : Lock) : (f.setLock k lk).Same (g.setLock k lk) where
  locks a := by
    change (f.locks.insert k lk).lookup a = (g.locks.insert k lk).lookup a
    rw [KeyedMap.lookup_insert_eq,KeyedMap.lookup_insert_eq,h.locks a]
  leases := h.leases
  seq := h.seq
  revision := h.revision
  notifier := h.notifier

private theorem eraseLock (h : f.Same g) (k : Str) :
    { f with locks := f.locks.erase k }.Same { g with locks := g.locks.erase k } where
  locks a := by
    change (f.locks.erase k).lookup a = (g.locks.erase k).lookup a
    rw [KeyedMap.lookup_erase_eq,KeyedMap.lookup_erase_eq,h.locks a]
  leases := h.leases
  seq := h.seq
  revision := h.revision
  notifier := h.notifier

private theorem setLease (h : f.Same g) (c : Str) (hab : a.Same b) : (f.setLease c a).Same (g.setLease c b) where
  locks := h.locks
  leases d := by
    change Option.Rel _ ((f.leases.insert c a).lookup d) ((g.leases.insert c b).lookup d)
    rw [KeyedMap.lookup_insert_eq,KeyedMap.lookup_insert_eq]
    split
    · exact .some hab
    · exact h.leases d
  seq := h.seq
  revision := h.revision
  notifier := h.notifier

private theorem eraseLease (h : f.Same g) (c : Str) :
    { f with leases := f.leases.erase c }.Same { g with leases := g.leases.erase c } where
  locks := h.locks
  leases d := by
    change Option.Rel _ ((f.leases.erase c).lookup d) ((g.leases.erase c).lookup d)
    rw [KeyedMap.lookup_erase_eq,KeyedMap.lookup_erase_eq]
    split
    · exact .none
    · exact h.leases d
  seq := h.seq
  revision := h.revision
  notifier := h.notifier

private theorem emit (h : f.Same g) (k c : Str) (t : Nat) (v : Bytes) : f.emit k c t v = g.emit k c t v := by
  rw [FSM.emit,FSM.emit,h.notifier,h.revision]

private theorem resultKey (h : f.Same g) (o : Outcome) (k : Str) : f.resultKey o k = g.resultKey o k := by
  rw [FSM.resultKey,FSM.resultKey,FSM.result,FSM.result,h.revision]

private theorem result (h : f.Same g) (o : Outcome) : f.result o = g.result o := by
  rw [FSM.result,FSM.result,h.revision]

end FSM.Same

namespace Lease.Same
variable {a b : Lease}

private theorem insertHeld (h : a.Same b) (k : Str) :
    { a with held := a.held.insert k () }.Same { b with held := b.held.insert k () } :=
  ⟨h.clientID,h.ttlMS,h.expireAt,fun x => by simp only [AList.mem_insert,h.held x],h.waiting⟩

private theorem eraseHeld (h : a.Same b) (k : Str) :
    { a with held := a.held.erase k }.Same { b with held := b.held.erase k } :=
  ⟨h.clientID,h.ttlMS,h.expireAt,fun x => by simp only [AList.mem_erase,h.held x],h.waiting⟩

private theorem insertWaiting (h : a.Same b) (k : Str) :
    { a with waiting := a.waiting.insert k () }.Same { b with waiting := b.waiting.insert k () } :=
  ⟨h.clientID,h.ttlMS,h.expireAt,h.held,fun x => by simp only [AList.mem_insert,h.waiting x]⟩

private theorem eraseWaiting (h : a.Same b) (k : Str) :
    { a with waiting := a.waiting.erase k }.Same { b with waiting := b.waiting.erase k } :=
  ⟨h.clientID,h.ttlMS,h.expireAt,h.held,fun x => by simp only [AList.mem_erase,h.waiting x]⟩

/-- Leases that agree list the held keys in the same order. -/
theorem sortedHeld (h : a.Same b) : sortedSet a.held = sortedSet b.held := KeyedMap.sortedKeys_congr _ _ h.held

private theorem sortedWaiting (h : a.Same b) : sortedSet a.waiting = sortedSet b.waiting :=
  KeyedMap.sortedKeys_congr _ _ h.waiting

end Lease.Same

section Steps
variable {f g : FSM} {a b : Lease}

private theorem grant_same (h : f.Same g) (hab : a.Same b) (k c : Str) (v : Bytes) :
    (f.grant k c a v).Same (g.grant k c b v) := by
  have hs (lk : Lock) := (h.seqUp.setLock k lk).setLease c ((hab.insertHeld k).eraseWaiting k)
  constructor
  · simp only [FSM.grant,← h.locks k,← hab.clientID,← h.seq]
    simpa only [← h.seq,← hab.clientID] using hs _
  · simp only [FSM.grant,← h.locks k,← hab.clientID,← h.seq,FSM.resultKey,FSM.result,FSM.setLock,FSM.setLease,
      ← h.revision]
  · simp only [FSM.grant,← h.locks k,← hab.clientID,← h.seq]
    simpa only [← h.seq,← hab.clientID] using (hs _).emit k a.clientID (f.seq + 1) v

private theorem enqueue_same (h : f.Same g) (hab : a.Same b) (k c : Str) (lk : Lock) (v : Bytes) :
    (f.enqueue k c lk a v).Same (g.enqueue k c lk b v) := by
  have hs (lk : Lock) := (h.seqUp.setLock k lk).setLease c (hab.insertWaiting k)
  constructor
  · simp only [FSM.enqueue,← h.seq]
    simpa only [← h.seq] using hs _
  · simp only [FSM.enqueue,← h.seq,FSM.resultKey,FSM.result,FSM.setLock,FSM.setLease,← h.revision]
  · rfl

private theorem acquire_same (h : f.Same g) (k c : Str) (v : Bytes) (tryLock : Bool) :
    (f.acquire k c v tryLock).Same (g.acquire k c v tryLock) := by
  rcases h.lease_cases c with ⟨hf,hg⟩ | ⟨a,b,hf,hg,hab⟩
  · simp only [FSM.acquire,hf,hg]
    exact ⟨h,h.resultKey _ _,rfl⟩
  · simp only [FSM.acquire,hf,hg,← h.locks k,← hab.waiting k]
    cases f.locks.lookup k with
    | none => exact grant_same h hab k c v
    | some lk =>
      simp only
      split_ifs
      · exact grant_same h hab k c v
      · exact ⟨h,by rw [h.resultKey],rfl⟩
      · exact ⟨h,by rw [h.resultKey],rfl⟩
      · exact ⟨h,by rw [h.resultKey],rfl⟩
      · exact enqueue_same h hab k c lk v

private theorem promoteFrom_same (h : f.Same g) (ptr : Str) (lk : Lock) (queue : List Waiter) :
    SameOut (FSM.promoteFrom ptr lk queue f) (FSM.promoteFrom ptr lk queue g) := by
  induction queue with
  | nil => exact ⟨h.eraseLock lk.name,h.emit _ _ _ _⟩
  | cons w queue ih =>
    rcases h.lease_cases w.clientID with ⟨hf,hg⟩ | ⟨a,b,hf,hg,hab⟩
    · simpa only [FSM.promoteFrom,hf,hg] using ih
    · have hs (lk' : Lock) := (h.seqUp.setLock ptr lk').setLease w.clientID
        ((hab.eraseWaiting lk.name).insertHeld lk.name)
      simp only [FSM.promoteFrom,hf,hg,← h.seq]
      constructor
      · simpa only [← h.seq] using hs _
      · simpa only [← h.seq] using (hs _).emit lk.name w.clientID (f.seq + 1) w.value

private theorem promote_same (h : f.Same g) (ptr : Str) (lk : Lock) : SameOut (f.promote ptr lk) (g.promote ptr lk) :=
  promoteFrom_same h ptr lk lk.queue

private theorem unhold_same (h : f.Same g) (c k : Str) : (f.unhold c k).Same (g.unhold c k) := by
  rcases h.lease_cases c with ⟨hf,hg⟩ | ⟨a,b,hf,hg,hab⟩
  · simpa only [FSM.unhold,hf,hg] using h
  · simpa only [FSM.unhold,hf,hg] using h.setLease c (hab.eraseHeld k)

private theorem unwait_same (h : f.Same g) (c k : Str) : (f.unwait c k).Same (g.unwait c k) := by
  rcases h.lease_cases c with ⟨hf,hg⟩ | ⟨a,b,hf,hg,hab⟩
  · simpa only [FSM.unwait,hf,hg] using h
  · simpa only [FSM.unwait,hf,hg] using h.setLease c (hab.eraseWaiting k)

private theorem release_same (h : f.Same g) (k c : Str) (t : Nat) : (f.release k c t).Same (g.release k c t) := by
  simp only [FSM.release,← h.locks k]
  cases f.locks.lookup k with
  | none => exact ⟨h,h.resultKey _ _,rfl⟩
  | some lk =>
    have hp := promote_same (unhold_same h c k) k lk
    simp only
    split_ifs
    · exact ⟨h,h.resultKey _ _,rfl⟩
    · exact ⟨h,h.resultKey _ _,rfl⟩
    · exact ⟨hp.fsm,hp.fsm.resultKey _ _,hp.events⟩

private theorem cancelWait_same (h : f.Same g) (k c : Str) : (f.cancelWait k c).Same (g.cancelWait k c) := by
  simp only [FSM.cancelWait,← h.locks k]
  cases f.locks.lookup k with
  | none => exact ⟨h,h.resultKey _ _,rfl⟩
  | some lk =>
    have hs := unwait_same (h.setLock k (lk.dequeue c)) c k
    simp only
    split_ifs
    · exact ⟨hs,hs.resultKey _ _,rfl⟩
    · exact ⟨h,h.resultKey _ _,rfl⟩

private theorem proclaim_same (h : f.Same g) (k c : Str) (t : Nat) (v : Bytes) :
    (f.proclaim k c t v).Same (g.proclaim k c t v) := by
  simp only [FSM.proclaim,← h.locks k]
  cases f.locks.lookup k with
  | none => exact ⟨h,h.resultKey _ _,rfl⟩
  | some lk =>
    have hs := h.setLock k { lk with value := v }
    simp only
    split_ifs
    · exact ⟨h,h.resultKey _ _,rfl⟩
    · exact ⟨h,h.resultKey _ _,rfl⟩
    · exact ⟨hs,by rw [hs.resultKey],hs.emit _ _ _ _⟩

private theorem dropHeld_same (c : Str) (names : List Str) {x y : FSM × List Event} (h : SameOut x y) :
    SameOut (names.foldl (FSM.dropHeld c) x) (names.foldl (FSM.dropHeld c) y) := by
  induction names generalizing x y with
  | nil => exact h
  | cons k names ih =>
    apply ih
    simp only [FSM.dropHeld,← h.fsm.locks k]
    cases x.1.locks.lookup k with
    | none => exact h
    | some lk =>
      have hp := promote_same h.fsm k lk
      simp only
      split_ifs
      · exact h
      · exact ⟨hp.fsm,by rw [h.events,hp.events]⟩

private theorem dropWaiting_same (c : Str) (names : List Str) (h : f.Same g) :
    (names.foldl (FSM.dropWaiting c) f).Same (names.foldl (FSM.dropWaiting c) g) := by
  induction names generalizing f g with
  | nil => exact h
  | cons k names ih =>
    apply ih
    simp only [FSM.dropWaiting,← h.locks k]
    cases f.locks.lookup k with
    | none => exact h
    | some lk => exact h.setLock k (lk.dequeue c)

/-- The held and the waiting keys are sorted first, so both replicas walk them in
the same order. -/
theorem dropLease_same (h : f.Same g) (hab : a.Same b) (ptr : Str) :
    SameOut (f.dropLease ptr a) (g.dropLease ptr b) := by
  have h1 := dropHeld_same b.clientID (sortedSet b.held) (x := (f,[])) (y := (g,[])) ⟨h,rfl⟩
  rw [FSM.dropLease,FSM.dropLease,hab.sortedHeld,hab.clientID]
  generalize (sortedSet b.held).foldl (FSM.dropHeld b.clientID) (f,[]) = x at h1
  generalize (sortedSet b.held).foldl (FSM.dropHeld b.clientID) (g,[]) = y at h1
  have hl : ((x.1.leases.lookup ptr).getD a).Same ((y.1.leases.lookup ptr).getD b) := by
    rcases h1.fsm.lease_cases ptr with ⟨hf,hg⟩ | ⟨a',b',hf,hg,hab'⟩
    · simpa only [hf,hg,Option.getD_none] using hab
    · simpa only [hf,hg,Option.getD_some] using hab'
  refine ⟨?_,h1.events⟩
  simp only [hl.sortedWaiting,hl.clientID]
  exact (dropWaiting_same _ _ h1.fsm).eraseLease _

private theorem lease_same (h : f.Same g) (c : Str) (ttlMS expireAt : Int64) (o : Outcome)
    (hab : a.Same b) : let x := f.setLease c { a with ttlMS := ttlMS, expireAt := expireAt }
    let y := g.setLease c { b with ttlMS := ttlMS, expireAt := expireAt }
    x.Same y ∧ x.result o = y.result o := by
  have hs := h.setLease c (a := { a with ttlMS := ttlMS, expireAt := expireAt })
    (b := { b with ttlMS := ttlMS, expireAt := expireAt }) ⟨hab.clientID,rfl,rfl,hab.held,hab.waiting⟩
  exact ⟨hs,hs.result o⟩

private theorem dispatch_same (h : f.Same g) (cmd : Command) : (f.dispatch cmd).Same (g.dispatch cmd) := by
  cases cmd with
  | acquireLock name c tryLock => exact acquire_same h name c none tryLock
  | campaign name c value => exact acquire_same h name c value false
  | releaseLock name c token => exact release_same h name c token
  | resign name c token => exact release_same h name c token
  | cancelWait name c => exact cancelWait_same h name c
  | proclaim name c token value => exact proclaim_same h name c token value
  | leaseGrant c ttlMS now =>
    have hab : ((f.leases.lookup c).getD { clientID := c }).Same ((g.leases.lookup c).getD { clientID := c }) := by
      rcases h.lease_cases c with ⟨hf,hg⟩ | ⟨a,b,hf,hg,hab⟩
      · simpa only [hf,hg] using Lease.Same.refl _
      · simpa only [hf,hg,Option.getD_some] using hab
    obtain ⟨hs,hr⟩ := lease_same h c ttlMS (leaseDeadline now ttlMS) .leaseGranted hab
    exact ⟨hs,by simp only [FSM.dispatch,FSM.leaseGrant,hr],rfl⟩
  | leaseKeepAlive c now =>
    rcases h.lease_cases c with ⟨hf,hg⟩ | ⟨a,b,hf,hg,hab⟩
    · simp only [FSM.dispatch,FSM.leaseKeepAlive,hf,hg]
      exact ⟨h,h.result _,rfl⟩
    · obtain ⟨hs,hr⟩ := lease_same h c a.ttlMS (leaseDeadline now a.ttlMS) .leaseRenewed hab
      simp only [FSM.dispatch,FSM.leaseKeepAlive,hf,hg,← hab.ttlMS]
      exact ⟨hs,by rw [hr],rfl⟩
  | leaseRevoke c =>
    rcases h.lease_cases c with ⟨hf,hg⟩ | ⟨a,b,hf,hg,hab⟩
    · simp only [FSM.dispatch,FSM.leaseRevoke,hf,hg]
      exact ⟨h,h.result _,rfl⟩
    · have hd := dropLease_same h hab c
      simp only [FSM.dispatch,FSM.leaseRevoke,hf,hg]
      exact ⟨hd.fsm,hd.fsm.result _,hd.events⟩
  | leaseExpire c now =>
    rcases h.lease_cases c with ⟨hf,hg⟩ | ⟨a,b,hf,hg,hab⟩
    · simp only [FSM.dispatch,FSM.leaseExpire,hf,hg]
      exact ⟨h,h.result _,rfl⟩
    · have hd := dropLease_same h hab c
      simp only [FSM.dispatch,FSM.leaseExpire,hf,hg,hab.expireAt]
      split_ifs
      · exact ⟨h,h.result _,rfl⟩
      · exact ⟨hd.fsm,hd.fsm.result _,hd.events⟩

/-- Equal states answer, notify and move on equally. -/
theorem step_same (h : f.Same g) (cmd : Command) : (f.step cmd).Same (g.step cmd) := dispatch_same h.bump cmd

/-- Replicas that agree still agree after the same log. -/
theorem run_same (h : f.Same g) (log : List Command) : (f.run log).Same (g.run log) := by
  induction log generalizing f g with
  | nil => exact h
  | cons cmd log ih => exact ih (step_same h cmd).fsm

/-- They answer alike. -/
theorem runResults_same (h : f.Same g) (log : List Command) : f.runResults log = g.runResults log := by
  induction log generalizing f g with
  | nil => rfl
  | cons cmd log ih =>
    have hs := step_same h cmd
    rw [FSM.runResults,FSM.runResults,hs.result,ih hs.fsm]

/-- They publish alike. -/
theorem runEvents_same (h : f.Same g) (log : List Command) : f.runEvents log = g.runEvents log := by
  induction log generalizing f g with
  | nil => rfl
  | cons cmd log ih =>
    have hs := step_same h cmd
    rw [FSM.runEvents,FSM.runEvents,hs.events,ih hs.fsm]

/-- Snapshots are written in key order, so equal states write equal snapshots. -/
theorem snapshot_same (h : f.Same g) : f.snapshot = g.snapshot := by
  have hl : f.locks.dump Lock.state = g.locks.dump Lock.state := by
    rw [KeyedMap.dump,KeyedMap.dump,KeyedMap.sortedKeys_congr f.locks g.locks h.mem_locks]
    simp only [h.locks]
  have hs : f.leases.dump Lease.state = g.leases.dump Lease.state := by
    rw [KeyedMap.dump,KeyedMap.dump,KeyedMap.sortedKeys_congr f.leases g.leases h.mem_leases]
    congr 1
    funext c
    rcases h.lease_cases c with ⟨hf,hg⟩ | ⟨a,b,hf,hg,hab⟩
    · rw [hf,hg]
    · rw [hf,hg]
      simp only [Option.map_some,Lease.state,hab.ttlMS,hab.expireAt,hab.sortedHeld]
  rw [FSM.snapshot,FSM.snapshot,hl,hs,h.seq,h.revision]

end Steps
end Zuul.Fsm
