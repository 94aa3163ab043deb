import Zuul.Fsm.Apply

/-! Readings of a shard state: the line of a key, its stamps and its owner. -/
namespace Zuul.Fsm
open Lib

/-- Holder first, then the queued clients in order. -/
def Lock.line (lk : Lock) : List Str := lk.holder :: lk.queue.map Waiter.clientID

/-- All numbers a lock took from the shared counter. -/
def Lock.stamps (lk : Lock) : List Nat := lk.token :: lk.queue.map Waiter.seq

namespace FSM

/-- The line of a key is empty when the key is absent. -/
def line (f : FSM) (k : Str) : List Str := ((f.locks.lookup k).map Lock.line).getD []

/-- The current hold of a key: who, under which fencing token. -/
def hold (f : FSM) (k : Str) : Option (Str × Nat) := (f.locks.lookup k).map (fun lk => (lk.holder,lk.token))

/-- The ownership record of a key: holder, token and published value. -/
def owner (f : FSM) (k : Str) : Option (Str × Nat × Bytes) :=
  (f.locks.lookup k).map (fun lk => (lk.holder,lk.token,lk.value))

/-- The line of a lock that is there. -/
theorem line_of_lookup {f : FSM} {k : Str} {lk : Lock} (h : f.locks.lookup k = some lk) :
    f.line k = lk.line := by rw [line,h]; rfl

/-- Nobody stands in line for a key without a lock. -/
theorem line_of_absent {f : FSM} {k : Str} (h : f.locks.lookup k = none) : f.line k = [] := by
  rw [line,h]; rfl

/-- The hold of a lock that is there. -/
theorem hold_of_lookup {f : FSM} {k : Str} {lk : Lock} (h : f.locks.lookup k = some lk) :
    f.hold k = some (lk.holder,lk.token) := by rw [hold,h]; rfl

/-- The owner of a lock that is there. -/
theorem owner_of_lookup {f : FSM} {k : Str} {lk : Lock} (h : f.locks.lookup k = some lk) :
    f.owner k = some (lk.holder,lk.token,lk.value) := by rw [owner,h]; rfl

/-- A hold is a lock with that holder and that token. -/
theorem hold_eq_some {f : FSM} {k c : Str} {t : Nat} :
    f.hold k = some (c,t) ↔ ∃ lk, f.locks.lookup k = some lk ∧ lk.holder = c ∧ lk.token = t := by
  simp only [hold,Option.map_eq_some_iff,Prod.mk.injEq]

end FSM

/-- Lease records that agree on everything but the index entries of one key. -/
structure LeaseEdit (k : Str) (a b : Lease) : Prop where
  clientID : b.clientID = a.clientID
  ttlMS : b.ttlMS = a.ttlMS
  expireAt : b.expireAt = a.expireAt
  held : ∀ {k'}, k' ≠ k → (k' ∈ b.held ↔ k' ∈ a.held)
  waiting : ∀ {k'}, k' ≠ k → (k' ∈ b.waiting ↔ k' ∈ a.waiting)

theorem LeaseEdit.refl (k : Str) (a : Lease) : LeaseEdit k a a :=
  ⟨rfl,rfl,rfl,fun _ => .rfl,fun _ => .rfl⟩

private theorem LeaseEdit.trans {k : Str} {a b c : Lease} (h : LeaseEdit k a b) (j : LeaseEdit k b c) :
    LeaseEdit k a c :=
  ⟨j.clientID.trans h.clientID,j.ttlMS.trans h.ttlMS,j.expireAt.trans h.expireAt,
    fun hk => (j.held hk).trans (h.held hk),fun hk => (j.waiting hk).trans (h.waiting hk)⟩

/-- A state change that touches one key: its lock record and its index entries. -/
structure KeyEdit (k : Str) (f g : FSM) : Prop where
  locks : ∀ {k'}, k' ≠ k → g.locks.lookup k' = f.locks.lookup k'
  leases : ∀ c, Option.Rel (LeaseEdit k) (f.leases.lookup c) (g.leases.lookup c)
  seq : f.seq ≤ g.seq
  revision : g.revision = f.revision
  notifier : g.notifier = f.notifier

namespace KeyEdit
variable {k : Str} {f g : FSM}

/-- Editing one lease edits no other. -/
theorem leases_insert {m : KeyedMap Str Lease} {c : Str} {ls ls' : Lease} (h : m.lookup c = some ls)
    (he : LeaseEdit k ls ls') (d : Str) :
    Option.Rel (LeaseEdit k) (m.lookup d) ((m.insert c ls').lookup d) := by
  rw [KeyedMap.lookup_insert_eq]
  split
  · rename_i hd
    rw [hd,h]
    exact .some he
  · exact KeyedMap.rel_refl (.refl k) _

/-- A lease after an edit was there before it. -/
theorem lease_back (h : KeyEdit k f g) {c : Str} {ls' : Lease} (hc : g.leases.lookup c = some ls') :
    ∃ ls, f.leases.lookup c = some ls ∧ LeaseEdit k ls ls' := KeyedMap.rel_back h.leases hc

/-- An edit neither adds nor drops a lease. -/
theorem mem_leases (h : KeyEdit k f g) (c : Str) : c ∈ g.leases ↔ c ∈ f.leases := KeyedMap.rel_mem_iff h.leases c

/-- Two edits of one key are one. -/
theorem trans {e : FSM} (h : KeyEdit k e f) (j : KeyEdit k f g) : KeyEdit k e g where
  locks hk := (j.locks hk).trans (h.locks hk)
  leases c := KeyedMap.rel_trans (h.leases c) (j.leases c) (fun _ _ _ => .trans)
  seq := h.seq.trans j.seq
  revision := j.revision.trans h.revision
  notifier := j.notifier.trans h.notifier

/-- An edit of a key leaves the other lines. -/
theorem line_other (h : KeyEdit k f g) {k' : Str} (hk : k' ≠ k) : g.line k' = f.line k' := by
  rw [FSM.line,FSM.line,h.locks hk]

end KeyEdit
end Zuul.Fsm
