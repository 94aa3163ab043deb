import Mathlib.Data.Finset.Lattice.Lemmas
import Mathlib.Data.Finset.SDiff
import Mathlib.Data.List.GetD
import Zuul.Fsm.LeaseLife
import Zuul.Sessions.Node

/-! Which leases of a client the session manager still has in its books when all
calls have returned. -/
namespace Zuul.Sessions
open Lib Fsm
variable {c : Str} {s s' : Node} {a : NodeAction} {n k j p q : Nat} {ch : Choice} {call : Call} {m : Manager}

def NodeAction.choice : NodeAction → Choice
  | .move _ ch => ch
  | _ => {}

namespace Node

/-- The call that the action moves. -/
def moves (s : Node) : NodeAction → Option Call
  | .move n _ => s.calls[n]?
  | _ => none

/-- The shards in which the action is an EnsureLease getting its grant committed. -/
def grants (s : Node) (a : NodeAction) : Finset Nat :=
  match s.moves a with
  | some (.grantLease k _ _ _) => if a.choice.commits then {k} else ∅
  | _ => ∅

/-- The shards in which the action is a Close proposing its revoke. -/
def revokes (s : Node) (a : NodeAction) : Finset Nat :=
  match s.moves a with
  | some (.revoke todo) => if a.choice.shard ∈ todo then {a.choice.shard} else ∅
  | _ => ∅

/-- The session is open, or its Close has not listed its shards yet. -/
def Live (c : Str) (s : Node) (p : Nat) : Prop := s.manager.get c = some p ∨ .listRevokes p ∈ s.calls

instance (c : Str) (s : Node) (p : Nat) : Decidable (s.Live c p) := inferInstanceAs (Decidable (_ ∨ _))

end Node

/-- The call is a Close that is going to revoke the lease in the shard. -/
def Call.willRevoke (m : Manager) (k : Nat) : Call → Prop
  | .listRevokes p => k ∈ (m.deref p).shards
  | .revoke todo => k ∈ todo
  | _ => False

instance (m : Manager) (k : Nat) (call : Call) : Decidable (call.willRevoke m k) :=
  match call with
  | .listRevokes p => inferInstanceAs (Decidable (k ∈ (m.deref p).shards))
  | .revoke todo => inferInstanceAs (Decidable (k ∈ todo))
  | .open _ | .refresh .. | .recover _ | .attach _ | .record .. | .ensureLease _ | .checkLease .. | .grantLease ..
  | .keepAlive | .listRenewals _ | .stampRenewals .. | .renew .. | .close | .done _ => .isFalse id

/-- A node with two records beside it: the shards of the leases that an EnsureLease
granted and that have existed since, and the shards a Close listed to be revoked,
whether or not it came to propose the revocation. -/
structure Books where
  node : Node := {}
  granted : Finset Nat := ∅
  tried : Finset Nat := ∅

def Books.next (c : Str) (b : Books) (a : NodeAction) : Option Books :=
  (b.node.next c a).map (fun s' =>
    { node := s'
      granted := (b.granted ∪ b.node.grants a).filter (fun k => c ∈ (s'.shards k).leases)
      tried := (b.tried \ b.node.grants a) ∪ b.node.revokes a })

/-- The step of the call opens no way out: a grant that commits is answered and
finds its session live, a lapsed shard of a live session is forgotten while the
lease is gone, a revoke that does not commit leaves no lease outside a reopened
session, and a session is opened anew only when a Close in progress covers the
leases of the last one. -/
def CallCare (c : Str) (b : Books) (ch : Choice) : Call → Prop
  | .open _ => b.node.manager.get c = none → ∀ k ∈ b.granted, ∃ call ∈ b.node.calls, call.willRevoke b.node.manager k
  | .grantLease _ p _ _ => ch.commits = true → ch.answered = true ∧ b.node.Live c p
  | .renew p _ lapsed _ _ _ => ch.shard ∈ lapsed → b.node.Live c p → c ∉ (b.node.shards ch.shard).leases
  | .revoke todo => ch.shard ∈ todo → ch.commits = false → c ∈ (b.node.shards ch.shard).leases →
      ∀ p ∈ b.node.manager.get c, ch.shard ∈ (b.node.manager.deref p).shards
  | _ => True

def Careful (c : Str) (b : Books) (a : NodeAction) : Prop :=
  NodeEnv b.node a ∧ ∀ call ∈ b.node.moves a, CallCare c b a.choice call

instance (c : Str) (b : Books) (ch : Choice) (call : Call) : Decidable (CallCare c b ch call) :=
  match call with
  | .open _ => inferInstanceAs (Decidable (_ → ∀ k ∈ b.granted, ∃ call ∈ b.node.calls, _))
  | .grantLease .. => inferInstanceAs (Decidable (_ → _ ∧ _))
  | .renew .. => inferInstanceAs (Decidable (_ → _ → _ ∉ _))
  | .revoke _ => inferInstanceAs (Decidable (_ → _ → _ → ∀ p ∈ b.node.manager.get c, _))
  | .refresh .. | .recover _ | .attach _ | .record .. | .ensureLease _ | .checkLease .. | .keepAlive | .listRenewals _
  | .stampRenewals .. | .close | .listRevokes _ | .done _ => .isTrue trivial

instance (c : Str) (b : Books) (a : NodeAction) : Decidable (Careful c b a) := inferInstanceAs (Decidable (_ ∧ _))

section Steps
variable {r : Moved} {shards : Nat → FSM} {calls : List Call} {x y : Call}

private theorem mem_store {x : Session} (hx : (m.deref p).shards ⊆ x.shards) (hk : k ∈ (m.deref q).shards) :
    k ∈ ((m.store p x).deref q).shards := by
  rw [deref_store]
  split
  · rename_i hq
    exact hx (hq.1 ▸ hk)
  · exact hk

private theorem mem_addShard (hk : k ∈ (m.deref q).shards) : k ∈ ((m.addShard p j).deref q).shards :=
  mem_store (Finset.subset_insert _ _) hk

private theorem mem_addShard_self (hp : p < m.heap.length) : k ∈ ((m.addShard p k).deref p).shards := by
  rw [Manager.addShard,deref_store,if_pos ⟨rfl,hp⟩]
  exact Finset.mem_insert_self _ _

private theorem mem_setLocked {locked : Bool} (hk : k ∈ (m.deref q).shards) :
    k ∈ ((m.setLocked p locked).deref q).shards := mem_store (Finset.Subset.refl _) hk

private theorem length_store (m : Manager) (p : Nat) (x : Session) : (m.store p x).heap.length = m.heap.length :=
  List.length_set ..

private theorem deref_register (m : Manager) (c : Str) (q : Nat) : (m.register c).1.deref q = m.deref q := by
  -- a new session has no shards, as a dangling pointer has
  rw [Manager.register]
  split
  · rfl
  · rcases Nat.lt_or_ge q m.heap.length with hlt | hge
    · exact List.getD_append _ _ _ _ hlt
    · rw [deref_dangling (Nat.not_lt.mpr hge)]
      refine (List.getD_append_right _ _ _ _ hge).trans ?_
      cases q - m.heap.length with
      | zero => rfl
      | succ i => rfl

private theorem remove_get (m : Manager) (c : Str) : (m.remove c).get c = none := by
  rw [Manager.get,Manager.remove]
  exact (KeyedMap.lookup_erase_eq ..).trans (if_pos rfl)

private theorem CallStep.sessions (h : CallStep c m shards ch call r) : m.heap.length ≤ r.manager.heap.length ∧
    (∀ p, r.manager.get c = some p → m.get c = some p ∨ p < r.manager.heap.length) ∧
    ∀ p, r.call = .listRevokes p → m.get c = some p := by
  cases h with
  | «open» =>
    refine ⟨?_,fun p hp => ?_,fun p hp => by cases hp⟩
    · rw [Manager.register]
      split
      · exact Nat.le_refl _
      · simp
    · rw [Manager.register] at hp ⊢
      cases hg : m.get c with
      | some q =>
        rw [hg] at hp
        exact .inl (hg.symm.trans hp)
      | none =>
        rw [hg] at hp
        have hp : some m.heap.length = some p := (AList.lookup_insert _).symm.trans hp
        cases hp
        exact .inr (by simp)
  | attach | ensureLease | keepAlive =>
    rcases lookup_cases c m _ with hl | ⟨q,_,hl⟩
    all_goals
      rw [hl]
      exact ⟨Nat.le_refl _,fun p hp => .inl hp,fun p hp => by cases hp⟩
  | grantLease =>
    split
    · exact ⟨by simp [Manager.addShard,Manager.setLocked,length_store],fun p hp => .inl hp,fun p hp => by cases hp⟩
    · exact ⟨by simp [Manager.setLocked,length_store],fun p hp => .inl hp,fun p hp => by cases hp⟩
  | close =>
    refine ⟨Nat.le_refl _,fun p hp => ?_,fun p hp => ?_⟩
    · rw [remove_get] at hp
      cases hp
    · cases hg : m.get c with
      | none => rw [hg] at hp; cases hp
      | some q => rw [hg] at hp; cases hp; rfl
  | refresh | record | unknown | forget =>
    exact ⟨(length_store ..).ge,fun p hp => .inl hp,fun p hp => by cases hp⟩
  | _ => exact ⟨Nat.le_refl _,fun p hp => .inl hp,fun p hp => by cases hp⟩

private theorem mem_set_other (hx : x ∈ calls) (hn : calls[n]? = some call) (hne : x ≠ call) : x ∈ calls.set n y := by
  obtain ⟨i,hi⟩ := List.mem_iff_getElem?.mp hx
  have hin : n ≠ i := by
    rintro rfl
    exact hne (Option.some.inj (hi.symm.trans hn))
  exact List.mem_iff_getElem?.mpr ⟨i,(List.getElem?_set_ne hin).trans hi⟩

private theorem mem_set_moved (hn : calls[n]? = some call) : y ∈ calls.set n y :=
  List.mem_iff_getElem?.mpr ⟨n,List.getElem?_set_self (List.getElem?_eq_some_iff.mp hn).1⟩

private theorem live_next (h : s.next c a = some s') (hl : s'.Live c p) :
    s.Live c p ∨ p < s'.manager.heap.length := by
  cases a with
  | make call =>
    obtain ⟨hst,rfl⟩ := make_inversion h
    refine .inl (hl.imp_right (fun hm => ?_))
    rcases List.mem_append.mp hm with hm | hm
    · exact hm
    · cases List.mem_singleton.mp hm
      cases hst
  | move n ch =>
    obtain ⟨call,r,hcall,hr,_,rfl⟩ := move_inversion h
    obtain ⟨_,hget,hlist⟩ := hr.sessions
    rcases hl with hg | hm
    · exact (hget p hg).imp_left .inl
    · rcases List.mem_or_eq_of_mem_set hm with hm | hm
      · exact .inl (.inr hm)
      · exact .inl (.inl (hlist p hm.symm))
  | commit k cmd =>
    cases h
    exact .inl hl

private theorem heap_next (h : s.next c a = some s') : s.manager.heap.length ≤ s'.manager.heap.length := by
  cases a with
  | make call =>
    obtain ⟨_,rfl⟩ := make_inversion h
    exact Nat.le_refl _
  | move n ch =>
    obtain ⟨call,r,_,hr,_,rfl⟩ := move_inversion h
    exact hr.sessions.1
  | commit k cmd =>
    cases h
    exact Nat.le_refl _

end Steps

section Books
variable {b b' : Books}

/-- The lease in the shard is accounted for. -/
private def Covered (c : Str) (b : Books) (k : Nat) : Prop :=
  (∃ p, b.node.manager.get c = some p ∧ k ∈ (b.node.manager.deref p).shards) ∨
  (∃ call ∈ b.node.calls, call.willRevoke b.node.manager k) ∨
  (b.node.manager.get c = none ∧ k ∈ b.tried)

private structure Kept (c : Str) (b : Books) : Prop where
  shards : ∀ k, Inv (b.node.shards k)
  valid : ∀ {p}, b.node.Live c p → p < b.node.manager.heap.length
  leased : ∀ {k}, k ∈ b.granted → c ∈ (b.node.shards k).leases
  covered : ∀ {k}, k ∈ b.granted → Covered c b k

private theorem willRevoke_mono {m' : Manager} (hw : call.willRevoke m k)
    (hs : ∀ p, call = .listRevokes p → k ∈ (m.deref p).shards → k ∈ (m'.deref p).shards) : call.willRevoke m' k := by
  cases call with
  | listRevokes p => exact hs p rfl hw
  | revoke todo => exact hw
  | _ => exact hw.elim

private theorem Covered.mono (h : Covered c b k) (hg : b'.node.manager.get c = b.node.manager.get c)
    (hs : ∀ p, b.node.Live c p → k ∈ (b.node.manager.deref p).shards → k ∈ (b'.node.manager.deref p).shards)
    (hcalls : ∀ call ∈ b.node.calls, call.willRevoke b.node.manager k → call ∈ b'.node.calls)
    (ht : k ∈ b.tried → k ∈ b'.tried) : Covered c b' k := by
  rcases h with ⟨p,hp,hk⟩ | ⟨call,hm,hw⟩ | ⟨hn,hk⟩
  · exact .inl ⟨p,hg.trans hp,hs p (.inl hp) hk⟩
  · refine .inr (.inl ⟨call,hcalls call hm hw,willRevoke_mono hw (fun p he => ?_)⟩)
    exact hs p (.inr (he ▸ hm))
  · exact .inr (.inr ⟨hg.trans hn,ht hk⟩)

/-- The books after a call moved. -/
private def Books.moved (b : Books) (c : Str) (n : Nat) (ch : Choice) (r : Moved) : Books :=
  let s' : Node := { manager := r.manager, shards := b.node.after r.commit, calls := b.node.calls.set n r.call }
  { node := s'
    granted := (b.granted ∪ b.node.grants (.move n ch)).filter (fun k => c ∈ (s'.shards k).leases)
    tried := (b.tried \ b.node.grants (.move n ch)) ∪ b.node.revokes (.move n ch) }

section Moved
variable {r : Moved}

private theorem mem_moved (hm : k ∈ (b.moved c n ch r).granted) :
    (k ∈ b.granted ∨ k ∈ b.node.grants (.move n ch)) ∧ c ∈ (b.node.after r.commit k).leases := by
  obtain ⟨hm,hl⟩ := Finset.mem_filter.mp hm
  exact ⟨Finset.mem_union.mp hm,hl⟩

private theorem mem_tried (hg : k ∉ b.node.grants (.move n ch)) (ht : k ∈ b.tried) : k ∈ (b.moved c n ch r).tried :=
  Finset.mem_union_left _ (Finset.mem_sdiff.mpr ⟨ht,hg⟩)

private theorem covered_quiet (hk : Kept c b) (hcall : b.node.calls[n]? = some call)
    (hg : k ∉ b.node.grants (.move n ch)) (hw : ¬ call.willRevoke b.node.manager k)
    (hget : r.manager.get c = b.node.manager.get c)
    (hs : ∀ p, b.node.Live c p → k ∈ (b.node.manager.deref p).shards → k ∈ (r.manager.deref p).shards)
    (hm : k ∈ b.granted) : Covered c (b.moved c n ch r) k := by
  refine (hk.covered hm).mono hget hs (fun x hx hwx => mem_set_other hx hcall ?_) (mem_tried hg)
  rintro rfl
  exact hw hwx

private theorem covered_still (hk : Kept c b) (hcall : b.node.calls[n]? = some call)
    (hg : k ∉ b.node.grants (.move n ch)) (hw : ¬ call.willRevoke b.node.manager k) (hr : r.manager = b.node.manager)
    (hm : k ∈ b.granted) : Covered c (b.moved c n ch r) k := by
  refine covered_quiet hk hcall hg hw ?_ ?_ hm
  · rw [hr]
  · rw [hr]
    exact fun _ _ h => h

private theorem covered_open {ttlMS : Int64} (hk : Kept c b) (hcall : b.node.calls[n]? = some (.open ttlMS))
    (hg : k ∉ b.node.grants (.move n ch))
    (ha : b.node.manager.get c = none → ∀ k ∈ b.granted, ∃ call ∈ b.node.calls, call.willRevoke b.node.manager k)
    (hr : r.manager = (b.node.manager.register c).1) (hm : k ∈ b.granted) : Covered c (b.moved c n ch r) k := by
  have hs : ∀ p, k ∈ (b.node.manager.deref p).shards → k ∈ (r.manager.deref p).shards := by
    intro p hp
    rw [hr,deref_register]
    exact hp
  cases hget : b.node.manager.get c with
  | some p =>
    refine covered_quiet hk hcall hg (fun h => h) ?_ (fun p _ => hs p) hm
    rw [hr,Manager.register,hget]
    exact hget
  | none =>
    obtain ⟨call,hcm,hw⟩ := ha hget k hm
    refine .inr (.inl ⟨call,mem_set_other hcm hcall ?_,willRevoke_mono hw (fun p _ => hs p)⟩)
    rintro rfl
    exact hw

private theorem grants_move {ttlMS now : Int64} (hcall : s.calls[n]? = some (.grantLease j p ttlMS now)) :
    s.grants (.move n ch) = if ch.commits then {j} else ∅ := by
  simp only [Node.grants,Node.moves,hcall]
  rfl

private theorem revokes_move {todo : Finset Nat} (hcall : s.calls[n]? = some (.revoke todo)) :
    s.revokes (.move n ch) = if ch.shard ∈ todo then {ch.shard} else ∅ := by
  simp only [Node.revokes,Node.moves,hcall]
  rfl

private theorem covered_grant {ttlMS now : Int64} (hk : Kept c b)
    (hcall : b.node.calls[n]? = some (.grantLease j p ttlMS now))
    (ha : ch.commits = true → ch.answered = true ∧ b.node.Live c p)
    (hr : r.manager = if ch.ok then (b.node.manager.setLocked p false).addShard p j
      else b.node.manager.setLocked p false)
    (hm : k ∈ b.granted ∨ k ∈ b.node.grants (.move n ch)) : Covered c (b.moved c n ch r) k := by
  have hget : r.manager.get c = b.node.manager.get c := by
    rw [hr]
    split
    · rfl
    · rfl
  have hs : ∀ q, k ∈ (b.node.manager.deref q).shards → k ∈ (r.manager.deref q).shards := by
    intro q hq
    rw [hr]
    split
    · exact mem_addShard (mem_setLocked hq)
    · exact mem_setLocked hq
  by_cases hg : k ∈ b.node.grants (.move n ch)
  · -- the new lease is in its session, which is open or about to be listed
    rw [grants_move hcall] at hg
    split at hg
    · rename_i hcom
      cases Finset.mem_singleton.mp hg
      obtain ⟨hans,hlive⟩ := ha hcom
      have hin : k ∈ (r.manager.deref p).shards := by
        rw [hr,if_pos (by rw [Choice.ok,hcom,hans]; rfl)]
        refine mem_addShard_self ?_
        rw [Manager.setLocked,length_store]
        exact hk.valid hlive
      rcases hlive with hp | hp
      · exact .inl ⟨p,hget.trans hp,hin⟩
      · refine .inr (.inl ⟨.listRevokes p,mem_set_other hp hcall (fun h => by cases h),hin⟩)
    · exact absurd hg (Finset.notMem_empty k)
  · exact covered_quiet hk hcall hg (fun h => h) hget (fun q _ => hs q) (hm.resolve_right hg)

private theorem covered_forget {todo lapsed : Finset Nat} {now deadline : Int64} {failed : Bool} (hk : Kept c b)
    (hcall : b.node.calls[n]? = some (.renew p todo lapsed now deadline failed))
    (hg : k ∉ b.node.grants (.move n ch)) (ha : b.node.Live c p → c ∉ (b.node.shards j).leases)
    (hr : r.manager = b.node.manager.deleteShard p j) (hm : k ∈ b.granted) : Covered c (b.moved c n ch r) k := by
  refine covered_quiet hk hcall hg (fun h => h) ?_ ?_ hm
  · rw [hr]
    rfl
  · intro q hq hin
    rw [hr,Manager.deleteShard,deref_store]
    split
    · rename_i hqp
      obtain ⟨rfl,_⟩ := hqp
      refine Finset.mem_erase.mpr ⟨?_,hin⟩
      rintro rfl
      exact ha hq (hk.leased hm)
    · exact hin

private theorem covered_close (hk : Kept c b) (hcall : b.node.calls[n]? = some .close)
    (hg : k ∉ b.node.grants (.move n ch)) (hr : r.manager = b.node.manager.remove c)
    (hcl : r.call = ((b.node.manager.get c).map Call.listRevokes).getD (.done .ok)) (hm : k ∈ b.granted) :
    Covered c (b.moved c n ch r) k := by
  have hnone : (b.moved c n ch r).node.manager.get c = none := by
    change r.manager.get c = none
    rw [hr,remove_get]
  have hs : ∀ p, k ∈ (b.node.manager.deref p).shards → k ∈ (r.manager.deref p).shards := by
    intro p hp
    rw [hr]
    exact hp
  rcases hk.covered hm with ⟨p,hp,hin⟩ | ⟨call,hcm,hw⟩ | ⟨_,ht⟩
  · rw [hp] at hcl
    have hmem : r.call ∈ (b.moved c n ch r).node.calls := mem_set_moved hcall
    rw [hcl] at hmem
    exact .inr (.inl ⟨.listRevokes p,hmem,hs p hin⟩)
  · refine .inr (.inl ⟨call,mem_set_other hcm hcall ?_,willRevoke_mono hw (fun p _ => hs p)⟩)
    rintro rfl
    exact hw
  · exact .inr (.inr ⟨hnone,mem_tried hg ht⟩)

private theorem covered_listed (hk : Kept c b) (hcall : b.node.calls[n]? = some (.listRevokes p))
    (hg : k ∉ b.node.grants (.move n ch)) (hr : r.manager = b.node.manager)
    (hcl : r.call = .revoke (b.node.manager.deref p).shards) (hm : k ∈ b.granted) : Covered c (b.moved c n ch r) k := by
  by_cases hin : k ∈ (b.node.manager.deref p).shards
  · exact .inr (.inl ⟨_,mem_set_moved hcall,by rw [hcl]; exact hin⟩)
  · exact covered_still hk hcall hg hin hr hm

private theorem covered_revoke {todo : Finset Nat} (hk : Kept c b) (hcall : b.node.calls[n]? = some (.revoke todo))
    (hg : k ∉ b.node.grants (.move n ch))
    (hin : ch.shard ∈ todo) (hr : r.manager = b.node.manager) (hcl : r.call = .revoke (todo.erase ch.shard))
    (hcom : r.commit = Call.proposal ch ch.shard (.leaseRevoke c))
    (ha : ch.commits = false → c ∈ (b.node.shards ch.shard).leases → ∀ p ∈ b.node.manager.get c,
      ch.shard ∈ (b.node.manager.deref p).shards)
    (hm : k ∈ b.granted) (hleased : c ∈ (b.node.after r.commit k).leases) : Covered c (b.moved c n ch r) k := by
  by_cases hks : k = ch.shard
  · subst hks
    have hfail : ch.commits = false := by
      by_contra hyes
      rw [hcom,Call.proposal,if_pos (Bool.not_eq_false _ ▸ hyes),after_shards,if_pos rfl,
        KeyedMap.mem_iff_lookup] at hleased
      obtain ⟨ls,hl⟩ := hleased
      cases (revoke_gone (hk.shards _) c).symm.trans hl
    cases hget : b.node.manager.get c with
    | some p =>
      refine .inl ⟨p,?_,?_⟩
      · exact (congrArg (Manager.get · c) hr).trans hget
      · change ch.shard ∈ (r.manager.deref p).shards
        rw [hr]
        exact ha hfail (hk.leased hm) p hget
    | none =>
      refine .inr (.inr ⟨(congrArg (Manager.get · c) hr).trans hget,Finset.mem_union_right _ ?_⟩)
      rw [revokes_move hcall,if_pos hin]
      exact Finset.mem_singleton_self _
  · by_cases hkt : k ∈ todo
    · exact .inr (.inl ⟨_,mem_set_moved hcall,by rw [hcl]; exact Finset.mem_erase.mpr ⟨hks,hkt⟩⟩)
    · exact covered_still hk hcall hg hkt hr hm

private theorem covered_moved (hk : Kept c b) (hcall : b.node.calls[n]? = some call)
    (hr : CallStep c b.node.manager b.node.shards ch call r) (ha : Careful c b (.move n ch))
    (hm : k ∈ (b.moved c n ch r).granted) : Covered c (b.moved c n ch r) k := by
  obtain ⟨hin,hleased⟩ := mem_moved hm
  have ha : CallCare c b ch call := ha.2 call hcall
  by_cases hgrant : ∃ j p ttlMS now, call = .grantLease j p ttlMS now
  · obtain ⟨j,p,ttlMS,now,rfl⟩ := hgrant
    cases hr
    exact covered_grant hk hcall ha rfl hin
  · have hg : k ∉ b.node.grants (.move n ch) := by
      simp only [Node.grants,Node.moves,hcall]
      split
      · rename_i he
        exact (hgrant ⟨_,_,_,_,Option.some.inj he⟩).elim
      · exact Finset.notMem_empty k
    have hold := hin.resolve_right hg
    cases hr with
    | grantLease => exact (hgrant ⟨_,_,_,_,rfl⟩).elim
    | «open» => exact covered_open hk hcall hg ha rfl hold
    | forget ht => exact covered_forget hk hcall hg (ha ht) rfl hold
    | close => exact covered_close hk hcall hg rfl rfl hold
    | listRevokes => exact covered_listed hk hcall hg rfl rfl hold
    | revoke ht => exact covered_revoke hk hcall hg ht rfl rfl rfl (ha ht) hold hleased
    | refresh | record | unknown =>
      exact covered_quiet hk hcall hg (fun h => h) rfl (fun _ _ => mem_store (by simp)) hold
    | attach | ensureLease | keepAlive => exact covered_still hk hcall hg (fun h => h) lookup_manager hold
    | revoked => exact covered_still hk hcall hg (Finset.notMem_empty k) rfl hold
    | _ => exact covered_still hk hcall hg (fun h => h) rfl hold

end Moved

private theorem covered_other (hk : Kept c b) (ha : b.node.moves a = none) (hn : b.next c a = some b')
    (hm : b'.node.manager = b.node.manager) (hcalls : ∀ call ∈ b.node.calls, call ∈ b'.node.calls)
    (hin : k ∈ b'.granted) : Covered c b' k := by
  obtain ⟨s',_,rfl⟩ := Option.map_eq_some_iff.mp hn
  have hgrants : b.node.grants a = ∅ := by rw [Node.grants,ha]
  have hold : k ∈ b.granted := by
    have hin := (Finset.mem_filter.mp hin).1
    rwa [hgrants,Finset.union_empty] at hin
  refine (hk.covered hold).mono (by rw [hm]) ?_ (fun call hc _ => hcalls call hc) (fun ht => ?_)
  · rw [hm]
    exact fun _ _ hk => hk
  · refine Finset.mem_union_left _ ?_
    rwa [hgrants,Finset.sdiff_empty]

private theorem kept_next (hc : c ≠ []) (hk : Kept c b) (ha : Careful c b a) (hn : b.next c a = some b') :
    Kept c b' := by
  obtain ⟨s',hs,rfl⟩ := Option.map_eq_some_iff.mp hn
  refine ⟨next_inv hc hk.shards ha.1 hs,fun hl => ?_,fun hm => ?_,fun {k} hm => ?_⟩
  · rcases live_next hs hl with hl | hl
    · exact (hk.valid hl).trans_le (heap_next hs)
    · exact hl
  · exact (Finset.mem_filter.mp hm).2
  · cases a with
    | make call =>
      obtain ⟨_,rfl⟩ := make_inversion hs
      exact covered_other hk rfl hn rfl (fun x hx => List.mem_append_left _ hx) hm
    | move n ch =>
      obtain ⟨call,r,hcall,hr,_,rfl⟩ := move_inversion hs
      exact covered_moved hk hcall hr ha hm
    | commit j cmd =>
      cases hs
      exact covered_other hk rfl hn rfl (fun x hx => hx) hm

private theorem kept_start (c : Str) : Kept c {} := by
  refine ⟨fun _ => inv_new true,?_,?_,?_⟩
  · rintro p (hl | hl)
    · cases hl
    · cases hl
  · exact fun hk => absurd hk (Finset.notMem_empty _)
  · exact fun hk => absurd hk (Finset.notMem_empty _)

/-- When every step is careful and all calls have returned, each lease that an
EnsureLease granted and that still exists is in the open session, or no session
is open and a Close tried to revoke it. -/
theorem no_lease_escapes (hc : c ≠ []) (h : Reaches (Books.next c) (Careful c) {} b) (hi : b.node.idle = true) :
    ∀ k ∈ b.granted, (∀ p, b.node.manager.get c = some p → k ∈ (b.node.manager.deref p).shards) ∧
      (b.node.manager.get c = none → k ∈ b.tried) := by
  intro k hk
  have hkept : Kept c b := h.rule (kept_start c) (fun _ _ _ => kept_next hc)
  rcases hkept.covered hk with ⟨p,hp,hin⟩ | ⟨call,hcm,hw⟩ | ⟨hn,ht⟩
  · exact ⟨fun q hq => Option.some.inj (hp.symm.trans hq) ▸ hin,fun hnone => by cases hp.symm.trans hnone⟩
  · have hf := List.all_eq_true.mp hi call hcm
    cases call with
    | done => exact hw.elim
    | _ => cases hf
  · exact ⟨fun q hq => (by cases hn.symm.trans hq),fun _ => ht⟩

/-- Close waits for the mutex until EnsureLease has its grant, the client reopens
its session in the meantime, and Close revokes the lease after that. -/
theorem close_waits_for_grant : ∃ b, Reaches (Books.next (str "a")) (Careful (str "a")) {} b ∧ b.node.idle = true ∧
    b.granted = {2} ∧ b.node.manager.get (str "a") = some 1 ∧ 2 ∈ (b.node.manager.deref 1).shards := by
  have hrun : ∃ b ∈ exec (Books.next (str "a")) (Careful (str "a")) {}
      [.make (.open 5),.move 0 {},.move 0 {},.make (.ensureLease 1),.move 1 {},.move 1 {},.make .close,.move 2 {},
        .move 1 {},.make (.open 5),.move 3 {},.move 3 {},.move 2 {},.move 2 { shard := 1 },.move 2 {},
        .make (.ensureLease 2),.move 4 {},.move 4 {},.move 4 {}],
      b.node.idle = true ∧ b.granted = {2} ∧ b.node.manager.get (str "a") = some 1 := by decide +kernel
  obtain ⟨b,hb,hi,hg,hget⟩ := hrun
  have hr := exec_reaches .init hb
  refine ⟨b,hr,hi,hg,hget,?_⟩
  exact (no_lease_escapes (by decide) hr hi 2 (hg ▸ Finset.mem_singleton_self 2)).1 1 hget

/-- Two ways out. An EnsureLease that has its session pointer is overtaken by a
whole Close and then gets its grant; and of two heartbeats that saw the same
lapse, the second forgets the shard after an EnsureLease renewed its lease. -/
theorem leases_escape :
    (∃ b, Reaches (Books.next (str "a")) (fun b a => NodeEnv b.node a) {} b ∧ b.node.idle = true ∧
      b.granted = {1} ∧ b.node.manager.get (str "a") = none ∧ b.tried = ∅) ∧
    ∃ b p, Reaches (Books.next (str "a")) (fun b a => NodeEnv b.node a) {} b ∧ b.node.idle = true ∧
      b.granted = {1} ∧ b.node.manager.get (str "a") = some p ∧ (b.node.manager.deref p).shards = ∅ := by
  have hclose : ∃ b ∈ exec (Books.next (str "a")) (fun b a => NodeEnv b.node a) {}
      [.make (.open 5),.move 0 {},.move 0 {},.make (.ensureLease 1),.move 1 {},.make .close,.move 2 {},.move 2 {},
        .move 2 {},.move 1 {},.move 1 {}],
      b.node.idle = true ∧ b.granted = {1} ∧ b.node.manager.get (str "a") = none ∧ b.tried = ∅ := by decide +kernel
  have hforget : ∃ b ∈ exec (Books.next (str "a")) (fun b a => NodeEnv b.node a) {}
      [.make (.open 5),.move 0 {},.move 0 {},.make (.ensureLease 1),.move 1 {},.move 1 {},.move 1 {},
        .commit 1 (.leaseExpire (str "a") 5000000),
        .make .keepAlive,.move 2 {},.move 2 {},.move 2 { now := 5000000 },.move 2 { shard := 1 },
        .make .keepAlive,.move 3 {},.move 3 {},.move 3 { now := 5000000 },.move 3 { shard := 1 },
        .move 2 { shard := 1 },.move 2 {},.make (.ensureLease 1),.move 4 {},.move 4 { now := 5000000 },.move 4 {},
        .move 3 { shard := 1 },.move 3 {}],
      b.node.idle = true ∧ b.granted = {1} ∧ b.node.manager.get (str "a") = some 0 ∧
        (b.node.manager.deref 0).shards = ∅ := by decide +kernel
  obtain ⟨b,hb,hres⟩ := hclose
  obtain ⟨b',hb',hres'⟩ := hforget
  exact ⟨⟨b,exec_reaches .init hb,hres⟩,b',0,exec_reaches .init hb',hres'⟩

end Books
end Zuul.Sessions
