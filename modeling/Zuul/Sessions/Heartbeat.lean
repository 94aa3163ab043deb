import Zuul.Fsm.LeaseLife
import Zuul.Sessions.Node

/-! What a heartbeat that returned a deadline says about the leases and the locks
of the client. -/
namespace Zuul.Sessions
open Lib Fsm
variable {c : Str} {s s' s₀ s₁ s₂ : Node} {a : NodeAction} {n k p : Nat} {ch : Choice} {cmd : Command} {D : Int64}

/-- The calls for the client are made one after the other, and while one is in
progress nobody else ends, grants or renews its leases. -/
def InTurn (c : Str) (s : Node) : NodeAction → Prop
  | .make _ => s.idle = true
  | .move _ _ => True
  | .commit k cmd => cmd.Named ∧ (s.idle = true ∨ cmd.lockName ≠ none ∨ cmd.clientID ≠ c ∨
      (cmd.expires c ≠ none ∧ ¬ (s.shards k).Lapses c cmd))

instance (c : Str) (s : Node) (a : NodeAction) : Decidable (InTurn c s a) :=
  match a with
  | .make _ => inferInstanceAs (Decidable (s.idle = true))
  | .move _ _ => .isTrue trivial
  | .commit k cmd => inferInstanceAs (Decidable (cmd.Named ∧ (s.idle = true ∨ cmd.lockName ≠ none ∨ cmd.clientID ≠ c ∨
      (cmd.expires c ≠ none ∧ ¬ (s.shards k).Lapses c cmd))))

/-- A KeepAlive is made in s₀ and returns the deadline D in s. -/
structure Heartbeat (c : Str) (s₀ s : Node) (D : Int64) : Prop where
  reached : Reaches (Node.next c) (InTurn c) {} s₀
  idle : s₀.idle = true
  returns : ∃ t ch, Reaches (Node.next c) (InTurn c) { s₀ with calls := s₀.calls ++ [.keepAlive] } t ∧
    t.next c (.move s₀.calls.length ch) = some s
  deadline : s.calls[s₀.calls.length]? = some (.done (.deadline D))

/-- In every shard of the session the TTL of the lease reaches, from the clock
reading now, as far as the TTL of the session. -/
def TTLsReach (c : Str) (s : Node) (p : Nat) (now : Int64) : Prop :=
  ∀ k ∈ (s.manager.deref p).shards, ∀ ls ∈ (s.shards k).leases.lookup c,
    leaseDeadline now (s.manager.deref p).ttlMS ≤ leaseDeadline now ls.ttlMS

instance (c : Str) (s : Node) (p : Nat) (now : Int64) : Decidable (TTLsReach c s p now) :=
  inferInstanceAs (Decidable (∀ k ∈ (s.manager.deref p).shards, ∀ ls ∈ (s.shards k).leases.lookup c, _))

section Deadline

/-- Where the renewals of a KeepAlive are that was made in s₀. -/
private structure Renewing (c : Str) (s₀ s : Node) (p : Nat) (todo lapsed : Finset Nat) (now : Int64) : Prop where
  kept : ∀ k ∈ (s₀.manager.deref p).shards, c ∈ (s₀.shards k).leases → k ∈ (s.manager.deref p).shards
  old : ∀ k ∈ (s.manager.deref p).shards, k ∈ (s₀.manager.deref p).shards
  gone : ∀ k ∈ lapsed, c ∉ (s₀.shards k).leases
  renewed : ∀ k ∈ (s.manager.deref p).shards, k ∈ todo ∨ k ∈ lapsed ∨
    ∃ ls, (s.shards k).leases.lookup c = some ls ∧ ls.expireAt = leaseDeadline now ls.ttlMS

/-- What is known in each phase of that KeepAlive. -/
private def Beat (c : Str) (s₀ s : Node) : Call → Prop
  | .keepAlive => s.manager = s₀.manager
  | .listRenewals p => s.manager = s₀.manager ∧ s₀.manager.get c = some p
  | .stampRenewals p shards ttlMS => s.manager = s₀.manager ∧ s₀.manager.get c = some p ∧
      shards = (s₀.manager.deref p).shards ∧ ttlMS = (s₀.manager.deref p).ttlMS
  | .renew p todo lapsed now deadline failed => s.manager.get c = some p ∧ s₀.manager.get c = some p ∧
      deadline = leaseDeadline now (s₀.manager.deref p).ttlMS ∧ (failed = false → Renewing c s₀ s p todo lapsed now)
  | .done _ => True
  | _ => False

private def SameTTLs (c : Str) (s₀ s : Node) : Prop :=
  ∀ k, ((s.shards k).leases.lookup c).map Lease.ttlMS = ((s₀.shards k).leases.lookup c).map Lease.ttlMS

private theorem sameTTLs_mem (h : SameTTLs c s₀ s) (k : Nat) : c ∈ (s.shards k).leases ↔ c ∈ (s₀.shards k).leases := by
  have hk := congrArg Option.isSome (h k)
  simp only [Option.isSome_map] at hk
  rw [KeyedMap.mem_iff_lookup,KeyedMap.mem_iff_lookup,← Option.isSome_iff_exists,← Option.isSome_iff_exists,hk]

private theorem Renewing.forget {todo lapsed : Finset Nat} {now : Int64} (h : Renewing c s₀ s p todo lapsed now)
    (hk : k ∈ lapsed) (hm : s'.manager = s.manager.deleteShard p k) (hs : s'.shards = s.shards) :
    Renewing c s₀ s' p todo (lapsed.erase k) now := by
  have hd : (s'.manager.deref p).shards = (s.manager.deref p).shards.erase k := by rw [hm,deref_deleteShard]
  refine ⟨?_,?_,?_,?_⟩
  · intro j hj hl
    rw [hd]
    refine Finset.mem_erase.mpr ⟨?_,h.kept j hj hl⟩
    rintro rfl
    exact h.gone j hk hl
  · intro j hj
    rw [hd] at hj
    exact h.old j (Finset.mem_of_mem_erase hj)
  · exact fun j hj => h.gone j (Finset.mem_of_mem_erase hj)
  · intro j hj
    rw [hd] at hj
    obtain ⟨hne,hj⟩ := Finset.mem_erase.mp hj
    rw [hs]
    rcases h.renewed j hj with ht | hl | hr
    · exact .inl ht
    · exact .inr (.inl (Finset.mem_erase.mpr ⟨hne,hl⟩))
    · exact .inr (.inr hr)

private theorem sameTTLs_renewed (h : SameTTLs c s₀ s) (now : Int64)
    (hs : s'.shards = s.after (Call.proposal ch k (.leaseKeepAlive c now))) : SameTTLs c s₀ s' := by
  intro j
  rw [hs,← h j,Call.proposal]
  split
  · rw [after_shards]
    split
    · rename_i hj
      rw [hj,keepAlive_lease,Option.map_map]
      rfl
    · rfl
  · rfl

private theorem Renewing.renew {todo lapsed : Finset Nat} {now : Int64} (h : Renewing c s₀ s p todo lapsed now)
    (ht : SameTTLs c s₀ s) (hok : ch.ok = true) (hm : s'.manager = s.manager)
    (hs : s'.shards = s.after (Call.proposal ch ch.shard (.leaseKeepAlive c now))) :
    Renewing c s₀ s' p (todo.erase ch.shard)
      (if ch.ok && ((s.shards ch.shard).step (.leaseKeepAlive c now)).result.outcome = .notFound then
        insert ch.shard lapsed else lapsed) now := by
  have hcom : ch.commits = true := (Bool.and_eq_true_iff.mp hok).1
  rw [Call.proposal,if_pos hcom] at hs
  simp only [hok,Bool.true_and,decide_eq_true_eq,keepAlive_notFound]
  refine ⟨by rw [hm]; exact h.kept,by rw [hm]; exact h.old,?_,?_⟩
  · intro j hj
    split at hj
    · rename_i hnone
      rcases Finset.mem_insert.mp hj with rfl | hj
      · rw [← sameTTLs_mem ht,KeyedMap.mem_iff_lookup,hnone]
        rintro ⟨ls,hl⟩
        cases hl
      · exact h.gone j hj
    · exact h.gone j hj
  · intro j hj
    rw [hm] at hj
    rw [hs,after_shards]
    by_cases hjk : j = ch.shard
    · subst hjk
      cases hl : (s.shards ch.shard).leases.lookup c with
      | none => exact .inr (.inl (Finset.mem_insert_self _ _))
      | some ls =>
        refine .inr (.inr ⟨{ ls with expireAt := leaseDeadline now ls.ttlMS },?_,rfl⟩)
        rw [if_pos rfl,keepAlive_lease,hl]
        rfl
    · rw [if_neg hjk]
      rcases h.renewed j hj with ht | hl | hr
      · exact .inl (Finset.mem_erase.mpr ⟨hjk,ht⟩)
      · refine .inr (.inl ?_)
        split
        · exact Finset.mem_insert_of_mem hl
        · exact hl
      · exact .inr (.inr hr)

private theorem beat_step (s' : Node) {call : Call} {r : Moved} (hb : Beat c s₀ s call) (ht : SameTTLs c s₀ s)
    (hr : CallStep c s.manager s.shards ch call r) (hm : s'.manager = r.manager) (hs : s'.shards = s.after r.commit) :
    SameTTLs c s₀ s' ∧ Beat c s₀ s' r.call := by
  have still : r.commit = none → SameTTLs c s₀ s' := by
    intro hn k
    rw [hs,hn]
    exact ht k
  cases hr with
  | keepAlive =>
    refine ⟨still lookup_commit,?_⟩
    have hb : s.manager = s₀.manager := hb
    rw [Call.lookup] at hm ⊢
    cases hg : s.manager.get c with
    | none => trivial
    | some p =>
      rw [hg] at hm
      exact ⟨hm.trans hb,hb ▸ hg⟩
  | listRenewals hl =>
    obtain ⟨hb,hg⟩ := hb
    refine ⟨still rfl,hm.trans hb,hg,?_,?_⟩
    · rw [hb]
    · rw [hb]
  | stampRenewals =>
    obtain ⟨hb,hg,rfl,rfl⟩ := hb
    have hm : s'.manager = s₀.manager := hm.trans hb
    refine ⟨still rfl,hm ▸ hg,hg,rfl,fun _ => ⟨fun _ hk _ => hm ▸ hk,fun _ hk => hm ▸ hk,?_,fun _ hk => .inl (hm ▸ hk)⟩⟩
    exact fun k hk => absurd hk (Finset.notMem_empty k)
  | @renew p todo lapsed now deadline failed hk =>
    obtain ⟨hg,hg₀,hd,hw⟩ := hb
    refine ⟨sameTTLs_renewed ht now hs,(congrArg (Manager.get · c) hm).trans hg,hg₀,hd,fun hf => ?_⟩
    obtain ⟨hf,hok⟩ := Bool.or_eq_false_iff.mp hf
    exact (hw hf).renew ht (by simpa using hok) hm hs
  | forget hk hl =>
    obtain ⟨hg,hg₀,hd,hw⟩ := hb
    refine ⟨still rfl,(congrArg (Manager.get · c) hm).trans hg,hg₀,hd,fun hf => ?_⟩
    exact (hw hf).forget hk hm hs
  | renewed => exact ⟨still rfl,trivial⟩
  | _ => exact hb.elim

/-- Others leave the times of the client's leases. -/
private def SameLeases (c : Str) (s s' : Node) : Prop :=
  ∀ k, Option.Rel Lease.SameTimes ((s.shards k).leases.lookup c) ((s'.shards k).leases.lookup c)

private theorem sameTTLs_others (h : SameTTLs c s₀ s) (hs : SameLeases c s s') : SameTTLs c s₀ s' := by
  intro k
  have hk := hs k
  rw [← h k]
  generalize (s.shards k).leases.lookup c = x, (s'.shards k).leases.lookup c = y at hk
  cases hk with
  | none => rfl
  | some hk => exact congrArg some hk.2.1

private theorem Renewing.others {todo lapsed : Finset Nat} {now : Int64} (h : Renewing c s₀ s p todo lapsed now)
    (hm : s'.manager = s.manager) (hs : SameLeases c s s') : Renewing c s₀ s' p todo lapsed now := by
  refine ⟨by rw [hm]; exact h.kept,by rw [hm]; exact h.old,h.gone,?_⟩
  intro k hk
  rw [hm] at hk
  rcases h.renewed k hk with ht | hl | ⟨ls,hl,he⟩
  · exact .inl ht
  · exact .inr (.inl hl)
  · have hr := hs k
    rw [hl] at hr
    generalize (s'.shards k).leases.lookup c = y at hr
    cases hr with
    | some hr => exact .inr (.inr ⟨_,rfl,by rw [hr.2.2,hr.2.1,he]⟩)

private theorem beat_others {call : Call} (hb : Beat c s₀ s call) (hm : s'.manager = s.manager)
    (hs : SameLeases c s s') : Beat c s₀ s' call := by
  cases call with
  | keepAlive => exact hm.trans hb
  | listRenewals => exact ⟨hm.trans hb.1,hb.2⟩
  | stampRenewals => exact ⟨hm.trans hb.1,hb.2⟩
  | renew => exact ⟨hm ▸ hb.1,hb.2.1,hb.2.2.1,fun hf => (hb.2.2.2 hf).others hm hs⟩
  | done => trivial
  | _ => exact hb.elim

/-- The n-th call is in progress, and it is the only one. -/
private structure Busy (c : Str) (s₀ : Node) (n : Nat) (s : Node) : Prop where
  ttls : SameTTLs c s₀ s
  only : ∀ i call, s.calls[i]? = some call → call.finished = false → i = n
  beat : ∀ call, s.calls[n]? = some call → Beat c s₀ s call

private def Underway (s : Node) (n : Nat) : Prop := ∃ call, s.calls[n]? = some call ∧ call.finished = false

private theorem not_idle (h : Underway s n) : s.idle ≠ true := by
  obtain ⟨call,hc,hf⟩ := h
  intro hi
  have := List.all_eq_true.mp hi call (List.mem_of_getElem? hc)
  rw [hf] at this
  cases this

private theorem env_of_inTurn (h : InTurn c s a) : NodeEnv s a := by
  cases a with
  | make | move => trivial
  | commit => exact h.1

private theorem Busy.moved {call : Call} {r : Moved} (h : Busy c s₀ n s) (hc : s.calls[n]? = some call)
    (hr : CallStep c s.manager s.shards ch call r) : Busy c s₀ n ⟨r.manager,s.after r.commit,s.calls.set n r.call⟩ := by
  obtain ⟨ht,hbeat⟩ := beat_step ⟨r.manager,s.after r.commit,s.calls.set n r.call⟩ (h.beat call hc) h.ttls hr rfl rfl
  refine ⟨ht,?_,?_⟩
  · intro j call' hj hf
    by_contra hne
    rw [List.getElem?_set_ne (Ne.symm hne)] at hj
    exact hne (h.only j call' hj hf)
  · intro call' hj
    rw [List.getElem?_set_self (List.getElem?_eq_some_iff.mp hc).1] at hj
    cases hj
    exact hbeat

private theorem sameLeases_commit (hi : ∀ k, Inv (s.shards k))
    (ha : cmd.lockName ≠ none ∨ cmd.clientID ≠ c ∨ (cmd.expires c ≠ none ∧ ¬ (s.shards k).Lapses c cmd)) :
    SameLeases c s { s with shards := s.after (some (k,cmd)) } := by
  intro j
  change Option.Rel _ _ ((s.after (some (k,cmd)) j).leases.lookup c)
  rw [after_shards]
  split
  · rename_i hj
    subst hj
    exact times_step (hi j) ha
  · exact KeyedMap.rel_refl (fun _ => ⟨rfl,rfl,rfl⟩) _

private theorem busy_step (hi : ∀ k, Inv (s.shards k)) (hb : Underway s n → Busy c s₀ n s) (hlen : n < s.calls.length)
    (ha : InTurn c s a) (hn : s.next c a = some s') (hu : Underway s' n) : Busy c s₀ n s' := by
  cases a with
  | make call =>
    obtain ⟨_,rfl⟩ := make_inversion hn
    obtain ⟨call',hc,hf⟩ := hu
    have hold : s.calls[n]? = some call' := by rwa [List.getElem?_append_left hlen] at hc
    exact absurd ha (not_idle ⟨call',hold,hf⟩)
  | move i ch =>
    obtain ⟨call,r,hc,hr,_,rfl⟩ := move_inversion hn
    have hmoves : call.finished = false := by cases hr <;> rfl
    by_cases hin : i = n
    · subst hin
      exact (hb ⟨call,hc,hmoves⟩).moved hc hr
    · obtain ⟨call',hc',hf'⟩ := hu
      change (s.calls.set i r.call)[n]? = some call' at hc'
      rw [List.getElem?_set_ne hin] at hc'
      exact absurd ((hb ⟨call',hc',hf'⟩).only i call hc hmoves) hin
  | commit k cmd =>
    cases hn
    have hold := hb hu
    have hsame := sameLeases_commit hi (ha.2.resolve_left (not_idle hu))
    exact ⟨sameTTLs_others hold.ttls hsame,hold.only,fun call hc => beat_others (hold.beat call hc) rfl hsame⟩

private theorem reaches_inv (hc : c ≠ []) {ok : Node → NodeAction → Prop} (hok : ∀ {s a}, ok s a → NodeEnv s a)
    (h₀ : ∀ k, Inv (s₀.shards k)) (h : Reaches (Node.next c) ok s₀ s) : ∀ k, Inv (s.shards k) :=
  h.rule (I := fun s : Node => ∀ k, Inv (s.shards k)) h₀ (fun _ _ _ hi ha hn => next_inv hc hi (hok ha) hn)

private theorem next_length (hn : s.next c a = some s') : s.calls.length ≤ s'.calls.length := by
  cases a with
  | make call =>
    obtain ⟨_,rfl⟩ := make_inversion hn
    exact List.length_append ▸ Nat.le_add_right _ _
  | move i ch =>
    obtain ⟨call,r,_,_,_,rfl⟩ := move_inversion hn
    exact (List.length_set ..).ge
  | commit => cases hn; exact Nat.le_refl _

private theorem made_busy (hi : s₀.idle = true) :
    Busy c s₀ s₀.calls.length { s₀ with calls := s₀.calls ++ [.keepAlive] } := by
  refine ⟨fun _ => rfl,?_,?_⟩
  · intro i call hc hf
    rcases Nat.lt_or_ge i s₀.calls.length with hlt | hge
    · rw [List.getElem?_append_left hlt] at hc
      exact absurd hi (not_idle ⟨call,hc,hf⟩)
    · rw [List.getElem?_append_right hge,List.getElem?_singleton] at hc
      split at hc
      · omega
      · cases hc
  · intro call hc
    rw [List.getElem?_append_right (Nat.le_refl _),Nat.sub_self] at hc
    cases hc
    rfl

private theorem deadline_step {m : Manager} {shards : Nat → FSM} {call : Call} {r : Moved}
    (hr : CallStep c m shards ch call r) (hd : r.call = .done (.deadline D)) :
    ∃ p now, call = .renew p ∅ ∅ now D false ∧ r.manager = m ∧ r.commit = none := by
  -- only a KeepAlive whose renewals are all done returns a deadline
  cases hr with
  | @renewed p now deadline failed =>
    cases failed with
    | true => cases hd
    | false =>
      cases hd
      exact ⟨p,now,rfl,rfl,rfl⟩
  | attach | ensureLease | keepAlive =>
    rcases lookup_cases c m _ with hl | ⟨p,_,hl⟩
    · rw [hl] at hd
      cases hd
    · rw [hl] at hd
      cases hd
  | grantLease =>
    have hd := Call.done.inj hd
    split at hd
    · cases hd
    · cases hd
  | close =>
    cases hg : m.get c with
    | none => rw [hg] at hd; cases hd
    | some p => rw [hg] at hd; cases hd
  | _ => cases hd

private theorem heartbeat_renewed (hc : c ≠ []) (h : Heartbeat c s₀ s D) : ∃ p now,
    s₀.manager.get c = some p ∧ s.manager.get c = some p ∧ D = leaseDeadline now (s₀.manager.deref p).ttlMS ∧
    Renewing c s₀ s p ∅ ∅ now ∧ SameTTLs c s₀ s := by
  obtain ⟨t,ch,ht,hn⟩ := h.returns
  have hinv : ∀ k, Inv (s₀.shards k) := reaches_inv hc env_of_inTurn (fun _ => inv_new true) h.reached
  obtain ⟨_,_,hbusy⟩ := ht.rule
    (I := fun t : Node => (∀ k, Inv (t.shards k)) ∧ s₀.calls.length < t.calls.length ∧
      (Underway t s₀.calls.length → Busy c s₀ s₀.calls.length t))
    ⟨hinv,by simp,fun _ => made_busy h.idle⟩
    (fun _ _ _ hi ha hn => ⟨next_inv hc hi.1 (env_of_inTurn ha) hn,hi.2.1.trans_le (next_length hn),
      busy_step hi.1 hi.2.2 hi.2.1 ha hn⟩)
  obtain ⟨call,r,hcall,hr,_,rfl⟩ := move_inversion hn
  have hlen : s₀.calls.length < t.calls.length := (List.getElem?_eq_some_iff.mp hcall).1
  have hdone : r.call = .done (.deadline D) := by
    have hd := h.deadline
    rw [List.getElem?_set_self hlen] at hd
    exact Option.some.inj hd
  obtain ⟨p,now,rfl,hm,hcom⟩ := deadline_step hr hdone
  have hb := hbusy ⟨_,hcall,rfl⟩
  obtain ⟨hg,hg₀,hd,hw⟩ := hb.beat _ hcall
  have hw := hw rfl
  rw [hm,hcom]
  exact ⟨p,now,hg₀,hg,hd,⟨hw.kept,hw.old,hw.gone,hw.renewed⟩,hb.ttls⟩

/-- The deadline that a heartbeat reports counts from the TTL of the session, and
each lease was renewed with its own TTL. So every lease of the session lasts to
the reported deadline exactly when its TTL reaches as far as that of the session. -/
theorem heartbeat_deadline_iff (hc : c ≠ []) (h : Heartbeat c s₀ s D) :
    ∃ p now, s₀.manager.get c = some p ∧ s.manager.get c = some p ∧
      D = leaseDeadline now (s₀.manager.deref p).ttlMS ∧
      ((∀ k ∈ (s.manager.deref p).shards, ∃ ls ∈ (s.shards k).leases.lookup c, D ≤ ls.expireAt) ↔
        TTLsReach c s₀ p now) := by
  obtain ⟨p,now,hg₀,hg,hd,hw,httl⟩ := heartbeat_renewed hc h
  refine ⟨p,now,hg₀,hg,hd,?_⟩
  -- each lease of the session was renewed, and has the TTL it had before the call
  have lease : ∀ k ∈ (s.manager.deref p).shards, ∃ ls ls₀, (s.shards k).leases.lookup c = some ls ∧
      (s₀.shards k).leases.lookup c = some ls₀ ∧ ls.expireAt = leaseDeadline now ls₀.ttlMS := by
    intro k hk
    rcases hw.renewed k hk with hx | hx | ⟨ls,hl,he⟩
    · exact absurd hx (Finset.notMem_empty k)
    · exact absurd hx (Finset.notMem_empty k)
    · have ht := httl k
      rw [hl] at ht
      obtain ⟨ls₀,hl₀,hsame⟩ := Option.map_eq_some_iff.mp ht.symm
      exact ⟨ls,ls₀,hl,hl₀,by rw [he,hsame]⟩
  constructor
  · intro hall k hk ls₀ hl₀
    have hin := hw.kept k hk ((KeyedMap.mem_iff_lookup _ _).mpr ⟨ls₀,hl₀⟩)
    obtain ⟨ls,ls₁,hl,hl₁,he⟩ := lease k hin
    obtain ⟨ls',hl',hle⟩ := hall k hin
    cases hl.symm.trans hl'
    cases Option.some.inj (hl₁.symm.trans hl₀)
    rw [← hd,← he]
    exact hle
  · intro hall k hk
    obtain ⟨ls,ls₀,hl,hl₀,he⟩ := lease k hk
    refine ⟨ls,hl,?_⟩
    rw [hd,he]
    exact hall k (hw.old k hk) ls₀ hl₀

/-- Open, EnsureLease and KeepAlive with one TTL. -/
theorem renewed_with_session_ttl : ∃ s₀ s p, Heartbeat (str "a") s₀ s 5000000 ∧ s.manager.get (str "a") = some p ∧
    (s.manager.deref p).shards = {1} ∧
    ∀ k ∈ (s.manager.deref p).shards, ∃ ls ∈ (s.shards k).leases.lookup (str "a"), 5000000 ≤ ls.expireAt := by
  have hrun : ∃ s₀ ∈ exec (Node.next (str "a")) (InTurn (str "a")) {}
      [.make (.open 5),.move 0 {},.move 0 {},.make (.ensureLease 1),.move 1 {},.move 1 {},.move 1 {}],
      ∃ t ∈ exec (Node.next (str "a")) (InTurn (str "a")) { s₀ with calls := s₀.calls ++ [.keepAlive] }
        [.move 2 {},.move 2 {},.move 2 {},.move 2 { shard := 1 }],
      ∃ s ∈ t.next (str "a") (.move 2 {}), s₀.idle = true ∧ s₀.calls.length = 2 ∧
        s.calls[2]? = some (.done (.deadline 5000000)) ∧ s₀.manager.get (str "a") = some 0 ∧
        (s.manager.deref 0).shards = {1} ∧ ∀ k ∈ (s₀.manager.deref 0).shards,
          ∀ ls ∈ (s₀.shards k).leases.lookup (str "a"), ls.ttlMS = (s₀.manager.deref 0).ttlMS := by decide +kernel
  obtain ⟨s₀,h₀,t,ht,s,hs,hi,hlen,hd,hg,hsh,hall⟩ := hrun
  have hb : Heartbeat (str "a") s₀ s 5000000 :=
    ⟨exec_reaches .init h₀,hi,⟨t,{},exec_reaches .init ht,hlen ▸ hs⟩,hlen ▸ hd⟩
  obtain ⟨p,now,hp,hp',_,hiff⟩ := heartbeat_deadline_iff (by decide) hb
  cases hg.symm.trans hp
  refine ⟨s₀,s,0,hb,hp',hsh,hiff.mpr (fun k hk ls hl => ?_)⟩
  rw [hall k hk ls hl]
  exact Int64.le_refl _

/-- The client reconnects and asks for a longer TTL. The lease it already has keeps
its own TTL, and the next heartbeat promises more than the shard granted. -/
theorem longer_reopen_overstates_deadline : ∃ s₀ s p k ls, Heartbeat (str "a") s₀ s 5000000 ∧
    s.manager.get (str "a") = some p ∧ k ∈ (s.manager.deref p).shards ∧
    (s.shards k).leases.lookup (str "a") = some ls ∧ ls.expireAt = 1000000 := by
  have hrun : ∃ s₀ ∈ exec (Node.next (str "a")) (InTurn (str "a")) {}
      [.make (.open 1),.move 0 {},.move 0 {},.make (.ensureLease 1),.move 1 {},.move 1 {},.move 1 {},
        .make (.open 5),.move 2 {},.move 2 {}],
      ∃ t ∈ exec (Node.next (str "a")) (InTurn (str "a")) { s₀ with calls := s₀.calls ++ [.keepAlive] }
        [.move 3 {},.move 3 {},.move 3 {},.move 3 { shard := 1 }],
      ∃ s ∈ t.next (str "a") (.move 3 {}), s₀.idle = true ∧ s₀.calls.length = 3 ∧
        s.calls[3]? = some (.done (.deadline 5000000)) ∧ s.manager.get (str "a") = some 0 ∧
        1 ∈ (s.manager.deref 0).shards ∧
        ∃ ls ∈ (s.shards 1).leases.lookup (str "a"), ls.expireAt = 1000000 := by decide +kernel
  obtain ⟨s₀,h₀,t,ht,s,hs,hi,hlen,hd,hg,hsh,ls,hl,he⟩ := hrun
  exact ⟨s₀,s,0,1,ls,⟨exec_reaches .init h₀,hi,⟨t,{},exec_reaches .init ht,hlen ▸ hs⟩,hlen ▸ hd⟩,hg,hsh,hl,he⟩

end Deadline

/-- Two heartbeats for the client returned deadlines: the first one by s₁, and the
second one, made after that, by s₂. What keeps a lock between them is a matter of the
run alone: the result below asks neither first nor second of it. -/
structure Heartbeats (c : Str) (s₁ : Node) (as : List NodeAction) (s₂ : Node) : Prop where
  reached : Reaches (Node.next c) NodeEnv {} s₁
  first : ∃ (i : Nat) (D : Int64), s₁.calls[i]? = some (.done (.deadline D))
  run : exec (Node.next c) NodeEnv s₁ as = some s₂
  second : ∃ (i : Nat) (D : Int64), s₁.calls.length ≤ i ∧ s₂.calls[i]? = some (.done (.deadline D))

/-- The step does not release a hold of the client, by its token or by revoking its lease. -/
def Spares (c : Str) (s : Node) (a : NodeAction) : Prop :=
  ∀ kc ∈ s.committed c a, (∀ r ∈ kc.2.releases, r.2.1 = c → (s.shards kc.1).hold r.1 ≠ some r.2) ∧
    (kc.2 = .leaseRevoke c → ¬ (s.shards kc.1).Holds c)

/-- The step does not expire the lease of the client in a shard where it had a hold in s₁. -/
def LeasesLast (c : Str) (s₁ s : Node) (a : NodeAction) : Prop :=
  ∀ kc ∈ s.committed c a, (s₁.shards kc.1).Holds c → ¬ (s.shards kc.1).Lapses c kc.2

instance (c : Str) (s : Node) (a : NodeAction) : Decidable (Spares c s a) :=
  inferInstanceAs (Decidable (∀ kc ∈ s.committed c a, _ ∧ _))

instance (c : Str) (s₁ s : Node) (a : NodeAction) : Decidable (LeasesLast c s₁ s a) :=
  inferInstanceAs (Decidable (∀ kc ∈ s.committed c a, _ → _))

/-- What the client held in s₁ it holds in s under the same tokens. -/
def HoldsKept (c : Str) (s₁ s : Node) : Prop :=
  ∀ k name t, (s₁.shards k).hold name = some (c,t) → (s.shards k).hold name = some (c,t)

section Holds

private theorem next_advances (hc : c ≠ []) (hi : ∀ k, Inv (s.shards k)) (ha : NodeEnv s a) (hn : s.next c a = some s')
    (k : Nat) : (s.shards k).fence.Advances (s'.shards k).fence := by
  rcases next_shard hc ha hn k with ⟨he,_⟩ | ⟨cmd,hcmd,_,he⟩
  · rw [he]
    exact .refl _
  · rw [he]
    exact step_advances (hi k) hcmd

private theorem exec_advances (hc : c ≠ []) {as : List NodeAction} (hi : ∀ k, Inv (s.shards k))
    (he : exec (Node.next c) NodeEnv s as = some s') (k : Nat) : (s.shards k).fence.Advances (s'.shards k).fence := by
  induction as generalizing s with
  | nil =>
    cases he
    exact .refl _
  | cons a as ih =>
    obtain ⟨t,ha,ht,he⟩ := exec_cons he
    exact (next_advances hc hi ha ht k).trans (ih (next_inv hc hi ha ht) he)

private theorem holdsKept_step (hc : c ≠ []) (hi : ∀ k, Inv (s.shards k)) (ha : NodeEnv s a)
    (hn : s.next c a = some s') (hk : HoldsKept c s₁ s) (hs : Spares c s a) :
    HoldsKept c s₁ s' ↔ LeasesLast c s₁ s a := by
  constructor
  · rintro hk' ⟨k,cmd⟩ hcom ⟨name,t,hold₁⟩ hlap
    have hold := hk k name t hold₁
    rcases next_shard hc ha hn k with ⟨_,hno⟩ | ⟨cmd',hcmd,hcom',he⟩
    · exact hno cmd hcom
    · cases hcom.symm.trans hcom'
      have hold' := hk' k name t hold₁
      rw [he] at hold'
      have hlease := ((hold_kept_iff (hi k) hcmd hold).mp hold').2
      exact ((mem_leases_step (hi k) (lease_of_hold (hi k) hold) cmd).mp hlease).2 hlap
  · intro hlast k name t hold₁
    have hold := hk k name t hold₁
    rcases next_shard hc ha hn k with ⟨he,_⟩ | ⟨cmd,hcmd,hcom,he⟩
    · rw [he]
      exact hold
    · rw [he]
      obtain ⟨hrel,hrev⟩ := hs (k,cmd) hcom
      refine (hold_kept_iff (hi k) hcmd hold).mpr ⟨fun hr => hrel _ hr rfl hold,?_⟩
      refine (mem_leases_step (hi k) (lease_of_hold (hi k) hold) cmd).mpr ⟨fun hx => hrev hx ⟨name,t,hold⟩,?_⟩
      exact hlast (k,cmd) hcom ⟨name,t,hold₁⟩

private theorem holdsKept_run (hc : c ≠ []) {as : List NodeAction} (hi₁ : ∀ k, Inv (s₁.shards k))
    (hi : ∀ k, Inv (s.shards k)) (hadv : ∀ k, (s₁.shards k).fence.Advances (s.shards k).fence)
    (he : exec (Node.next c) NodeEnv s as = some s₂) (hk : HoldsKept c s₁ s)
    (hs : Along (Node.next c) (fun s a _ => Spares c s a) s as) :
    HoldsKept c s₁ s₂ ↔ Along (Node.next c) (fun s a _ => LeasesLast c s₁ s a) s as := by
  induction as generalizing s with
  | nil =>
    cases he
    exact iff_of_true hk trivial
  | cons a as ih =>
    obtain ⟨t,ha,ht,he⟩ := exec_cons he
    obtain ⟨hspare,hrest⟩ := hs t ht
    have hit := next_inv hc hi ha ht
    have hadvt : ∀ k, (s₁.shards k).fence.Advances (t.shards k).fence :=
      fun k => (hadv k).trans (next_advances hc hi ha ht k)
    have hstep := holdsKept_step hc hi ha ht hk hspare
    simp only [Along,ht,Option.mem_some_iff,forall_eq']
    constructor
    · intro hk₂
      have hkt : HoldsKept c s₁ t := by
        intro k name n hold
        by_contra hlost
        -- a hold that was lost does not come back under its token
        have hn : n ≤ (t.shards k).seq := (fence_bounded (hi₁ k) hold).trans (hadvt k).counter
        exact (exec_advances hc hit he k).never_returns hlost hn (hk₂ k name n hold)
      exact ⟨hstep.mp hkt,(ih hit hadvt he hkt hrest).mp hk₂⟩
    · rintro ⟨hlast,hlasts⟩
      exact (ih hit hadvt he (hstep.mpr hlast) hrest).mpr hlasts

end Holds

/-- Two heartbeats returned deadlines and nothing released the holds of the client
in between. Then the client kept all its holds exactly when no lease below them
expired in between: no lapse is reported by a heartbeat. -/
theorem heartbeats_keep_locks_iff (hc : c ≠ []) {as : List NodeAction} (h : Heartbeats c s₁ as s₂)
    (hs : Along (Node.next c) (fun s a _ => Spares c s a) s₁ as) :
    HoldsKept c s₁ s₂ ↔ Along (Node.next c) (fun s a _ => LeasesLast c s₁ s a) s₁ as := by
  have hi : ∀ k, Inv (s₁.shards k) := reaches_inv hc (fun h => h) (fun _ => inv_new true) h.reached
  exact holdsKept_run hc hi hi (fun _ => .refl _) h.run (fun _ _ _ hk => hk) hs

/-- Between two heartbeats the lease is met by a sweep that finds it too early. -/
theorem lock_kept_past_early_sweep : ∃ s₁ as s₂, Heartbeats (str "a") s₁ as s₂ ∧
    (s₁.shards 1).hold (str "k") = some (str "a",1) ∧ HoldsKept (str "a") s₁ s₂ := by
  let as : List NodeAction :=
    [.commit 1 (.leaseExpire (str "a") 4000000),.make .keepAlive,.move 3 {},.move 3 {},.move 3 { now := 4000000 },
      .move 3 { shard := 1 },.move 3 {}]
  have hrun : ∃ s₁ ∈ exec (Node.next (str "a")) NodeEnv {}
      [.make (.open 5),.move 0 {},.move 0 {},.make (.ensureLease 1),.move 1 {},.move 1 {},.move 1 {},
        .commit 1 (.acquireLock (str "k") (str "a") false),
        .make .keepAlive,.move 2 {},.move 2 {},.move 2 {},.move 2 { shard := 1 },.move 2 {}],
      ∃ s₂ ∈ exec (Node.next (str "a")) NodeEnv s₁ as, s₁.calls[2]? = some (.done (.deadline 5000000)) ∧
        s₁.calls.length = 3 ∧ s₂.calls[3]? = some (.done (.deadline 9000000)) ∧
        (s₁.shards 1).hold (str "k") = some (str "a",1) ∧
        Along (Node.next (str "a")) (fun s a _ => Spares (str "a") s a) s₁ as ∧
        Along (Node.next (str "a")) (fun s a _ => LeasesLast (str "a") s₁ s a) s₁ as := by decide +kernel
  obtain ⟨s₁,h₁,s₂,h₂,hd₁,hlen,hd₂,hk,hs,hlast⟩ := hrun
  have h : Heartbeats (str "a") s₁ as s₂ := ⟨exec_reaches .init h₁,⟨2,_,hd₁⟩,h₂,⟨3,_,hlen.le,hd₂⟩⟩
  exact ⟨s₁,as,s₂,h,hk,(heartbeats_keep_locks_iff (by decide) h hs).mpr hlast⟩

/-- Between two heartbeats a sweep expires the lease and the lock is lost. The
second heartbeat meets NOT_FOUND, forgets the shard and succeeds. -/
theorem lapse_absorbed_by_heartbeat : ∃ s₁ as s₂, Heartbeats (str "a") s₁ as s₂ ∧
    Along (Node.next (str "a")) (fun s a _ => Spares (str "a") s a) s₁ as ∧
    (s₁.shards 1).hold (str "k") = some (str "a",1) ∧ (s₂.shards 1).hold (str "k") = none := by
  let as : List NodeAction :=
    [.commit 1 (.leaseExpire (str "a") 5000000),.make .keepAlive,.move 3 {},.move 3 {},.move 3 { now := 5000000 },
      .move 3 { shard := 1 },.move 3 { shard := 1 },.move 3 {}]
  have hrun : ∃ s₁ ∈ exec (Node.next (str "a")) NodeEnv {}
      [.make (.open 5),.move 0 {},.move 0 {},.make (.ensureLease 1),.move 1 {},.move 1 {},.move 1 {},
        .commit 1 (.acquireLock (str "k") (str "a") false),
        .make .keepAlive,.move 2 {},.move 2 {},.move 2 {},.move 2 { shard := 1 },.move 2 {}],
      ∃ s₂ ∈ exec (Node.next (str "a")) NodeEnv s₁ as, s₁.calls[2]? = some (.done (.deadline 5000000)) ∧
        s₁.calls.length = 3 ∧ s₂.calls[3]? = some (.done (.deadline 10000000)) ∧
        Along (Node.next (str "a")) (fun s a _ => Spares (str "a") s a) s₁ as ∧
        (s₁.shards 1).hold (str "k") = some (str "a",1) ∧ (s₂.shards 1).hold (str "k") = none := by decide +kernel
  obtain ⟨s₁,h₁,s₂,h₂,hd₁,hlen,hd₂,hs,hk,hk'⟩ := hrun
  exact ⟨s₁,as,s₂,⟨exec_reaches .init h₁,⟨2,_,hd₁⟩,h₂,⟨3,_,hlen.le,hd₂⟩⟩,hs,hk,hk'⟩

end Zuul.Sessions
