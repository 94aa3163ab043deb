import Zuul.Fsm.View

/-! The representation invariant, and the rule for a change at one key. -/
namespace Zuul.Fsm
open Lib

/-- What a stored lock satisfies within its shard. -/
structure Lock.Ok (f : FSM) (k : Str) (lk : Lock) : Prop where
  named : lk.name = k
  distinct : lk.line.Nodup
  leased : ∀ {c}, c ∈ lk.line → c ∈ f.leases
  ordered : (lk.queue.map Waiter.seq).Pairwise (· < ·)
  bounded : ∀ {n}, n ∈ lk.stamps → 0 < n ∧ n ≤ f.seq
  fresh : lk.stamps.Nodup

/-- The shard invariant, with the index clauses waived for the exempt pairs of a
client and a key. A release unhooks the key before it promotes, and a lease drop
leaves the indexes of the dropped lease behind until it is deleted. -/
structure InvBut (exempt : Str → Str → Prop) (f : FSM) : Prop where
  locks : ∀ {k lk}, f.locks.lookup k = some lk → lk.Ok f k
  owned : ∀ {c ls}, f.leases.lookup c = some ls → ls.clientID = c ∧ c ≠ []
  held : ∀ {c ls k}, ¬ exempt c k → f.leases.lookup c = some ls →
    (k ∈ ls.held ↔ ∃ lk, f.locks.lookup k = some lk ∧ lk.holder = c)
  waiting : ∀ {c ls k}, ¬ exempt c k → f.leases.lookup c = some ls →
    (k ∈ ls.waiting ↔ ∃ lk, f.locks.lookup k = some lk ∧ c ∈ lk.queue.map Waiter.clientID)
  apart : ∀ {k k' lk lk' n}, f.locks.lookup k = some lk → f.locks.lookup k' = some lk' →
    n ∈ lk.stamps → n ∈ lk'.stamps → k = k'

/-- The full invariant: nothing is exempt. -/
abbrev Inv (f : FSM) : Prop := InvBut (fun _ _ => False) f

namespace InvBut
variable {exempt exempt' : Str → Str → Prop} {f g : FSM}

/-- Whoever stands in a line has a lease. -/
theorem lease_of_mem (h : InvBut exempt f) {k c : Str} {lk : Lock} (hk : f.locks.lookup k = some lk)
    (hc : c ∈ lk.line) : ∃ ls, f.leases.lookup c = some ls :=
  (KeyedMap.mem_iff_lookup f.leases c).mp ((h.locks hk).leased hc)

/-- Every holder has a lease. -/
theorem holder_lease (h : InvBut exempt f) {k : Str} {lk : Lock} (hk : f.locks.lookup k = some lk) :
    ∃ ls, f.leases.lookup lk.holder = some ls := h.lease_of_mem hk List.mem_cons_self

/-- Every lock has a holder with a name. -/
theorem holder_ne (h : InvBut exempt f) {k : Str} {lk : Lock} (hk : f.locks.lookup k = some lk) :
    lk.holder ≠ [] := by
  obtain ⟨ls,hl⟩ := h.holder_lease hk
  exact (h.owned hl).2

/-- Every waiter has a lease. -/
theorem waiter_lease (h : InvBut exempt f) {k : Str} {lk : Lock} (hk : f.locks.lookup k = some lk)
    {w : Waiter} (hw : w ∈ lk.queue) : ∃ ls, f.leases.lookup w.clientID = some ls :=
  h.lease_of_mem hk (List.mem_cons_of_mem _ (List.mem_map_of_mem hw))

/-- The holder does not wait for its own key. -/
theorem holder_not_queued (h : InvBut exempt f) {k : Str} {lk : Lock} (hk : f.locks.lookup k = some lk) :
    lk.holder ∉ lk.queue.map Waiter.clientID := (List.nodup_cons.mp (h.locks hk).distinct).1

/-- More may be exempt. -/
theorem weaken (h : InvBut exempt f) (hw : ∀ c k, exempt c k → exempt' c k) : InvBut exempt' f where
  locks := h.locks
  owned := h.owned
  held he := h.held (fun hc => he (hw _ _ hc))
  waiting he := h.waiting (fun hc => he (hw _ _ hc))
  apart := h.apart

/-- The revision is no part of the invariant. -/
theorem bump (h : InvBut exempt f) : InvBut exempt f.bump where
  locks hk :=
    have ho := h.locks hk
    ⟨ho.named,ho.distinct,ho.leased,ho.ordered,ho.bounded,ho.fresh⟩
  owned := h.owned
  held := h.held
  waiting := h.waiting
  apart := h.apart

/-- One key changes. The new lock at the key must be sound, its stamps must be
old stamps of the key or beyond the old counter, and the index entries of the
key must follow; every other clause is carried over. -/
theorem update {k : Str} (h : InvBut exempt f) (he : KeyEdit k f g)
    (hx : ∀ {c k'}, k' ≠ k → exempt c k' → exempt' c k')
    (hk : ∀ {lk}, g.locks.lookup k = some lk → lk.Ok g k ∧
      ∀ n ∈ lk.stamps, n ≤ f.seq → ∃ old, f.locks.lookup k = some old ∧ n ∈ old.stamps)
    (hh : ∀ {c ls}, ¬ exempt' c k → g.leases.lookup c = some ls →
      (k ∈ ls.held ↔ ∃ lk, g.locks.lookup k = some lk ∧ lk.holder = c))
    (hw : ∀ {c ls}, ¬ exempt' c k → g.leases.lookup c = some ls →
      (k ∈ ls.waiting ↔ ∃ lk, g.locks.lookup k = some lk ∧ c ∈ lk.queue.map Waiter.clientID)) :
    InvBut exempt' g where
  locks {k' lk} hl := by
    by_cases hkk : k' = k
    · subst hkk
      exact (hk hl).1
    · rw [he.locks hkk] at hl
      have ho := h.locks hl
      exact ⟨ho.named,ho.distinct,fun hc => (he.mem_leases _).mpr (ho.leased hc),ho.ordered,
        fun hn => ⟨(ho.bounded hn).1,(ho.bounded hn).2.trans he.seq⟩,ho.fresh⟩
  owned hc := by
    obtain ⟨ls,hf,hr⟩ := he.lease_back hc
    exact ⟨hr.clientID.trans (h.owned hf).1,(h.owned hf).2⟩
  held {c ls k'} hn hc := by
    by_cases hkk : k' = k
    · subst hkk
      exact hh hn hc
    · obtain ⟨old,hf,hr⟩ := he.lease_back hc
      rw [hr.held hkk,h.held (fun hc => hn (hx hkk hc)) hf,he.locks hkk]
  waiting {c ls k'} hn hc := by
    by_cases hkk : k' = k
    · subst hkk
      exact hw hn hc
    · obtain ⟨old,hf,hr⟩ := he.lease_back hc
      rw [hr.waiting hkk,h.waiting (fun hc => hn (hx hkk hc)) hf,he.locks hkk]
  apart {a b la lb n} ha hb hna hnb := by
    -- a stamp of the changed key is old there, or too large to occur elsewhere
    have cross : ∀ {k' lk lk'}, k' ≠ k → g.locks.lookup k = some lk → g.locks.lookup k' = some lk' →
        n ∈ lk.stamps → n ∈ lk'.stamps → False := by
      intro k' lk lk' hne hl hl' hn hn'
      rw [he.locks hne] at hl'
      obtain ⟨old,ho,hmem⟩ := (hk hl).2 n hn ((h.locks hl').bounded hn').2
      exact hne (h.apart hl' ho hn' hmem)
    by_cases hak : a = k
    · by_cases hbk : b = k
      · exact hak.trans hbk.symm
      · subst hak
        exact (cross hbk ha hb hna hnb).elim
    · by_cases hbk : b = k
      · subst hbk
        exact (cross hak hb ha hnb hna).elim
      · rw [he.locks hak] at ha
        rw [he.locks hbk] at hb
        exact h.apart ha hb hna hnb

end InvBut

/-- The empty shard. -/
theorem inv_new (notifier : Bool) : Inv (new notifier) where
  locks h := by cases h
  owned h := by cases h
  held _ h := by cases h
  waiting _ h := by cases h
  apart h := by cases h

end Zuul.Fsm
