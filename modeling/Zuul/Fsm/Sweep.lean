import Zuul.Fsm.LineRefinement
import Zuul.Fsm.LeaseLife
import Zuul.Fsm.Queries
import Zuul.Fsm.Reachable

/-! The expiry sweep: an expiry is proposed for every lease that was read as due. -/
namespace Zuul.Fsm
open Lib
variable {f g : FSM} {k c : Str} {now : Int64} {ls : Lease}

/-- The expiries of the clients, one after the other. -/
def expireAll (order : List Str) (now : Int64) : List Command := order.map (fun c => .leaseExpire c now)

/-- What a sweep at the time now proposes to the shard. -/
def FSM.expireDue (f : FSM) (now : Int64) : List Command := expireAll (f.dueLeases now) now

section Due

private theorem mem_dueLeases (f : FSM) (now : Int64) (c : Str) :
    c ∈ f.dueLeases now ↔ ∃ ls, f.leases.lookup c = some ls ∧ ls.expireAt ≤ now := by
  simp only [FSM.dueLeases,List.mem_filter,KeyedMap.mem_sortedKeys,KeyedMap.mem_iff_lookup,Option.any_eq_true,
    decide_eq_true_eq]
  constructor
  · rintro ⟨_,ls,hl,he⟩
    exact ⟨ls,hl,he⟩
  · rintro ⟨ls,hl,he⟩
    exact ⟨⟨ls,hl⟩,ls,hl,he⟩

private theorem dueLeases_nodup (f : FSM) (now : Int64) : (f.dueLeases now).Nodup :=
  (KeyedMap.sortedKeys_nodup _).filter _

/-- An expiry of a due lease drops it. -/
theorem expire_due (hl : f.leases.lookup c = some ls) (he : ls.expireAt ≤ now) :
    f.step (.leaseExpire c now) =
      ⟨(f.bump.dropLease c ls).1,(f.bump.dropLease c ls).1.result .leaseExpired,(f.bump.dropLease c ls).2⟩ := by
  have hb : f.bump.leases.lookup c = some ls := hl
  simp only [FSM.step,FSM.dispatch,FSM.leaseExpire,hb,if_neg (Int64.not_lt.mpr he)]

/-- The read of due leases and the check of an expiry agree. -/
theorem expired_iff_due (f : FSM) (now : Int64) (c : Str) :
    (f.step (.leaseExpire c now)).result.outcome = .leaseExpired ↔ c ∈ f.dueLeases now := by
  rw [mem_dueLeases]
  constructor
  · intro ho
    cases hl : f.bump.leases.lookup c with
    | none =>
      simp only [FSM.step,FSM.dispatch,FSM.leaseExpire,hl] at ho
      cases ho
    | some ls =>
      by_cases he : now < ls.expireAt
      · simp only [FSM.step,FSM.dispatch,FSM.leaseExpire,hl,he,if_true] at ho
        cases ho
      · exact ⟨ls,hl,Int64.not_lt.mp he⟩
  · rintro ⟨ls,hl,he⟩
    rw [expire_due hl he]
    rfl

end Due

/-- After the leases of some clients were dropped one by one. -/
structure Swept (cs : List Str) (f g : FSM) : Prop where
  inv : Inv g
  lines : g.lines = cs.foldl Waitlist.withdraw f.lines
  times : ∀ {d}, d ∉ cs → Option.Rel Lease.SameTimes (f.leases.lookup d) (g.leases.lookup d)

private theorem sweep_round (h : Inv f) (hl : f.leases.lookup c = some ls) (he : ls.expireAt ≤ now) :
    Swept [c] f (f.step (.leaseExpire c now)).fsm := by
  -- the other clients that were due still are
  have hs := dropLease_spec (f := f.bump) h.bump hl
  rw [expire_due hl he]
  refine ⟨hs.inv,dropLease_lines h.bump hl,fun hd => hs.times (fun hdc => hd ?_)⟩
  rw [hdc]
  exact List.mem_cons_self

/-- The whole sweep, by induction on the clients still to come. A key may pass to a
client that is itself due; its own round then passes it on. -/
theorem sweep_run (h : Inv f) {cs : List Str} (hn : cs.Nodup) (hd : ∀ c ∈ cs, c ∈ f.dueLeases now) :
    Swept cs f (f.run (expireAll cs now)) := by
  induction cs generalizing f with
  | nil => exact ⟨h,rfl,fun _ => KeyedMap.rel_refl (fun _ => ⟨rfl,rfl,rfl⟩) _⟩
  | cons c cs ih =>
    obtain ⟨hcn,hn⟩ := List.nodup_cons.mp hn
    obtain ⟨ls,hl,he⟩ := (mem_dueLeases f now c).mp (hd c List.mem_cons_self)
    have hr := sweep_round h hl he
    have hdue : ∀ a ∈ cs, a ∈ (f.step (.leaseExpire c now)).fsm.dueLeases now := by
      intro a ha
      obtain ⟨la,hla,hea⟩ := (mem_dueLeases f now a).mp (hd a (List.mem_cons_of_mem _ ha))
      have ht := hr.times (d := a) (fun hm => hcn (List.mem_singleton.mp hm ▸ ha))
      rw [hla] at ht
      rw [mem_dueLeases]
      generalize (f.step (.leaseExpire c now)).fsm.leases.lookup a = y at ht
      cases ht with
      | some ht => exact ⟨_,rfl,ht.2.2.symm ▸ hea⟩
    have hs := ih hr.inv hn hdue
    refine ⟨hs.inv,?_,fun hm => ?_⟩
    · rw [List.foldl_cons]
      exact hs.lines.trans (congrArg (cs.foldl Waitlist.withdraw) hr.lines)
    · rw [List.mem_cons,not_or] at hm
      exact KeyedMap.rel_trans (hr.times (fun hd => hm.1 (List.mem_singleton.mp hd))) (hs.times hm.2)
        (fun _ _ _ ha hb => ⟨hb.1.trans ha.1,hb.2.1.trans ha.2.1,hb.2.2.trans ha.2.2⟩)

private theorem expireDue_perm {log : List Command} (hp : log.Perm (f.expireDue now)) :
    ∃ order, order.Perm (f.dueLeases now) ∧ log = expireAll order now := by
  refine ⟨log.map Command.clientID,?_,?_⟩
  · have hm := hp.map Command.clientID
    rw [FSM.expireDue,expireAll,List.map_map] at hm
    exact hm.trans (.of_eq (List.map_id _))
  · rw [expireAll,List.map_map]
    refine (List.map_id log).symm.trans (List.map_congr_left (fun cmd hc => ?_))
    obtain ⟨c,_,rfl⟩ := List.mem_map.mp (hp.mem_iff.mp hc)
    rfl

private theorem mem_locks_iff_line (f : FSM) (k : Str) : k ∈ f.locks ↔ f.line k ≠ [] := by
  rw [KeyedMap.mem_iff_lookup]
  cases hk : f.locks.lookup k with
  | none => simp [FSM.line_of_absent hk]
  | some lk => simp [FSM.line_of_lookup hk,Lock.line]

private theorem holder_is_head (f : FSM) (k : Str) : (f.hold k).map Prod.fst = (f.line k).head? := by
  cases hk : f.locks.lookup k with
  | none => simp [FSM.hold,FSM.line_of_absent hk,hk]
  | some lk => simp [FSM.hold_of_lookup hk,FSM.line_of_lookup hk,Lock.line]

/-- The sweep reclaims exactly the due leases. A client is listed as due exactly if
its expiry is answered as one. After the expiries of all listed clients, applied in
any order, none of them has a lease or a place in a line, the other leases kept their
times, and every line is the old one without them. -/
theorem sweep_reclaims_due (h : Reachable Command.Named f) (now : Int64) :
    (∀ c, c ∈ f.dueLeases now ↔ (f.step (.leaseExpire c now)).result.outcome = .leaseExpired) ∧
    ∀ log, log.Perm (f.expireDue now) →
      let g := f.run log
      let rest := fun k => (f.line k).filter (· ∉ f.dueLeases now)
      (∀ c ∈ f.dueLeases now, c ∉ g.leases ∧ ∀ k, c ∉ g.line k) ∧
      (∀ c, c ∉ f.dueLeases now → Option.Rel Lease.SameTimes (f.leases.lookup c) (g.leases.lookup c)) ∧
      ∀ k, g.line k = rest k ∧ (k ∉ g.locks ↔ rest k = []) ∧ (g.hold k).map Prod.fst = (rest k).head? := by
  refine ⟨fun c => (expired_iff_due f now c).symm,?_⟩
  intro log hlog g rest
  obtain ⟨order,hp,rfl⟩ := expireDue_perm hlog
  have hs : Swept order f g :=
    sweep_run (reachable_inv h) (hp.nodup_iff.mpr (dueLeases_nodup f now)) (fun _ hc => hp.mem_iff.mp hc)
  have hline : ∀ k, g.line k = rest k := by
    intro k
    change g.lines.line k = rest k
    rw [hs.lines,Waitlist.withdraw_all_line]
    exact List.filter_congr (fun c _ => decide_eq_decide.mpr (not_congr hp.mem_iff))
  refine ⟨fun c hc => ⟨?_,fun k => ?_⟩,fun c hc => hs.times (fun hm => hc (hp.mem_iff.mp hm)),fun k => ⟨hline k,?_,?_⟩⟩
  · have hm : c ∉ (order.foldl Waitlist.withdraw f.lines).members := by
      rw [Waitlist.mem_withdraw_all]
      exact fun hm => hm.2 (hp.mem_iff.mpr hc)
    rw [← hs.lines] at hm
    exact hm
  · rw [hline k]
    exact fun hm => of_decide_eq_true (List.mem_filter.mp hm).2 hc
  · rw [mem_locks_iff_line,hline k,not_not]
  · rw [holder_is_head,hline k]

/-- A key that goes through the hands of two due clients to the one that is left. -/
theorem sweep_passes_key_on :
    let log : List Command := [.leaseGrant (str "a") 1 0,.leaseGrant (str "b") 1 0,.leaseGrant (str "c") 9 0,
      .acquireLock (str "k") (str "a") false,.acquireLock (str "k") (str "b") false,.acquireLock (str "k") (str "c") false]
    let f := (new true).run log
    let g := f.run (f.expireDue 1000000)
    f.dueLeases 1000000 = [str "a",str "b"] ∧ g.line (str "k") = [str "c"] := by
  intro log f g
  have hr : Reachable Command.Named f := (Reachable.start true).run (by decide)
  obtain ⟨_,_,hk⟩ := (sweep_reclaims_due hr 1000000).2 _ (.refl _)
  refine ⟨by decide,(hk (str "k")).1.trans ?_⟩
  decide

end Zuul.Fsm
