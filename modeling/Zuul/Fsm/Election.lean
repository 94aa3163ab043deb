import Zuul.Fsm.Places

/-! The value a campaign brings along: where it is kept while the client waits, and
what is published when the client takes the key over. -/
namespace Zuul.Fsm
open Lib
variable {f g : FSM} {k c : Str} {lk : Lock} {w : Waiter} {v : Bytes} {t : Nat} {cmd : Command}

/-- The value that is stored for the client at its place in the line: the published
one for the holder, the one of its entry for a waiter. -/
def FSM.bid (f : FSM) (k c : Str) : Option Bytes :=
  (f.locks.lookup k).bind (fun lk =>
    if lk.holder = c then some lk.value else (lk.queue.find? (fun w => w.clientID == c)).map Waiter.value)

namespace Lines
variable {a : Lines} {clock : Clock}

private theorem put_back {name : Str} {line : List Str} (hm : c ∈ (a.put name line).line k)
    (hl : name = k → c ∈ line → c ∈ a.line k ∨ cmd.asks = some (k,c)) :
    c ∈ a.line k ∨ cmd.asks = some (k,c) := by
  rw [line_put] at hm
  split_ifs at hm with hk
  · exact hl hk.symm hm
  · exact .inl hm

private theorem acquire_back {name d : Str} {tryLock : Bool} (ha : cmd.asks = some (name,d))
    (hm : c ∈ (a.acquire clock name d tryLock).1.line k) : c ∈ a.line k ∨ cmd.asks = some (k,c) := by
  by_cases hd : d ∈ a.members
  · rw [acquire,if_neg (not_not.mpr hd)] at hm
    split at hm
    · refine put_back hm (fun hk hc => .inr ?_)
      rw [ha,hk,List.mem_singleton.mp hc]
    · rename_i head tail hl
      split_ifs at hm
      · exact .inl hm
      · exact .inl hm
      · exact .inl hm
      · refine put_back hm (fun hk hc => ?_)
        subst hk
        rcases List.mem_append.mp hc with hc | hc
        · exact .inl (hl ▸ hc)
        · exact .inr (by rw [ha,List.mem_singleton.mp hc])
  · rw [acquire,if_pos hd] at hm
    exact .inl hm

private theorem holder_back {name d : Str} {t : Nat} {o : Outcome} {next : Lines}
    (hn : c ∈ next.line k → c ∈ a.line k ∨ cmd.asks = some (k,c))
    (hm : c ∈ (a.holder clock name d t next o).1.line k) : c ∈ a.line k ∨ cmd.asks = some (k,c) := by
  rw [holder] at hm
  split_ifs at hm
  · exact .inl hm
  · exact .inl hm
  · exact hn hm

private theorem leave_back {d : Str} {o : Outcome} (hm : c ∈ (a.leave d o).1.line k) : c ∈ a.line k := by
  rw [leave] at hm
  split_ifs at hm
  · exact (List.mem_filter.mp hm).1
  · exact hm

/-- Nobody gets into a line without asking. -/
theorem mem_step_back (hm : c ∈ (a.step clock cmd).1.line k) : c ∈ a.line k ∨ cmd.asks = some (k,c) := by
  cases cmd with
  | acquireLock name d tryLock => exact acquire_back rfl hm
  | campaign name d value => exact acquire_back rfl hm
  | releaseLock name d token | resign name d token =>
    refine holder_back (fun hm => put_back hm (fun hk hc => .inl ?_)) hm
    exact List.mem_of_mem_tail (hk ▸ hc)
  | proclaim name d token value => exact holder_back .inl hm
  | cancelWait name d =>
    rw [step] at hm
    split at hm
    · exact .inl hm
    · rename_i head tail hl
      split_ifs at hm
      · refine put_back hm (fun hk hc => .inl ?_)
        subst hk
        rw [hl]
        exact (List.cons_subset_cons head List.erase_subset) hc
      · exact .inl hm
  | leaseGrant d ttlMS now => exact .inl hm
  | leaseKeepAlive d now =>
    rw [step] at hm
    split_ifs at hm <;> exact .inl hm
  | leaseRevoke d => exact .inl (leave_back hm)
  | leaseExpire d now =>
    rw [step] at hm
    split_ifs at hm
    · exact .inl hm
    · exact .inl (leave_back hm)

end Lines

private theorem line_step_back (h : Inv f) (hm : c ∈ (f.step cmd).fsm.line k) :
    c ∈ f.line k ∨ cmd.asks = some (k,c) := by
  have hs : c ∈ (f.step cmd).fsm.lines.line k := hm
  rw [lines_step h cmd] at hs
  exact Lines.mem_step_back hs

section Entry

/-- An entry of a queue that its client did not just make was there before, the same. -/
theorem entry_step (h : Inv f) (hn : cmd.Named) (ha : cmd.asks ≠ some (k,w.clientID))
    (hk : (f.step cmd).fsm.locks.lookup k = some lk) (hw : w ∈ lk.queue) :
    ∃ old, f.locks.lookup k = some old ∧ w ∈ old.queue := by
  have hline : w.clientID ∈ f.line k :=
    (line_step_back h (by rw [FSM.line_of_lookup hk]; exact List.mem_cons_of_mem _ (List.mem_map_of_mem hw))).resolve_right ha
  have hdist := ((step_inv h hn).locks hk).distinct
  obtain ⟨told,ht,_⟩ := step_turn h hn k
  rw [FSM.line] at hline
  generalize f.locks.lookup k = o, (f.step cmd).fsm.locks.lookup k = o' at ht hline hk
  cases ht with
  | same => exact ⟨lk,hk,hw⟩
  | granted => cases hk; cases hw
  | joined old d n =>
    cases hk
    rcases List.mem_append.mp hw with hw | hw
    · exact ⟨old,rfl,hw⟩
    · -- the new entry is of a client that was not in the line
      cases List.mem_singleton.mp hw
      rw [enqueued_line] at hdist
      exact ((List.nodup_append.mp hdist).2.2 _ hline _ List.mem_cons_self rfl).elim
  | handed old =>
    refine ⟨old,rfl,?_⟩
    rw [Lock.next] at hk
    split at hk
    · cases hk
    · rename_i hq
      cases hk
      rw [hq]
      exact List.mem_cons_of_mem _ hw
  | left old d => cases hk; exact ⟨old,rfl,(dequeue_sublist old d).subset hw⟩
  | published old => cases hk; exact ⟨old,rfl,hw⟩

private theorem entry_run (h : Inv f) {log : List Command} (hl : ∀ a ∈ log, a.Named ∧ a.asks ≠ some (k,w.clientID))
    (hk : (f.run log).locks.lookup k = some lk) (hw : w ∈ lk.queue) :
    ∃ old, f.locks.lookup k = some old ∧ w ∈ old.queue := by
  induction log generalizing f with
  | nil => exact ⟨lk,hk,hw⟩
  | cons a log ih =>
    obtain ⟨hn,ha⟩ := hl a List.mem_cons_self
    obtain ⟨mid,hm,hwm⟩ := ih (step_inv h hn) (fun b hb => hl b (List.mem_cons_of_mem _ hb)) hk
    exact entry_step h hn ha hm hwm

end Entry

section Bid

private theorem status_value (h : Inv f) (hk : f.locks.lookup k = some lk) : (f.status k).value = lk.value := by
  simp only [FSM.status,hk,h.holder_ne hk,if_false]

private theorem entry_unique (h : Inv f) (hk : f.locks.lookup k = some lk) {w w' : Waiter} (hw : w ∈ lk.queue)
    (hw' : w' ∈ lk.queue) (he : w.clientID = w'.clientID) : w = w' :=
  List.inj_on_of_nodup_map (List.nodup_cons.mp (h.locks hk).distinct).2 hw hw' he

private theorem bid_holder (hk : f.locks.lookup k = some lk) (hh : lk.holder = c) : f.bid k c = some lk.value := by
  rw [FSM.bid,hk,Option.bind_some,if_pos hh]

private theorem bid_entry (h : Inv f) (hk : f.locks.lookup k = some lk) (hw : w ∈ lk.queue) :
    f.bid k w.clientID = some w.value := by
  have hne : lk.holder ≠ w.clientID := by
    intro he
    exact h.holder_not_queued hk (he ▸ List.mem_map_of_mem hw)
  rw [FSM.bid,hk,Option.bind_some,if_neg hne]
  cases hf : lk.queue.find? (fun x => x.clientID == w.clientID) with
  | none => exact (List.find?_eq_none.mp hf w hw (beq_self_eq_true _)).elim
  | some x =>
    have he : x.clientID = w.clientID := by simpa using List.find?_some hf
    rw [entry_unique h hk (List.mem_of_find?_eq_some hf) hw he]
    rfl

private theorem bid_outside (hc : c ∉ f.line k) : f.bid k c = none := by
  cases hk : f.locks.lookup k with
  | none => rw [FSM.bid,hk]; rfl
  | some lk =>
    rw [FSM.line_of_lookup hk,Lock.line,List.mem_cons,not_or] at hc
    rw [FSM.bid,hk,Option.bind_some,if_neg (Ne.symm hc.1),Option.map_eq_none_iff,List.find?_eq_none]
    intro w hw he
    exact hc.2 (List.mem_map.mpr ⟨w,hw,beq_iff_eq.mp he⟩)

end Bid

/-- The client has no other value stored for the key than the one it campaigns with. -/
def FSM.FreshBid (f : FSM) (k c : Str) (v : Bytes) : Prop := ∀ u, f.bid k c = some u → u = v

instance (f : FSM) (k c : Str) (v : Bytes) : Decidable (f.FreshBid k c v) :=
  match h : f.bid k c with
  | none => .isTrue (fun u hu => by rw [h] at hu; cases hu)
  | some u => decidable_of_iff (u = v) ⟨fun hu u' hu' => by rw [h] at hu'; cases hu'; exact hu,fun hf => hf u h⟩

section Campaign

private theorem freshBid_of_some {u : Bytes} (hu : f.bid k c = some u) : f.FreshBid k c v ↔ u = v :=
  ⟨fun hf => hf u hu,fun he u' hu' => by rw [hu] at hu'; cases hu'; exact he⟩

private theorem freshBid_of_none (hu : f.bid k c = none) : f.FreshBid k c v := fun u hu' => by rw [hu] at hu'; cases hu'

private theorem granted_value (h : Inv f) (ho : (f.acquire k c v false).result.outcome = .granted) :
    ((f.acquire k c v false).fsm.status k).value = v ↔ f.FreshBid k c v := by
  have ht := acquire_cases h k c v false
  generalize f.acquire k c v false = out at ht ho
  cases ht with
  | free hc hk =>
    rw [status_value (grant_inv h hk hc) (grant_lock h hk hc)]
    exact iff_of_true rfl (freshBid_of_none (bid_outside (by rw [FSM.line_of_absent hk]; exact List.not_mem_nil)))
  | holder hc hk hh => rw [status_value h hk,freshBid_of_some (bid_holder hk hh)]
  | _ => cases ho

private theorem queued_entry (h : Inv f) (ho : (f.acquire k c v false).result.outcome = .queued) :
    c ≠ [] ∧ ∃ lk w, (f.acquire k c v false).fsm.locks.lookup k = some lk ∧ w ∈ lk.queue ∧ w.clientID = c ∧
      (w.value = v ↔ f.FreshBid k c v) := by
  have ht := acquire_cases h k c v false
  generalize f.acquire k c v false = out at ht ho
  cases ht with
  | @again lk ls hc hk hh hq =>
    obtain ⟨w,hw,rfl⟩ := List.mem_map.mp hq
    exact ⟨(h.owned hc).2,lk,w,hk,hw,rfl,(freshBid_of_some (bid_entry h hk hw)).symm⟩
  | @join lk ls hc hk hh hq =>
    refine ⟨(h.owned hc).2,_,⟨c,f.seq + 1,v⟩,enqueue_lock f k c lk ls v,List.mem_append_right _ List.mem_cons_self,rfl,?_⟩
    refine iff_of_true rfl (freshBid_of_none (bid_outside ?_))
    rw [FSM.line_of_lookup hk]
    exact not_mem_line hh hq
  | _ => cases ho

/-- Whoever takes a key over without asking for it had an entry, and its value is published. -/
theorem takeover_value (h : Inv f) (hn : cmd.Named) (ha : cmd.asks ≠ some (k,c)) (hk : ∀ t, f.hold k ≠ some (c,t))
    (hk' : (f.step cmd).fsm.hold k = some (c,t)) :
    ∃ lk w, f.locks.lookup k = some lk ∧ w ∈ lk.queue ∧ w.clientID = c ∧ ((f.step cmd).fsm.status k).value = w.value := by
  obtain ⟨lk',hl',hh,_⟩ := FSM.hold_eq_some.mp hk'
  rw [status_value (step_inv h hn) hl']
  have hline : c ∈ f.line k :=
    (line_step_back h (by rw [FSM.line_of_lookup hl',← hh]; exact List.mem_cons_self)).resolve_right ha
  have hhold : ∀ lk, f.locks.lookup k = some lk → lk.holder ≠ c := by
    rintro lk hl rfl
    exact hk lk.token (FSM.hold_of_lookup hl)
  obtain ⟨told,ht,_⟩ := step_turn h hn k
  rw [FSM.line] at hline
  generalize f.locks.lookup k = o, (f.step cmd).fsm.locks.lookup k = o' at ht hline hl' hhold
  cases ht with
  | same => exact (hhold lk' hl' hh).elim
  | granted => cases hline
  | joined old | left old | published old => cases hl'; exact (hhold old rfl hh).elim
  | handed old =>
    rw [Lock.next] at hl'
    split at hl'
    · cases hl'
    · rename_i w queue hq
      cases hl'
      exact ⟨old,w,rfl,by rw [hq]; exact List.mem_cons_self,hh,rfl⟩

end Campaign

/-- A won election publishes the value that was campaigned with exactly if the client
had no other value stored for the key. A grant is read right after the command; a
queued campaign is followed, along any commands in which the client does not ask for
the key again, to the command that makes the client the holder. -/
theorem campaign_publishes_iff (h : Reachable Command.Named f) (k c : Str) (v : Bytes) :
    let out := f.step (.campaign k c v)
    (out.result.outcome = .granted → ((out.fsm.status k).value = v ↔ f.FreshBid k c v)) ∧
    (out.result.outcome = .queued → ∀ log cmd, (∀ a ∈ cmd :: log, a.Named ∧ a.asks ≠ some (k,c)) →
      let g := out.fsm.run log
      (∀ t, g.hold k ≠ some (c,t)) → ∀ t, (g.step cmd).fsm.hold k = some (c,t) →
        (((g.step cmd).fsm.status k).value = v ↔ f.FreshBid k c v)) := by
  intro out
  have hi := (reachable_inv h).bump
  refine ⟨fun ho => granted_value hi ho,?_⟩
  intro ho log cmd hall g hg t ht
  obtain ⟨hc,lk,w,hk,hw,rfl,hv⟩ := queued_entry hi ho
  have hout : Inv (f.step (.campaign k w.clientID v)).fsm := step_inv (reachable_inv h) hc
  have hlog : ∀ a ∈ log, a.Named ∧ a.asks ≠ some (k,w.clientID) := fun a ha => hall a (List.mem_cons_of_mem _ ha)
  obtain ⟨hn,ha⟩ := hall cmd List.mem_cons_self
  obtain ⟨lk',w',hk',hw',he,hval⟩ := takeover_value (run_inv hout (fun a ha => (hlog a ha).1)) hn ha hg ht
  obtain ⟨old,hold,hwold⟩ := entry_run hout (w := w') (by rw [he]; exact hlog) hk' hw'
  cases hk.symm.trans hold
  rw [hval,entry_unique hout hk hwold hw he]
  exact hv

/-- A first campaign that is queued and promoted. -/
theorem first_campaign_publishes :
    let log : List Command := [.leaseGrant (str "a") 5 0,.leaseGrant (str "b") 5 0,.campaign (str "k") (str "a") (some [1])]
    let f := (new true).run log
    let g := (f.step (.campaign (str "k") (str "b") (some [2]))).fsm
    ((g.step (.leaseRevoke (str "a"))).fsm.status (str "k")).value = some [2] := by
  intro log f g
  have hr : Reachable Command.Named f := (Reachable.start true).run (by decide)
  have hq := (campaign_publishes_iff hr (str "k") (str "b") (some [2])).2 (by decide) [] (.leaseRevoke (str "a"))
    (List.forall_mem_singleton.mpr (by decide)) (fun t ht => by cases ht) 3 (by decide)
  exact hq.mpr (by decide)

/-- A holder and a waiter that campaign again with a new value keep the old one. -/
theorem second_campaign_keeps_old_value :
    let log : List Command := [.leaseGrant (str "a") 5 0,.leaseGrant (str "b") 5 0,.campaign (str "k") (str "a") (some [1]),
      .campaign (str "k") (str "b") (some [2])]
    let f := (new true).run log
    let again := f.step (.campaign (str "k") (str "a") (some [3]))
    let queued := f.step (.campaign (str "k") (str "b") (some [4]))
    again.result.outcome = .granted ∧ (again.fsm.status (str "k")).value = some [1] ∧
    queued.result.outcome = .queued ∧
    ((queued.fsm.step (.leaseRevoke (str "a"))).fsm.status (str "k")).holder = str "b" ∧
    ((queued.fsm.step (.leaseRevoke (str "a"))).fsm.status (str "k")).value = some [2] := by
  decide

end Zuul.Fsm
