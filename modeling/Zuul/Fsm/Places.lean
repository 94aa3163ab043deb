import Zuul.Fsm.LineRefinement
import Zuul.Fsm.Fencing

/-! Who keeps a place in a line, and which commands end a hold. Both are read off
the line specification and carried over to the state machine. -/
namespace Zuul.Fsm
open Lib
variable {f : FSM} {k c : Str} {t : Nat} {cmd : Command}

namespace Lines
variable {a : Lines} {clock : Clock}

/-- The head shows its own token: only then a release takes effect. -/
def GivesUp (a : Lines) (clock : Clock) (k c : Str) (cmd : Command) : Prop :=
  cmd.releases = some (k,c,clock.token k) ∧ (a.line k).head? = some c

/-- Writing one line leaves the others. -/
theorem line_put (a : Lines) (k k' : Str) (line : List Str) :
    (a.put k line).line k' = if k' = k then line else a.line k' := Function.update_apply ..

private theorem acquire_stays (hm : c ∈ a.line k) (name d : Str) (tryLock : Bool) :
    c ∈ (a.acquire clock name d tryLock).1.line k := by
  have join : ∀ line, (∀ x ∈ a.line name, x ∈ line) → c ∈ (a.put name line).line k := by
    intro line hl
    rw [line_put]
    split_ifs with hk
    · exact hl c (hk ▸ hm)
    · exact hm
  by_cases hd : d ∈ a.members
  · rw [acquire,if_neg (not_not.mpr hd)]
    split
    · rename_i hnil
      exact join _ (fun x hx => by rw [hnil] at hx; cases hx)
    · rename_i head tail hcons
      split_ifs
      · exact hm
      · exact hm
      · exact hm
      · exact join _ (fun x hx => List.mem_append_left _ (hcons ▸ hx))
  · rw [acquire,if_pos hd]
    exact hm

private theorem release_stays {name d : Str} {t : Nat} (hm : c ∈ a.line k)
    (hr : ¬ (name = k ∧ d = c ∧ t = clock.token k ∧ (a.line k).head? = some c)) :
    c ∈ (a.holder clock name d t (a.put name (a.line name).tail) .released).1.line k := by
  rw [holder]
  split_ifs with hh ht
  · exact hm
  · exact hm
  · rw [line_put]
    split_ifs with hk
    · subst hk
      rw [not_not] at hh ht
      cases hl : a.line k with
      | nil => rw [hl] at hm; cases hm
      | cons head tail =>
        rw [hl] at hm hh hr
        cases hh
        rcases List.mem_cons.mp hm with rfl | hm
        · exact (hr ⟨rfl,rfl,ht.symm,rfl⟩).elim
        · exact hm
    · exact hm

private theorem leave_stays {d : Str} {o : Outcome} (hm : c ∈ a.line k) (hl : c ∈ (a.leave d o).1.members) :
    c ∈ (a.leave d o).1.line k := by
  rw [leave] at hl ⊢
  split_ifs at hl ⊢
  · exact List.mem_filter.mpr ⟨hm,decide_eq_true hl.2⟩
  · exact hm

/-- A member that neither gives the key up nor has its own wait cancelled keeps its place. -/
theorem mem_step (hm : c ∈ a.line k) (hl : c ∈ (a.step clock cmd).1.members) (hr : ¬ a.GivesUp clock k c cmd)
    (hc : cmd = .cancelWait k c → c ∉ (a.line k).tail) : c ∈ (a.step clock cmd).1.line k := by
  cases cmd with
  | acquireLock name d tryLock => exact acquire_stays hm name d tryLock
  | campaign name d value => exact acquire_stays hm name d false
  | releaseLock name d token | resign name d token =>
    refine release_stays hm ?_
    rintro ⟨rfl,rfl,rfl,hh⟩
    exact hr ⟨rfl,hh⟩
  | proclaim name d token value =>
    rw [step,holder]
    split_ifs <;> exact hm
  | cancelWait name d =>
    rw [step]
    split
    · exact hm
    · rename_i head tail hcons
      split_ifs
      · rw [line_put]
        split_ifs with hk
        · subst hk
          rw [hcons] at hm hc
          rcases List.mem_cons.mp hm with rfl | hm
          · exact List.mem_cons_self
          · refine List.mem_cons_of_mem _ ((List.mem_erase_of_ne ?_).mpr hm)
            rintro rfl
            exact hc rfl hm
        · exact hm
      · exact hm
  | leaseGrant d ttlMS now => exact hm
  | leaseKeepAlive d now =>
    rw [step]
    split_ifs <;> exact hm
  | leaseRevoke d => exact leave_stays hm hl
  | leaseExpire d now =>
    rw [step] at hl ⊢
    split_ifs at hl ⊢
    · exact hm
    · exact leave_stays hm hl

end Lines

/-- The lines after a command are those of the abstract step. -/
theorem lines_step (h : Inv f) (cmd : Command) : (f.step cmd).fsm.lines = (f.bump.lines.step f.bump.clock cmd).1 :=
  (dispatch_refines h.bump cmd).1

/-- The head of the line with its token is the hold. -/
theorem hold_iff_head (f : FSM) (k c : Str) (t : Nat) :
    f.hold k = some (c,t) ↔ (f.line k).head? = some c ∧ f.clock.token k = t := by
  cases hk : f.locks.lookup k with
  | none => simp [FSM.hold,FSM.line,hk]
  | some lk => simp [FSM.hold_of_lookup hk,FSM.line_of_lookup hk,clock_token hk,Lock.line]

/-- A client with a lease keeps its place in a line unless it releases its hold
or its wait is cancelled. -/
theorem step_stays (h : Inv f) (hm : c ∈ f.line k) (hl : c ∈ (f.step cmd).fsm.leases)
    (hr : ∀ t, cmd.releases = some (k,c,t) → f.hold k ≠ some (c,t)) (hc : cmd = .cancelWait k c → c ∉ (f.line k).tail) :
    c ∈ (f.step cmd).fsm.line k := by
  have he := lines_step h cmd
  have hstay : c ∈ (f.bump.lines.step f.bump.clock cmd).1.line k := by
    refine Lines.mem_step hm ?_ ?_ hc
    · rw [← he]
      exact hl
    · rintro ⟨hrel,hh⟩
      exact hr _ hrel ((hold_iff_head f k c _).mpr ⟨hh,rfl⟩)
  rw [← he] at hstay
  exact hstay

/-- A key is not held by a client whatever the token. -/
theorem hold_ne_iff {lk : Lock} (hk : f.locks.lookup k = some lk) :
    (∀ t, f.hold k ≠ some (c,t)) ↔ lk.holder ≠ c := by
  rw [FSM.hold_of_lookup hk]
  constructor
  · rintro h rfl
    exact h lk.token rfl
  · intro h t he
    exact h (Prod.mk.inj (Option.some.inj he)).1

/-- A cancelled wait leaves nobody but the holder in the line. -/
theorem cancelWait_line (h : Inv f) (k c : Str) :
    c ∉ (f.cancelWait k c).fsm.line k ↔ ∀ t, f.hold k ≠ some (c,t) := by
  cases hk : f.locks.lookup k with
  | none =>
    have hidle := cancelWait_idle (f := f) (k := k) (c := c) (fun lk hl => by cases hk.symm.trans hl)
    rw [hidle,FSM.line_of_absent hk,FSM.hold,hk]
    exact ⟨fun _ _ he => (by cases he),fun _ => List.not_mem_nil⟩
  | some lk =>
    rw [hold_ne_iff hk]
    by_cases hq : c ∈ lk.queue.map Waiter.clientID
    · -- a waiter is cut out, and it cannot be the holder as well
      obtain ⟨ls,hc⟩ := h.lease_of_mem hk (List.mem_cons_of_mem _ hq)
      have hh : lk.holder ≠ c := by
        rintro rfl
        exact h.holder_not_queued hk hq
      have hgone : c ∉ (lk.dequeue c).queue.map Waiter.clientID :=
        fun hm => ((mem_dequeue_clients h hk c).mp hm).1 rfl
      rw [cancelWait_found hk hq,FSM.line_of_lookup (cut_lock hc)]
      exact ⟨fun _ => hh,fun _ => not_mem_line hh hgone⟩
    · have hidle := cancelWait_idle (f := f) (k := k) (c := c) (fun lk' hl => by cases hk.symm.trans hl; exact hq)
      rw [hidle,FSM.line_of_lookup hk]
      constructor
      · rintro hn rfl
        exact hn List.mem_cons_self
      · exact fun hh => not_mem_line hh hq

/-- The client holds some key. -/
def FSM.Holds (f : FSM) (c : Str) : Prop := ∃ k t, f.hold k = some (c,t)

private theorem holds_iff_entry (f : FSM) (c : Str) : f.Holds c ↔ ∃ e ∈ f.locks.entries, e.2.holder = c := by
  constructor
  · rintro ⟨k,t,hk⟩
    obtain ⟨lk,hl,hh,_⟩ := FSM.hold_eq_some.mp hk
    exact ⟨⟨k,lk⟩,(KeyedMap.mem_entries_iff _ _ _).mpr hl,hh⟩
  · rintro ⟨⟨k,lk⟩,he,rfl⟩
    exact ⟨k,lk.token,FSM.hold_of_lookup ((KeyedMap.mem_entries_iff _ _ _).mp he)⟩

instance (f : FSM) (c : Str) : Decidable (f.Holds c) := decidable_of_iff' _ (holds_iff_entry f c)

/-- Whoever holds a key has a lease. -/
theorem lease_of_hold (h : Inv f) (hk : f.hold k = some (c,t)) : c ∈ f.leases := by
  obtain ⟨lk,hl,rfl,_⟩ := FSM.hold_eq_some.mp hk
  exact (KeyedMap.mem_iff_lookup _ _).mpr (h.holder_lease hl)

/-- A hold ends exactly when it is released with its token or its lease ends. -/
theorem hold_kept_iff (h : Inv f) (hn : cmd.Named) (hk : f.hold k = some (c,t)) :
    (f.step cmd).fsm.hold k = some (c,t) ↔ cmd.releases ≠ some (k,c,t) ∧ c ∈ (f.step cmd).fsm.leases := by
  obtain ⟨lk,hl,rfl,rfl⟩ := FSM.hold_eq_some.mp hk
  have hq := h.holder_not_queued hl
  constructor
  · intro hk'
    obtain ⟨lk',hl',hh,_⟩ := FSM.hold_eq_some.mp hk'
    refine ⟨fun hr => release_ends h hn hr hk',?_⟩
    exact hh ▸ ((step_inv h hn).locks hl').leased List.mem_cons_self
  · rintro ⟨hr,hlease⟩
    have hstay : lk.holder ∈ (f.step cmd).fsm.line k := by
      refine step_stays h ?_ hlease (fun t ht he => ?_) (fun _ => ?_)
      · rw [FSM.line_of_lookup hl]
        exact List.mem_cons_self
      · rw [hk] at he
        cases he
        exact hr ht
      · rw [FSM.line_of_lookup hl]
        exact hq
    -- the lock was not handed over: the new line would lack its old head
    obtain ⟨told,ht,_⟩ := step_turn h hn k
    rw [FSM.line] at hstay
    rw [FSM.hold,← hk,FSM.hold]
    generalize f.locks.lookup k = o, (f.step cmd).fsm.locks.lookup k = o' at ht hl hstay
    cases ht with
    | same | joined | left | published => rfl
    | granted => cases hl
    | handed lk' hlt =>
      cases hl
      rw [next_line] at hstay
      exact (hq hstay).elim

end Zuul.Fsm
