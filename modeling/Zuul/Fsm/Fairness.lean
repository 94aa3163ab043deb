import Zuul.Lib.Line
import Zuul.Fsm.Places
import Zuul.Fsm.Reachable

/-! Waiting for a key: nobody overtakes, and every hand-over brings a waiter closer. -/
namespace Zuul.Fsm
open Lib Line
variable {f : FSM} {k c : Str} {cmd : Command} {cmds : List Command} {front back : List Str}

/-- The key and the client of a command that leaves a line: a release or a cancelled wait. -/
def Command.quits : Command → Option (Str × Str)
  | .releaseLock k c _ | .resign k c _ | .cancelWait k c => some (k,c)
  | _ => none

/-- The clients that the key is handed to, in order, while commands are applied. -/
def FSM.grants (f : FSM) (k : Str) : List Command → List Str
  | [] => []
  | cmd :: cmds =>
    let g := (f.step cmd).fsm
    (if g.hold k = f.hold k then none else (g.hold k).map Prod.fst).toList ++ g.grants k cmds

private theorem step_move (h : Inv f) (hn : cmd.Named) (hc : c ∈ f.line k) :
    Move (f.line k) ((f.step cmd).fsm.line k)
      (if (f.step cmd).fsm.hold k = f.hold k then none else ((f.step cmd).fsm.hold k).map Prod.fst) := by
  obtain ⟨told,ht,-⟩ := step_turn h hn k
  have hok : ∀ {lk}, f.locks.lookup k = some lk → lk.Ok f k := h.locks
  unfold FSM.line FSM.hold at *
  generalize f.locks.lookup k = o, (f.step cmd).fsm.locks.lookup k = o' at ht hc hok
  cases ht with
  | same => rw [if_pos (by rfl)]; exact .stay _
  | granted => cases hc
  | joined lk d m =>
    rw [if_pos (by rfl)]
    change Move lk.line (lk.enqueued d m cmd.value).line none
    rw [enqueued_line]
    exact .join _ d
  | left lk d =>
    rw [if_pos (by rfl)]
    change Move lk.line (lk.holder :: (lk.dequeue d).queue.map Waiter.clientID) none
    rw [dequeue_clients]
    exact .leave _ _ d
  | published lk => rw [if_pos (by rfl)]; exact .stay _
  | @handed lk m hm hle =>
    have htok : lk.token ≤ f.seq := ((hok rfl).bounded List.mem_cons_self).2
    change Move (lk.holder :: lk.queue.map Waiter.clientID) _ _
    rw [next_line]
    unfold Lock.next
    cases hq : lk.queue with
    | nil =>
      rw [if_neg (by intro he; cases he)]
      exact .done _ []
    | cons w queue =>
      -- the new token is not the old one
      rw [if_neg (fun he => by have : m = lk.token := (Prod.mk.inj (Option.some.inj he)).2; omega)]
      exact .done _ _

private theorem line_nodup (h : Inv f) (k : Str) : (f.line k).Nodup := by
  unfold FSM.line
  cases hk : f.locks.lookup k with
  | none => exact List.nodup_nil
  | some lk => exact (h.locks hk).distinct

private theorem quits_of_releases {t : Nat} (h : cmd.releases = some (k,c,t)) : cmd.quits = some (k,c) := by
  cases cmd with
  | releaseLock | resign => cases h; rfl
  | _ => cases h

private theorem run_waits (h : Inv f) (hn : ∀ cmd ∈ cmds, cmd.Named) (hc : c ∈ f.line k)
    (hlease : ∀ i ≤ cmds.length, c ∈ (f.run (cmds.take i)).leases)
    (hquit : ∀ cmd ∈ cmds, cmd.quits ≠ some (k,c)) :
    Waits c (f.line k) ((f.run cmds).line k) (f.grants k cmds) := by
  induction cmds generalizing f with
  | nil => exact .here _
  | cons cmd cmds ih =>
    rw [List.forall_mem_cons] at hn hquit
    have hstay : c ∈ (f.step cmd).fsm.line k :=
      step_stays h hc (hlease 1 (Nat.succ_le_succ (Nat.zero_le _))) (fun t ht => (hquit.1 (quits_of_releases ht)).elim)
        (fun he => (hquit.1 (by rw [he]; rfl)).elim)
    refine .move (line_nodup h k) (step_move h hn.1 hc) hstay ?_
    exact ih (step_inv h hn.1) hn.2 hstay (fun i hi => hlease (i + 1) (Nat.succ_le_succ hi)) hquit.2

/-- A client that waits for a key, with its lease and without giving up, is never
overtaken. The key is handed in order to clients that were before it, each hand-over
leaves one fewer, and after as many as there were it is the holder. -/
theorem waits_its_turn (hf : Reachable Command.Named f) (hn : ∀ cmd ∈ cmds, cmd.Named)
    (hline : f.line k = front ++ c :: back) (hlease : ∀ i ≤ cmds.length, c ∈ (f.run (cmds.take i)).leases)
    (hquit : ∀ cmd ∈ cmds, cmd.quits ≠ some (k,c)) :
    (f.grants k cmds).Sublist (front ++ [c]).tail ∧
    (∃ front' back', (f.run cmds).line k = front' ++ c :: back' ∧ front'.Sublist front ∧
      front'.length + (f.grants k cmds).length ≤ front.length) ∧
    ((f.grants k cmds).length = front.length → ∃ t, (f.run cmds).hold k = some (c,t)) := by
  have hc : c ∈ f.line k := by rw [hline]; exact List.mem_append_right _ List.mem_cons_self
  obtain ⟨front',back',hline',hsub,hle,hserved⟩ :=
    (run_waits (reachable_inv hf) hn hc hlease hquit).turn hline
  refine ⟨hserved,⟨front',back',hline',hsub,hle⟩,fun hlen => ?_⟩
  obtain rfl : front' = [] := List.eq_nil_of_length_eq_zero (by omega)
  exact ⟨_,(hold_iff_head _ k c _).mpr ⟨by rw [hline']; rfl,rfl⟩⟩

/-- Two before it in line: one releases the key, and the lease of the other ends. -/
theorem third_in_line_served :
    let f := (new false).run [.leaseGrant (str "a") 5 0,.leaseGrant (str "b") 5 0,.leaseGrant (str "c") 5 0,
      .acquireLock (str "k") (str "a") false,.acquireLock (str "k") (str "b") false,
      .acquireLock (str "k") (str "c") false]
    let cmds : List Command := [.leaseKeepAlive (str "c") 1,.releaseLock (str "k") (str "a") 1,
      .leaseRevoke (str "b"),.acquireLock (str "k") (str "a") true]
    f.grants (str "k") cmds = [str "b",str "c"] ∧ ∃ t, (f.run cmds).hold (str "k") = some (str "c",t) := by
  intro f cmds
  have hr : Reachable Command.Named f := (Reachable.start false).run (by decide)
  have hg : f.grants (str "k") cmds = [str "b",str "c"] := by decide +kernel
  have hl : f.line (str "k") = [str "a",str "b"] ++ str "c" :: [] := by decide +kernel
  have hn : ∀ cmd ∈ cmds, cmd.Named := by decide
  have ht := waits_its_turn hr hn hl (by decide +kernel) (by decide)
  exact ⟨hg,ht.2.2 (by rw [hg]; rfl)⟩

end Zuul.Fsm
