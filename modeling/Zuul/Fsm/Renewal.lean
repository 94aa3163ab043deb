import Zuul.Lib.Runs
import Zuul.Fsm.LeaseLife

/-! Renewals of one lease with stamps in any order, against the deadlines that
were reported for it. -/
namespace Zuul.Fsm
open Lib
variable {c : Str} {w : Watched} {cmd : Command} {log : List Command}

/-- A shard observed for one client: the deadlines reported for its present
lease, and the stamp of the grant or renewal applied to that lease last. -/
structure Watched where
  fsm : FSM
  told : List Int64 := []
  stamp : Int64 := 0

namespace Watched

/-- Apply a command and note what it reported. A lease that is gone takes its
reports with it. -/
def next (c : Str) (w : Watched) (cmd : Command) : Watched :=
  let out := w.fsm.step cmd
  match out.fsm.leases.lookup c, cmd.stamp c with
  | none, _ => { fsm := out.fsm }
  | some _, some now => { fsm := out.fsm, told := out.result.leaseDeadline :: w.told, stamp := now }
  | some _, none => { w with fsm := out.fsm }

/-- No expiry that would be applied now ends the lease before a deadline that was
reported for it. -/
def Kept (c : Str) (w : Watched) : Prop :=
  ∀ now, (w.fsm.step (.leaseExpire c now)).result.outcome = .leaseExpired → ∀ d ∈ w.told, d ≤ now

end Watched

/-- The TTL a command grants the client. -/
def Command.grantTTL (c : Str) : Command → Option Int64
  | leaseGrant d ttlMS _ => if d = c then some ttlMS else none
  | _ => none

/-- The lease keeps the TTL it was created with: it is granted again with the same one only. -/
def SteadyTTL (c : Str) (w : Watched) (cmd : Command) (_ : Watched) : Prop :=
  ∀ ttlMS ∈ cmd.grantTTL c, ∀ ls ∈ w.fsm.leases.lookup c, ls.ttlMS = ttlMS

/-- The stamp of a grant or renewal of a live lease is not before the last one,
both being stretched by the TTL. Without overflow this compares the stamps. -/
def StampInOrder (c : Str) (w : Watched) (cmd : Command) (_ : Watched) : Prop :=
  ∀ now ∈ cmd.stamp c, ∀ ls ∈ w.fsm.leases.lookup c, leaseDeadline w.stamp ls.ttlMS ≤ leaseDeadline now ls.ttlMS

-- by the option: the finite type Int64 is not to be enumerated
instance (c : Str) (w : Watched) (cmd : Command) (w' : Watched) : Decidable (SteadyTTL c w cmd w') :=
  Option.decidableForallMem (cmd.grantTTL c)

instance (c : Str) (w : Watched) (cmd : Command) (w' : Watched) : Decidable (StampInOrder c w cmd w') :=
  Option.decidableForallMem (cmd.stamp c)

/-- Every step of the log, observed for the client c, satisfies P. -/
abbrev Observed (c : Str) (P : Watched → Command → Watched → Prop) (w : Watched) (log : List Command) : Prop :=
  Along (fun w cmd => some (w.next c cmd)) P w log

section Step

/-- The stored deadline is the last one reported and no earlier than the others. -/
private structure Ledger (c : Str) (w : Watched) : Prop where
  inv : Inv w.fsm
  live : ∀ {ls}, w.fsm.leases.lookup c = some ls →
    ls.expireAt = leaseDeadline w.stamp ls.ttlMS ∧ ls.expireAt ∈ w.told ∧ ∀ d ∈ w.told, d ≤ ls.expireAt
  gone : w.fsm.leases.lookup c = none → w.told = []

private theorem expired_iff (f : FSM) (c : Str) (now : Int64) :
    (f.step (.leaseExpire c now)).result.outcome = .leaseExpired ↔
      ∃ ls, f.leases.lookup c = some ls ∧ ls.expireAt ≤ now := by
  change (f.bump.leaseExpire c now).result.outcome = _ ↔ _
  have hb : f.bump.leases = f.leases := rfl
  cases hc : f.leases.lookup c with
  | none => simp [FSM.leaseExpire,hb,hc,FSM.result]
  | some ls =>
    by_cases hlt : now < ls.expireAt
    · simp [FSM.leaseExpire,hb,hc,hlt,FSM.result]
    · simpa [FSM.leaseExpire,hb,hc,hlt,FSM.result] using Int64.not_lt.mp hlt

private theorem Ledger.kept (h : Ledger c w) : w.Kept c := by
  intro now ho d hd
  obtain ⟨ls,hl,he⟩ := (expired_iff w.fsm c now).mp ho
  exact Int64.le_trans ((h.live hl).2.2 d hd) he

private theorem next_gone (hy : (w.fsm.step cmd).fsm.leases.lookup c = none) :
    w.next c cmd = { fsm := (w.fsm.step cmd).fsm } := by simp only [Watched.next,hy]

private theorem next_other {b : Lease} (hy : (w.fsm.step cmd).fsm.leases.lookup c = some b)
    (hs : cmd.stamp c = none) : w.next c cmd = { w with fsm := (w.fsm.step cmd).fsm } := by
  simp only [Watched.next,hy,hs]

private theorem next_told {b : Lease} {now : Int64} (hy : (w.fsm.step cmd).fsm.leases.lookup c = some b)
    (hs : cmd.stamp c = some now) : w.next c cmd =
      { fsm := (w.fsm.step cmd).fsm, told := (w.fsm.step cmd).result.leaseDeadline :: w.told, stamp := now } := by
  simp only [Watched.next,hy,hs]

private theorem told_step (h : Ledger c w) (hi : Inv (w.fsm.step cmd).fsm) {b : Lease} {now : Int64}
    (hy : (w.fsm.step cmd).fsm.leases.lookup c = some b) (hs : cmd.stamp c = some now)
    (hd : (w.fsm.step cmd).result.leaseDeadline = b.expireAt) (he : b.expireAt = leaseDeadline now b.ttlMS)
    (ht : ∀ a, w.fsm.leases.lookup c = some a → a.ttlMS = b.ttlMS) :
    ((w.next c cmd).Kept c ↔ StampInOrder c w cmd (w.next c cmd)) ∧
    (StampInOrder c w cmd (w.next c cmd) → Ledger c (w.next c cmd)) := by
  -- a deadline that lies before the stored one makes an expiry in between come too early
  have hw := next_told hy hs
  have order : StampInOrder c w cmd (w.next c cmd) ↔
      ∀ a, w.fsm.leases.lookup c = some a → a.expireAt ≤ b.expireAt := by
    constructor
    · intro hso a ha
      rw [(h.live ha).1,he,← ht a ha]
      exact hso now hs a ha
    · intro hle now' hs' a ha
      cases hs.symm.trans hs'
      have := hle a ha
      rwa [(h.live ha).1,he,← ht a ha] at this
  have ledger : StampInOrder c w cmd (w.next c cmd) → Ledger c (w.next c cmd) := by
    intro hso
    rw [hw]
    refine ⟨hi,fun {ls} hl => ?_,fun hn => ?_⟩
    · cases hl.symm.trans hy
      refine ⟨he,List.mem_cons.mpr (.inl hd.symm),fun d hm => ?_⟩
      rcases List.mem_cons.mp hm with rfl | hm
      · exact hd ▸ Int64.le_refl _
      · cases ha : w.fsm.leases.lookup c with
        | none => rw [h.gone ha] at hm; cases hm
        | some a => exact Int64.le_trans ((h.live ha).2.2 d hm) (order.mp hso a ha)
    · cases hn.symm.trans hy
  refine ⟨⟨fun hk => order.mpr (fun a ha => ?_),fun hso => (ledger hso).kept⟩,ledger⟩
  rw [hw] at hk
  -- the expiry stamped with the new deadline takes effect
  exact hk b.expireAt ((expired_iff _ c _).mpr ⟨b,hy,Int64.le_refl _⟩) a.expireAt
    (List.mem_cons_of_mem _ (h.live ha).2.1)

private theorem quiet_step (hl : Ledger c (w.next c cmd))
    (hs : ∀ now ls, cmd.stamp c = some now → w.fsm.leases.lookup c ≠ some ls) :
    ((w.next c cmd).Kept c ↔ StampInOrder c w cmd (w.next c cmd)) ∧
    (StampInOrder c w cmd (w.next c cmd) → Ledger c (w.next c cmd)) :=
  ⟨iff_of_true hl.kept (fun now hn ls hc => (hs now ls hn hc).elim),fun _ => hl⟩

private theorem gone_ledger (hi : Inv (w.fsm.step cmd).fsm) (hy : (w.fsm.step cmd).fsm.leases.lookup c = none) :
    Ledger c (w.next c cmd) := by
  rw [next_gone hy]
  exact ⟨hi,fun hl => (by cases hl.symm.trans hy),fun _ => rfl⟩

private theorem watched_step (h : Ledger c w) (hn : cmd.Named) (hs : SteadyTTL c w cmd (w.next c cmd)) :
    ((w.next c cmd).Kept c ↔ StampInOrder c w cmd (w.next c cmd)) ∧
    (StampInOrder c w cmd (w.next c cmd) → Ledger c (w.next c cmd)) := by
  have hi := step_inv h.inv hn
  have ht := step_lease h.inv cmd c
  generalize hx : w.fsm.leases.lookup c = x, hy : (w.fsm.step cmd).fsm.leases.lookup c = y at ht
  cases ht with
  | @kept x y hr hnone =>
    cases hr with
    | none => exact quiet_step (gone_ledger hi hy) (fun now ls _ hc => by cases hx.symm.trans hc)
    | @some a b hab =>
      have hcs := hnone b rfl
      refine quiet_step ?_ (fun now ls hc => by cases hcs.symm.trans hc)
      rw [next_other hy hcs]
      refine ⟨hi,fun {ls} hl => ?_,fun hg => by cases hg.symm.trans hy⟩
      cases hl.symm.trans hy
      have := h.live hx
      rwa [← hab.2.1,← hab.2.2] at this
  | @granted x b ttlMS now hc hb he =>
    subst hc
    refine told_step h hi hy (if_pos rfl) ?_ (hb ▸ he) (fun a ha => ?_)
    · exact he.symm
    · exact (hs ttlMS (if_pos rfl) a ha).trans hb.symm
  | @renewed a b now hc hb he =>
    subst hc
    refine told_step h hi hy (if_pos rfl) ?_ (hb ▸ he) (fun a' ha => ?_)
    · have hb' : w.fsm.bump.leases.lookup c = some a := hx
      rw [he]
      simp only [FSM.step,FSM.dispatch,FSM.leaseKeepAlive,hb']
    · cases hx.symm.trans ha
      exact hb.symm
  | revoked hc => exact quiet_step (gone_ledger hi hy) (fun now ls hcs => by rw [hc] at hcs; cases hcs)
  | expired hc => exact quiet_step (gone_ledger hi hy) (fun now ls hcs => by rw [hc] at hcs; cases hcs)

private theorem observed_iff (h : Ledger c w) (hn : ∀ cmd ∈ log, cmd.Named) (hs : Observed c (SteadyTTL c) w log) :
    Observed c (fun _ _ w' => w'.Kept c) w log ↔ Observed c (StampInOrder c) w log := by
  induction log generalizing w with
  | nil => exact Iff.rfl
  | cons cmd log ih =>
    simp only [Observed,Along,Option.mem_some_iff,forall_eq'] at hs ⊢
    obtain ⟨hk,hl⟩ := watched_step h (hn cmd List.mem_cons_self) hs.1
    rw [hk]
    exact and_congr_right fun ho => ih (hl ho) (fun a ha => hn a (List.mem_cons_of_mem _ ha)) hs.2

end Step

/-- Along a log that leaves the TTL of the client's lease alone: in every state
no expiry can end the lease before a deadline reported for it, exactly if every
renewal carries a stamp that is not before the last one. -/
theorem renewed_lease_kept_iff (c : Str) (notifier : Bool) (log : List Command) (hn : ∀ cmd ∈ log, cmd.Named)
    (hs : Observed c (SteadyTTL c) { fsm := new notifier } log) :
    Observed c (fun _ _ w' => w'.Kept c) { fsm := new notifier } log ↔
      Observed c (StampInOrder c) { fsm := new notifier } log :=
  observed_iff ⟨inv_new notifier,fun hl => (by cases hl),fun _ => rfl⟩ hn hs

/-- A lease granted at 0 and renewed at 500 is safe until then in every state. -/
theorem renewed_once_kept :
    let log : List Command := [.leaseGrant (str "c") 1 0,.leaseKeepAlive (str "c") 500]
    ((new true).runResults log).map (fun r => (r.outcome,r.leaseDeadline)) =
      [(.leaseGranted,1000000),(.leaseRenewed,1000500)] ∧
    Observed (str "c") (fun _ _ w' => w'.Kept (str "c")) { fsm := new true } log := by
  intro log
  exact ⟨by decide +kernel,(renewed_lease_kept_iff (str "c") true log (by decide) (by decide +kernel)).mpr
    (by decide +kernel)⟩

/-- A renewal stamped 100 is committed after one stamped 500. The lease was
reported to last until 1000500, and an expiry stamped 1000100 ends it. -/
theorem late_renewal_shortens_lease :
    let log : List Command := [.leaseGrant (str "c") 1 0,.leaseKeepAlive (str "c") 500,.leaseKeepAlive (str "c") 100]
    Observed (str "c") (SteadyTTL (str "c")) { fsm := new true } log ∧
    ((new true).runResults (log ++ [.leaseExpire (str "c") 1000100])).map (fun r => (r.outcome,r.leaseDeadline)) =
      [(.leaseGranted,1000000),(.leaseRenewed,1000500),(.leaseRenewed,1000100),(.leaseExpired,0)] ∧
    ¬ Observed (str "c") (fun _ _ w' => w'.Kept (str "c")) { fsm := new true } log := by
  intro log
  refine ⟨by decide +kernel,by decide +kernel,fun h => ?_⟩
  obtain ⟨_,h⟩ := h _ rfl
  obtain ⟨_,h⟩ := h _ rfl
  have hk := (h _ rfl).1 1000100 (by decide +kernel) 1000500 (by decide +kernel)
  exact absurd hk (by decide)

end Zuul.Fsm
