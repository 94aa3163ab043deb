import Zuul.Lib.Fence
import Zuul.Fsm.Reachable

/-! Fencing tokens over whole histories of a replica. -/
namespace Zuul.Fsm
open Lib
variable {f g p q : FSM} {k c : Str} {t t' : Nat} {cmd : Command}

/-- The holds of a shard under its counter. -/
def FSM.fence (f : FSM) : Fence Str Str := ⟨f.seq,f.hold⟩

/-- No token is beyond the counter. -/
theorem fence_bounded (h : Inv f) : f.fence.Bounded := by
  intro k c t hk
  obtain ⟨lk,hl,_,rfl⟩ := FSM.hold_eq_some.mp hk
  exact ((h.locks hl).bounded List.mem_cons_self).2

private theorem turn_hold {v : Bytes} {lo hi : Nat} {o o' : Option Lock} {told : Bool} (ht : Turn lo hi v k o o' told) :
    let hold := fun o : Option Lock => o.map (fun lk => (lk.holder,lk.token))
    hold o' = hold o ∨ o' = none ∨ ∃ c n, hold o' = some (c,n) ∧ lo < n ∧
      ∀ lk, o = some lk → c ∈ lk.queue.map Waiter.clientID := by
  -- the next holder was waiting, so it is not the last one again
  cases ht with
  | same | joined | left | published => exact .inl rfl
  | granted c hn => exact .inr (.inr ⟨c,_,rfl,hn,nofun⟩)
  | handed lk hn =>
    cases hq : lk.queue with
    | nil => exact .inr (.inl (by rw [Lock.next,hq]))
    | cons w queue =>
      refine .inr (.inr ⟨w.clientID,_,by rw [Lock.next,hq]; rfl,hn,fun lk' he => ?_⟩)
      cases he
      rw [hq]
      exact List.mem_cons_self

/-- Every command of a named client advances the fence. -/
theorem step_advances (h : Inv f) (hn : cmd.Named) : f.fence.Advances (f.step cmd).fsm.fence where
  counter := step_seq h hn
  hold k := by
    obtain ⟨told,ht,_⟩ := step_turn h hn k
    rcases turn_hold ht with he | he | ⟨c,n,hc,hlt,_⟩
    · exact .inl he
    · refine .inr (.inl ?_)
      change (f.step cmd).fsm.hold k = none
      rw [FSM.hold,he]
      rfl
    · exact .inr (.inr ⟨c,n,hc,hlt⟩)

/-- One command cannot end a hold and give the key back to the same client. -/
theorem step_keeps_token (h : Inv f) (hn : cmd.Named) (hk : f.hold k = some (c,t))
    (hk' : (f.step cmd).fsm.hold k = some (c,t')) : t' = t := by
  obtain ⟨lk,hl,hh,_⟩ := FSM.hold_eq_some.mp hk
  obtain ⟨told,ht,_⟩ := step_turn h hn k
  rcases turn_hold ht with he | he | ⟨d,n,hd,_,hq⟩
  · have hsame := hk'.symm.trans (he.trans hk)
    cases hsame
    rfl
  · rw [FSM.hold,he] at hk'
    cases hk'
  · have hsame := hk'.symm.trans hd
    cases hsame
    exact (h.holder_not_queued hl (hh ▸ hq lk hl)).elim

/-- And so does a log of them. -/
theorem run_advances (h : Inv f) {log : List Command} (hl : ∀ cmd ∈ log, cmd.Named) :
    f.fence.Advances (f.run log).fence := by
  induction log generalizing f with
  | nil => exact .refl _
  | cons cmd log ih =>
    have hc := hl cmd List.mem_cons_self
    exact (step_advances h hc).trans (ih (step_inv h hc) (fun a ha => hl a (List.mem_cons_of_mem _ ha)))

/-- The history of one replica from the state q on, with the restores that ok allows. -/
inductive Later (ok : FSM → Snapshot → Prop) (q : FSM) : FSM → Prop where
  | refl : Later ok q q
  | apply {f : FSM} (hf : Later ok q f) (msg : Message) (hm : ∀ cmd, msg = .set cmd → cmd.Named) :
      Later ok q (f.apply msg).1
  | restore {f : FSM} {snap : Snapshot} (hf : Later ok q f) (hs : ok f snap) : Later ok q (f.restore snap).1

/-- Any snapshot of any reachable state, older ones included. -/
def AnySnapshot (_ : FSM) (snap : Snapshot) : Prop := ∃ r, Reachable Command.Named r ∧ r.snapshot.Read snap

/-- A snapshot of a state that the log reaches from where the replica is. -/
def CatchUp (f : FSM) (snap : Snapshot) : Prop :=
  ∃ log : List Command, (∀ cmd ∈ log, cmd.Named) ∧ (f.run log).snapshot.Read snap

private theorem Later.step {ok : FSM → Snapshot → Prop} (hf : Later ok q f) (hn : cmd.Named) :
    Later ok q (f.step cmd).fsm :=
  hf.apply (.set cmd) (fun _ he => by cases he; exact hn)

private theorem Later.run {ok : FSM → Snapshot → Prop} (hf : Later ok q f) {log : List Command}
    (hl : ∀ cmd ∈ log, cmd.Named) : Later ok q (f.run log) := by
  induction log generalizing f with
  | nil => exact hf
  | cons cmd log ih =>
    exact ih (hf.step (hl cmd List.mem_cons_self)) (fun a ha => hl a (List.mem_cons_of_mem _ ha))

private theorem restore_advances (h : Inv f) {snap : Snapshot} (hs : CatchUp f snap) :
    Inv (f.restore snap).1 ∧ f.fence.Advances (f.restore snap).1.fence := by
  obtain ⟨log,hl,hr⟩ := hs
  have hi := run_inv h hl
  obtain ⟨φ,hc⟩ := read_carried hi f hr
  have he : (f.restore snap).1.fence = (f.run log).fence := by
    have hh : (f.restore snap).1.hold = (f.run log).hold := funext hc.hold
    rw [FSM.fence,FSM.fence,hh,hc.seq]
  exact ⟨hc.inv hi,he ▸ run_advances h hl⟩

/-- Along a history that only catches up, the invariant and the fence carry on. -/
theorem later_advances (h : Inv q) (hf : Later CatchUp q f) : Inv f ∧ q.fence.Advances f.fence := by
  induction hf with
  | refl => exact ⟨h,.refl _⟩
  | @apply f _ msg hm ih =>
    cases msg with
    | nil => exact ih
    | unset => exact ⟨ih.1.bump,ih.2⟩
    | set cmd => exact ⟨step_inv ih.1 (hm cmd rfl),ih.2.trans (step_advances ih.1 (hm cmd rfl))⟩
  | restore _ hs ih =>
    have hr := restore_advances ih.1 hs
    exact ⟨hr.1,ih.2.trans hr.2⟩

/-- Key, client and token of the commands that must show a token. -/
def Command.fenced : Command → Option (Str × Str × Nat)
  | .releaseLock k c t | .resign k c t | .proclaim k c t _ => some (k,c,t)
  | _ => none

def Command.releases : Command → Option (Str × Str × Nat)
  | .releaseLock k c t | .resign k c t => some (k,c,t)
  | _ => none

/-- A fenced command did what it is for: the head left the line, or the value was published. -/
def TakesEffect (f : FSM) (cmd : Command) : Prop :=
  match cmd with
  | .releaseLock k _ _ | .resign k _ _ =>
    (f.step cmd).result.outcome = .released ∧ (f.step cmd).fsm.line k = (f.line k).tail
  | .proclaim k c t v => (f.step cmd).result.outcome = .valueUpdated ∧ (f.step cmd).fsm.owner k = some (c,t,v)
  | _ => False

section Fenced

private theorem hold_cases (f : FSM) (k c : Str) (t : Nat) :
    (f.hold k = some (c,t) ∧ ∃ lk, f.locks.lookup k = some lk ∧ lk.holder = c ∧ lk.token = t) ∨
    (f.hold k ≠ some (c,t) ∧ ((∃ lk, f.locks.lookup k = some lk ∧ lk.holder = c ∧ lk.token ≠ t) ∨
      ∀ lk, f.locks.lookup k = some lk → lk.holder ≠ c)) := by
  by_cases hold : f.hold k = some (c,t)
  · exact .inl ⟨hold,FSM.hold_eq_some.mp hold⟩
  · refine .inr ⟨hold,?_⟩
    rcases holder_cases f k c with ⟨lk,hk,hh⟩ | hn
    · exact .inl ⟨lk,hk,hh,fun ht => hold (FSM.hold_eq_some.mpr ⟨lk,hk,hh,ht⟩)⟩
    · exact .inr hn

private theorem release_fenced (h : Inv f) (k c : Str) (t : Nat) :
    ((f.release k c t).result.outcome = .released ∧ (f.release k c t).fsm.line k = (f.line k).tail ↔
      f.hold k = some (c,t)) ∧
    (f.hold k ≠ some (c,t) → (f.release k c t).fsm = f) := by
  rcases hold_cases f k c t with ⟨hold,lk,hk,hh,ht⟩ | ⟨hold,⟨lk,hk,hh,ht⟩ | hn⟩
  · have hline : (f.giveUp k lk).1.line k = (f.line k).tail := by
      rw [FSM.line,giveUp_lock h hk,next_line,FSM.line_of_lookup hk]
      rfl
    rw [release_holder h hk hh ht]
    exact ⟨⟨fun _ => hold,fun _ => ⟨rfl,hline⟩⟩,fun hne => (hne hold).elim⟩
  · rw [release_stale h hk hh ht]
    exact ⟨iff_of_false (fun he => by cases he.1) hold,fun _ => rfl⟩
  · rw [release_other hn]
    exact ⟨iff_of_false (fun he => by cases he.1) hold,fun _ => rfl⟩

private theorem proclaim_fenced (h : Inv f) (k c : Str) (t : Nat) (v : Bytes) :
    ((f.proclaim k c t v).result.outcome = .valueUpdated ∧ (f.proclaim k c t v).fsm.owner k = some (c,t,v) ↔
      f.hold k = some (c,t)) ∧
    (f.hold k ≠ some (c,t) → (f.proclaim k c t v).fsm = f) := by
  rcases hold_cases f k c t with ⟨hold,lk,hk,hh,ht⟩ | ⟨hold,⟨lk,hk,hh,ht⟩ | hn⟩
  · have hl : (f.setLock k { lk with value := v }).locks.lookup k = some { lk with value := v } :=
      AList.lookup_insert _
    have hown : (f.setLock k { lk with value := v }).owner k = some (c,t,v) := by
      rw [FSM.owner_of_lookup hl,hh,ht]
    rw [proclaim_holder h hk hh ht]
    exact ⟨⟨fun _ => hold,fun _ => ⟨rfl,hown⟩⟩,fun hne => (hne hold).elim⟩
  · rw [proclaim_stale h hk hh ht]
    exact ⟨iff_of_false (fun he => by cases he.1) hold,fun _ => rfl⟩
  · rw [proclaim_other hn]
    exact ⟨iff_of_false (fun he => by cases he.1) hold,fun _ => rfl⟩

/-- A fenced command takes effect exactly on the hold it shows, and otherwise
leaves all but the revision. -/
theorem fenced_effect (h : Inv f) (hc : cmd.fenced = some (k,c,t)) :
    (TakesEffect f cmd ↔ f.hold k = some (c,t)) ∧ (f.hold k ≠ some (c,t) → (f.step cmd).fsm = f.bump) := by
  cases cmd with
  | releaseLock | resign => cases hc; exact release_fenced h.bump k c t
  | proclaim _ _ _ v => cases hc; exact proclaim_fenced h.bump k c t v
  | _ => cases hc

/-- After a release with a token that was shown, that hold is over. -/
theorem release_ends (h : Inv f) (hn : cmd.Named) (hc : cmd.releases = some (k,c,t)) :
    (f.step cmd).fsm.hold k ≠ some (c,t) := by
  have hf : cmd.fenced = some (k,c,t) := by
    cases cmd with
    | releaseLock | resign => exact hc
    | _ => cases hc
  by_cases hold : f.hold k = some (c,t)
  · have hline : (f.step cmd).fsm.line k = (f.line k).tail := by
      have he := (fenced_effect h hf).1.mpr hold
      cases cmd with
      | releaseLock | resign => cases hc; exact he.2
      | _ => cases hc
    obtain ⟨lk,hk,rfl,_⟩ := FSM.hold_eq_some.mp hold
    intro hcon
    obtain ⟨lk',hk',hh,_⟩ := FSM.hold_eq_some.mp hcon
    rw [FSM.line_of_lookup hk',FSM.line_of_lookup hk] at hline
    have hm : lk'.holder ∈ lk.line.tail := hline ▸ List.mem_cons_self
    exact h.holder_not_queued hk (hh ▸ hm)
  · rw [(fenced_effect h hf).2 hold]
    exact hold

end Fenced

/-- Fencing of one key. In any reachable state a command that leaves the client
holder leaves its token, and a fenced command works exactly on the current hold.
Over a history that only catches up, with points q, p and f in this order, the
tokens of successive holds increase, a command that carries an ended hold never
works again, and a release that was answered ends its hold for good. -/
theorem fencing_sound (k c : Str) (t : Nat) :
    (∀ g, Reachable Command.Named g →
      (∀ cmd t', cmd.Named → g.hold k = some (c,t) → (g.step cmd).fsm.hold k = some (c,t') → t' = t) ∧
      ∀ cmd, cmd.fenced = some (k,c,t) → (TakesEffect g cmd ↔ g.hold k = some (c,t)) ∧
        (g.hold k ≠ some (c,t) → (g.step cmd).fsm = g.bump)) ∧
    ∀ notifier q p f, Later CatchUp (new notifier) q → Later CatchUp q p → Later CatchUp p f →
      q.hold k = some (c,t) →
      (∀ c' t', f.hold k = some (c',t') → ((c',t') = (c,t) ∧ p.hold k = some (c,t)) ∨ t < t') ∧
      (p.hold k ≠ some (c,t) → ∀ cmd, cmd.fenced = some (k,c,t) → ¬ TakesEffect f cmd ∧ (f.step cmd).fsm = f.bump) ∧
      ∀ cmd, cmd.releases = some (k,c,t) → (p.step cmd).result.outcome ∈ [.released,.notHolder,.staleToken] →
        ∀ g, Later CatchUp (p.step cmd).fsm g → g.hold k ≠ some (c,t) := by
  refine ⟨fun g hg => ⟨fun cmd t' hn => step_keeps_token (reachable_inv hg) hn,
    fun cmd hc => fenced_effect (reachable_inv hg) hc⟩,?_⟩
  intro notifier q p f hq hp hf hk
  obtain ⟨iq,_⟩ := later_advances (inv_new notifier) hq
  obtain ⟨ip,hqp⟩ := later_advances iq hp
  obtain ⟨iff,hpf⟩ := later_advances ip hf
  have old : t ≤ p.seq := (fence_bounded iq hk).trans hqp.counter
  have gone : p.hold k ≠ some (c,t) → f.hold k ≠ some (c,t) := fun hne => hpf.never_returns hne old
  refine ⟨?_,?_,?_⟩
  · intro c' t' hk'
    rcases (hqp.trans hpf).increasing (fence_bounded iq) hk hk' with he | hlt
    · refine .inl ⟨he,?_⟩
      by_contra hne
      exact gone hne (he ▸ hk')
    · exact .inr hlt
  · intro hne cmd hc
    have he := fenced_effect iff hc
    exact ⟨fun hx => gone hne (he.1.mp hx),he.2 (gone hne)⟩
  · intro cmd hc _ g hg
    have hnamed : cmd.Named := by
      obtain ⟨lk,hl,rfl,_⟩ := FSM.hold_eq_some.mp hk
      have hne := iq.holder_ne hl
      cases cmd with
      | releaseLock | resign => cases hc; exact hne
      | _ => cases hc
    obtain ⟨_,hadv⟩ := later_advances (step_inv ip hnamed) hg
    exact hadv.never_returns (release_ends ip hnamed hc) (old.trans (step_seq ip hnamed))

/-- A lock is released, taken by another client and released late once more. -/
theorem late_release_is_fenced :
    let q := (new true).run [.leaseGrant (str "a") 5 0,.leaseGrant (str "b") 5 0,.acquireLock (str "k") (str "a") false]
    let p := q.run [.releaseLock (str "k") (str "a") 1]
    let f := (p.restore (p.run [.acquireLock (str "k") (str "b") false]).snapshot.wire).1
    q.hold (str "k") = some (str "a",1) ∧ p.hold (str "k") = none ∧ f.hold (str "k") = some (str "b",2) ∧
    (f.step (.releaseLock (str "k") (str "a") 1)).fsm = f.bump := by
  intro q p f
  have hq : Later CatchUp (new true) q := Later.refl.run (by decide)
  have hp : Later CatchUp q p := Later.refl.run (by decide)
  have hf : Later CatchUp p f := Later.refl.restore ⟨_,by decide,.wire⟩
  have h1 : q.hold (str "k") = some (str "a",1) := by decide
  have h2 : p.hold (str "k") = none := by decide
  refine ⟨h1,h2,by decide,?_⟩
  have hend : p.hold (str "k") ≠ some (str "a",1) := by rw [h2]; exact nofun
  exact (((fencing_sound (str "k") (str "a") 1).2 true q p f hq hp hf h1).2.1 hend _ rfl).2

/-- Restoring an older snapshot turns the counter back: the key was held under
token 1, became free, and is held by another client under token 1 again. -/
theorem old_snapshot_repeats_token :
    let q := (new true).run [.leaseGrant (str "a") 5 0,.acquireLock (str "k") (str "a") false]
    let p := (q.restore (new true).snapshot.wire).1
    let f := p.run [.leaseGrant (str "b") 5 0,.acquireLock (str "k") (str "b") false]
    Later AnySnapshot (new true) q ∧ Later AnySnapshot q p ∧ Later AnySnapshot p f ∧
    q.hold (str "k") = some (str "a",1) ∧ p.hold (str "k") = none ∧ f.hold (str "k") = some (str "b",1) := by
  intro q p f
  refine ⟨Later.refl.run (by decide),Later.refl.restore ⟨_,.start true,.wire⟩,Later.refl.run (by decide),?_⟩
  decide

end Zuul.Fsm
