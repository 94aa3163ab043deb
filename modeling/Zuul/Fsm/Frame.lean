import Zuul.Fsm.LeaseLife
import Zuul.Fsm.LineSpec
import Zuul.Fsm.Events

/-! What a command leaves alone: everything it does not name, and everything at all
when it is rejected or has nothing to do. -/
namespace Zuul.Fsm
open Lib
variable {f g : FSM} {k c d : Str} {lk : Lock} {ls : Lease} {v : Bytes} {t : Nat} {cmd : Command}

namespace Command

/-- The client whose lease a command makes or renews. -/
def renews : Command → Option Str
  | leaseGrant c _ _ | leaseKeepAlive c _ => some c
  | _ => none

/-- The client whose lease a command is to end. -/
def ends : Command → Option Str
  | leaseRevoke c | leaseExpire c _ => some c
  | _ => none

end Command

section Index

/-- The two indexes of a client list a key in the one lease as in the other. -/
def Lease.SameIndex (k : Str) (a b : Lease) : Prop :=
  (k ∈ b.held ↔ k ∈ a.held) ∧ (k ∈ b.waiting ↔ k ∈ a.waiting)

/-- The client took the key over from another. -/
def PromotedFrom (c d k : Str) (f g : FSM) : Prop :=
  (∃ t, f.hold k = some (c,t)) ∧ d ∈ (f.line k).tail ∧ ∃ t, g.hold k = some (d,t)

private theorem sameIndex_of_line (hf : Inv f) (hg : Inv g) {a b : Lease} (ha : f.leases.lookup d = some a)
    (hb : g.leases.lookup d = some b) (hh : (g.line k).head? = some d ↔ (f.line k).head? = some d)
    (hw : d ∈ (g.line k).tail ↔ d ∈ (f.line k).tail) : a.SameIndex k b := by
  have head : ∀ {e : FSM}, (∃ lk, e.locks.lookup k = some lk ∧ lk.holder = d) ↔ (e.line k).head? = some d := by
    intro e
    cases hk : e.locks.lookup k with
    | none => simp [FSM.line_of_absent hk]
    | some lk => simp [FSM.line_of_lookup hk,Lock.line]
  have tail : ∀ {e : FSM}, (∃ lk, e.locks.lookup k = some lk ∧ d ∈ lk.queue.map Waiter.clientID) ↔
      d ∈ (e.line k).tail := by
    intro e
    cases hk : e.locks.lookup k with
    | none => simp [FSM.line_of_absent hk]
    | some lk => simp [FSM.line_of_lookup hk,Lock.line]
  constructor
  · rw [hg.held id hb,hf.held id ha,head,head,hh]
  · rw [hg.waiting id hb,hf.waiting id ha,tail,tail,hw]

private theorem dropLease_index (h : Inv f) (hc : f.leases.lookup c = some ls) (hd : d ≠ c) (k : Str) {a b : Lease}
    (ha : f.leases.lookup d = some a) (hb : (f.dropLease c ls).1.leases.lookup d = some b) :
    a.SameIndex k b ∨ PromotedFrom c d k f (f.dropLease c ls).1 := by
  -- another client's index entries move only where it takes over a key of the dropped one
  have hs := dropLease_spec h hc
  have same := sameIndex_of_line (k := k) h hs.inv ha hb
  cases hk : f.locks.lookup k with
  | none =>
    refine .inl (same ?_ ?_)
    · rw [FSM.line_of_absent hk,FSM.line_of_absent (hs.absent hk)]
    · rw [FSM.line_of_absent hk,FSM.line_of_absent (hs.absent hk)]
  | some lk =>
    rw [FSM.line_of_lookup hk] at same
    by_cases hh : lk.holder = c
    · have hne : lk.holder ≠ d := fun he => hd (he.symm.trans hh)
      obtain ⟨n,_,_,hl⟩ := hs.taken hk hh
      have hline : (f.dropLease c ls).1.line k = lk.queue.map Waiter.clientID := by rw [FSM.line,hl,next_line]
      cases hq : lk.queue with
      | nil =>
        rw [hq] at hline
        refine .inl (same ?_ ?_)
        · rw [hline]
          simp [Lock.line,hne]
        · rw [hline]
          simp [Lock.line,hq]
      | cons w queue =>
        rw [hq] at hline
        by_cases hw : w.clientID = d
        · refine .inr ⟨⟨lk.token,by rw [FSM.hold_of_lookup hk,hh]⟩,?_,n,?_⟩
          · rw [FSM.line_of_lookup hk,Lock.line,hq]
            simp [hw]
          · rw [FSM.hold,hl,Lock.next,hq]
            simp [Lock.promoted,hw]
        · refine .inl (same ?_ ?_)
          · rw [hline]
            simp [Lock.line,hne,hw]
          · rw [hline]
            simp [Lock.line,hq,Ne.symm hw]
    · have hl := hs.left hk hh
      rw [FSM.line_of_lookup hl] at same
      refine .inl (same Iff.rfl ?_)
      change d ∈ (lk.dequeue c).queue.map Waiter.clientID ↔ d ∈ lk.queue.map Waiter.clientID
      rw [mem_dequeue_clients h hk]
      simp [hd]

end Index

section Touched

private theorem key_frame (h : Inv f) (hk : cmd.lockName = some k) :
    (∀ k', k' ≠ k → (f.step cmd).fsm.locks.lookup k' = f.locks.lookup k') ∧
    ∀ d, Option.Rel (fun a b => a.SameTimes b ∧ ∀ k', k' ≠ k → a.SameIndex k' b)
      (f.leases.lookup d) ((f.step cmd).fsm.leases.lookup d) := by
  have he : KeyEdit k f.bump (f.step cmd).fsm := dispatch_edit h.bump hk
  refine ⟨fun k' hne => he.locks hne,fun d => KeyedMap.rel_mono (he.leases d) (fun a b hl => ?_)⟩
  exact ⟨⟨hl.clientID,hl.ttlMS,hl.expireAt⟩,fun k' hne => ⟨hl.held hne,hl.waiting hne⟩⟩

private theorem setLease_other (f : FSM) (ls : Lease) (hd : d ≠ c) :
    (f.setLease c ls).leases.lookup d = f.leases.lookup d := AList.lookup_insert_ne hd

private theorem renew_frame (hc : cmd.renews = some c) :
    (f.step cmd).fsm.locks = f.locks ∧ (f.step cmd).fsm.seq = f.seq ∧
    ∀ d, d ≠ c → (f.step cmd).fsm.leases.lookup d = f.leases.lookup d := by
  cases cmd with
  | leaseGrant e ttlMS now =>
    cases hc
    exact ⟨rfl,rfl,fun d hd => setLease_other f.bump _ hd⟩
  | leaseKeepAlive e now =>
    cases hc
    rw [FSM.step,FSM.dispatch,FSM.leaseKeepAlive]
    split
    · exact ⟨rfl,rfl,fun _ _ => rfl⟩
    · exact ⟨rfl,rfl,fun d hd => setLease_other f.bump _ hd⟩
  | _ => cases hc

private theorem end_shape (f : FSM) (hc : cmd.ends = some c) : (f.step cmd).fsm = f.bump ∨
    ∃ ls, f.bump.leases.lookup c = some ls ∧ (f.step cmd).fsm = (f.bump.dropLease c ls).1 := by
  cases cmd with
  | leaseRevoke e =>
    cases hc
    cases hl : f.bump.leases.lookup c with
    | none => simp only [FSM.step,FSM.dispatch,FSM.leaseRevoke,hl,true_or]
    | some ls => exact .inr ⟨ls,rfl,by simp only [FSM.step,FSM.dispatch,FSM.leaseRevoke,hl]⟩
  | leaseExpire e now =>
    cases hc
    cases hl : f.bump.leases.lookup c with
    | none => simp only [FSM.step,FSM.dispatch,FSM.leaseExpire,hl,true_or]
    | some ls =>
      by_cases hn : now < ls.expireAt
      · simp only [FSM.step,FSM.dispatch,FSM.leaseExpire,hl,hn,if_true,true_or]
      · exact .inr ⟨ls,rfl,by simp only [FSM.step,FSM.dispatch,FSM.leaseExpire,hl,hn,if_false]⟩
  | _ => cases hc

private theorem dropLease_frame (h : Inv f) (hc : f.leases.lookup c = some ls) (hd : d ≠ c) :
    Option.Rel (fun a b => a.SameTimes b ∧ ∀ k, a.SameIndex k b ∨ PromotedFrom c d k f (f.dropLease c ls).1)
      (f.leases.lookup d) ((f.dropLease c ls).1.leases.lookup d) := by
  have ht := (dropLease_spec h hc).times hd
  have hi : ∀ {a b}, f.leases.lookup d = some a → (f.dropLease c ls).1.leases.lookup d = some b →
      ∀ k, a.SameIndex k b ∨ PromotedFrom c d k f (f.dropLease c ls).1 := fun ha hb k => dropLease_index h hc hd k ha hb
  generalize f.leases.lookup d = x, (f.dropLease c ls).1.leases.lookup d = y at ht hi
  cases ht with
  | none => exact .none
  | some ht => exact .some ⟨ht,hi rfl rfl⟩

private theorem end_frame (h : Inv f) (hc : cmd.ends = some c) :
    (∀ k, c ∉ f.line k → (f.step cmd).fsm.locks.lookup k = f.locks.lookup k) ∧
    ∀ d, d ≠ c → Option.Rel (fun a b => a.SameTimes b ∧ ∀ k, a.SameIndex k b ∨ PromotedFrom c d k f (f.step cmd).fsm)
      (f.leases.lookup d) ((f.step cmd).fsm.leases.lookup d) := by
  rcases end_shape f hc with he | ⟨ls,hl,he⟩
  · rw [he]
    exact ⟨fun _ _ => rfl,fun d _ => KeyedMap.rel_refl (fun _ => ⟨⟨rfl,rfl,rfl⟩,fun _ => .inl ⟨.rfl,.rfl⟩⟩) _⟩
  · rw [he]
    have hlock := fun k => (dropLease_lock_iff h.bump hl k).mpr
    have hlease := fun d => dropLease_frame (d := d) h.bump hl
    generalize (f.bump.dropLease c ls).1 = g at hlock hlease
    exact ⟨hlock,hlease⟩

end Touched

/-- Commands touch only what they name. A lock or election command leaves the other
keys, the set of leases, their times and their index entries of other keys. A grant
or renewal leaves the locks, the counter and the other leases. The end of a lease
leaves the locks whose line does not have the client and the times of the other
leases, and moves their index entries only on a promotion. -/
theorem step_touches_named (h : Reachable Command.Named f) (cmd : Command) :
    (∀ k, cmd.lockName = some k →
      (∀ k', k' ≠ k → (f.step cmd).fsm.locks.lookup k' = f.locks.lookup k') ∧
      ∀ d, Option.Rel (fun a b => a.SameTimes b ∧ ∀ k', k' ≠ k → a.SameIndex k' b)
        (f.leases.lookup d) ((f.step cmd).fsm.leases.lookup d)) ∧
    (∀ c, cmd.renews = some c → (f.step cmd).fsm.locks = f.locks ∧ (f.step cmd).fsm.seq = f.seq ∧
      ∀ d, d ≠ c → (f.step cmd).fsm.leases.lookup d = f.leases.lookup d) ∧
    ∀ c, cmd.ends = some c →
      (∀ k, c ∉ f.line k → (f.step cmd).fsm.locks.lookup k = f.locks.lookup k) ∧
      ∀ d, d ≠ c →
        Option.Rel (fun a b => a.SameTimes b ∧ ∀ k, a.SameIndex k b ∨ PromotedFrom c d k f (f.step cmd).fsm)
          (f.leases.lookup d) ((f.step cmd).fsm.leases.lookup d) :=
  ⟨fun _ hk => key_frame (reachable_inv h) hk,fun _ hc => renew_frame hc,
    fun _ hc => end_frame (reachable_inv h) hc⟩

/-- The promotion on a key of the dropped client is the only thing its waiter sees. -/
theorem revoke_touches_named :
    let log : List Command := [.leaseGrant (str "a") 5 0,.leaseGrant (str "b") 9 0,.acquireLock (str "k") (str "a") false,
      .acquireLock (str "k") (str "b") false,.acquireLock (str "m") (str "b") false]
    let f := (new true).run log
    let g := (f.step (.leaseRevoke (str "a"))).fsm
    g.hold (str "k") = some (str "b",4) ∧ g.locks.lookup (str "m") = f.locks.lookup (str "m") := by
  intro log f g
  have hr : Reachable Command.Named f := (Reachable.start true).run (by decide)
  exact ⟨by decide,(((step_touches_named hr (.leaseRevoke (str "a"))).2.2 (str "a") rfl).1 (str "m") (by decide))⟩

/-- The answers that say a command was refused or had nothing to do. -/
def Outcome.refuses : Outcome → Bool
  | .noLease | .notAcquired | .notHolder | .staleToken | .notFound | .noop => true
  | _ => false

section Quiet

/-- An answer that is a known one, and a refusal only where nothing happened. -/
private structure Answered (f : FSM) (out : Applied) : Prop where
  known : out.result.outcome ≠ .unknown
  quiet : out.result.outcome.refuses = true → out.fsm = f ∧ out.events = []

private theorem answered_idle {r : CommandResult} (hr : r.outcome ≠ .unknown) : Answered f ⟨f,r,[]⟩ :=
  ⟨hr,fun _ => ⟨rfl,rfl⟩⟩

private theorem answered_done {out : Applied} (hk : out.result.outcome ≠ .unknown)
    (hr : out.result.outcome.refuses = false) : Answered f out :=
  ⟨hk,fun hq => by rw [hr] at hq; cases hq⟩

private theorem acquire_answered (h : Inv f) (tryLock : Bool) : Answered f (f.acquire k c v tryLock) := by
  have ht := acquire_cases h k c v tryLock
  generalize f.acquire k c v tryLock = out at ht
  cases ht with
  | free | join => exact answered_done (fun he => by cases he) rfl
  | _ => exact answered_idle (fun he => by cases he)

private theorem release_answered (h : Inv f) : Answered f (f.release k c t) := by
  rcases holder_cases f k c with ⟨lk,hk,hh⟩ | hn
  · by_cases ht : lk.token = t
    · rw [release_holder h hk hh ht]; exact answered_done (fun he => by cases he) rfl
    · rw [release_stale h hk hh ht]; exact answered_idle (fun he => by cases he)
  · rw [release_other hn]; exact answered_idle (fun he => by cases he)

private theorem proclaim_answered (h : Inv f) : Answered f (f.proclaim k c t v) := by
  rcases holder_cases f k c with ⟨lk,hk,hh⟩ | hn
  · by_cases ht : lk.token = t
    · rw [proclaim_holder h hk hh ht]; exact answered_done (fun he => by cases he) rfl
    · rw [proclaim_stale h hk hh ht]; exact answered_idle (fun he => by cases he)
  · rw [proclaim_other hn]; exact answered_idle (fun he => by cases he)

private theorem cancelWait_answered (f : FSM) (k c : Str) : Answered f (f.cancelWait k c) := by
  by_cases hq : ∃ lk, f.locks.lookup k = some lk ∧ c ∈ lk.queue.map Waiter.clientID
  · obtain ⟨lk,hk,hq⟩ := hq
    rw [cancelWait_found hk hq]
    exact answered_done (fun he => by cases he) rfl
  · rw [cancelWait_idle (fun lk hk hm => hq ⟨lk,hk,hm⟩)]
    exact answered_idle (fun he => by cases he)

private theorem dispatch_answered (h : Inv f) (cmd : Command) : Answered f (f.dispatch cmd) := by
  cases cmd with
  | acquireLock | campaign => exact acquire_answered h _
  | releaseLock | resign => exact release_answered h
  | cancelWait => exact cancelWait_answered f _ _
  | proclaim => exact proclaim_answered h
  | leaseGrant => exact answered_done (fun he => by cases he) rfl
  | leaseKeepAlive =>
    rw [FSM.dispatch,FSM.leaseKeepAlive]
    split
    · exact answered_idle (fun he => by cases he)
    · exact answered_done (fun he => by cases he) rfl
  | leaseRevoke =>
    rw [FSM.dispatch,FSM.leaseRevoke]
    split
    · exact answered_idle (fun he => by cases he)
    · exact answered_done (fun he => by cases he) rfl
  | leaseExpire =>
    rw [FSM.dispatch,FSM.leaseExpire]
    split
    · exact answered_idle (fun he => by cases he)
    · split
      · exact answered_idle (fun he => by cases he)
      · exact answered_done (fun he => by cases he) rfl

private theorem acquire_in_line (h : Inv f) (tryLock : Bool) (hm : c ∈ f.line k) :
    (f.acquire k c v tryLock).fsm = f ∧ (f.acquire k c v tryLock).events = [] := by
  have ht := acquire_cases h k c v tryLock
  generalize f.acquire k c v tryLock = out at ht
  cases ht with
  | free hc hk =>
    rw [FSM.line_of_absent hk] at hm
    cases hm
  | join hc hk hh hq =>
    rw [FSM.line_of_lookup hk] at hm
    exact (not_mem_line hh hq hm).elim
  | _ => exact ⟨rfl,rfl⟩

private theorem asks_in_line (h : Inv f) (ha : cmd.asks = some (k,c)) (hm : c ∈ f.line k) :
    (f.dispatch cmd).fsm = f ∧ (f.dispatch cmd).events = [] := by
  cases cmd with
  | acquireLock | campaign => cases ha; exact acquire_in_line h _ hm
  | _ => cases ha

private theorem dispatch_revision (h : Inv f) (cmd : Command) : (f.dispatch cmd).fsm.revision = f.revision := by
  cases cmd with
  | leaseGrant => rfl
  | leaseKeepAlive =>
    rw [FSM.dispatch,FSM.leaseKeepAlive]
    split <;> rfl
  | leaseRevoke =>
    rw [FSM.dispatch,FSM.leaseRevoke]
    split
    · rfl
    · rename_i hc
      exact (dropLease_spec h hc).revision
  | leaseExpire =>
    rw [FSM.dispatch,FSM.leaseExpire]
    split
    · rfl
    · rename_i hc
      split
      · rfl
      · exact (dropLease_spec h hc).revision
  | _ => exact (dispatch_edit h rfl).revision

end Quiet

/-- Refusals and repetitions are atomic. Every well-formed command is applied
without an error, gets a known answer under the next revision, and leaves locks,
leases and counter as they were, with nothing published, when it is refused, has
nothing to do, or is a grant to the holder or a queueing of a queued client. -/
theorem refused_command_atomic (h : Reachable Command.Named f) (cmd : Command) :
    ∃ g evs r, f.apply (.set cmd) = (g,evs,.ok r) ∧ r.outcome ≠ .unknown ∧
      g.revision = f.revision + 1 ∧ r.revision = g.revision ∧
      (r.outcome.refuses = true ∨
        (∃ k c, cmd.asks = some (k,c) ∧ (r.outcome = .granted ∧ (f.line k).head? = some c ∨
          r.outcome = .queued ∧ c ∈ (f.line k).tail)) →
        g.locks = f.locks ∧ g.leases = f.leases ∧ g.seq = f.seq ∧ evs = []) := by
  have hi := (reachable_inv h).bump
  have hd := dispatch_answered hi cmd
  refine ⟨_,_,_,rfl,hd.known,dispatch_revision hi cmd,step_result_revision f cmd,?_⟩
  have atomic : (f.step cmd).fsm = f.bump ∧ (f.step cmd).events = [] →
      (f.step cmd).fsm.locks = f.locks ∧ (f.step cmd).fsm.leases = f.leases ∧ (f.step cmd).fsm.seq = f.seq ∧
        (f.step cmd).events = [] := by
    rintro ⟨hg,he⟩
    rw [hg]
    exact ⟨rfl,rfl,rfl,he⟩
  rintro (hq | ⟨k,c,ha,⟨_,hm⟩ | ⟨_,hm⟩⟩)
  · exact atomic (hd.quiet hq)
  · exact atomic (asks_in_line hi ha (List.mem_of_mem_head? hm))
  · exact atomic (asks_in_line hi ha (List.mem_of_mem_tail hm))

/-- A try-lock on a held key. -/
theorem refused_tryLock_atomic :
    let log : List Command := [.leaseGrant (str "a") 5 0,.leaseGrant (str "b") 5 0,.acquireLock (str "k") (str "a") false]
    let f := (new true).run log
    let cmd : Command := .acquireLock (str "k") (str "b") true
    (f.step cmd).result.outcome = .notAcquired ∧ (f.step cmd).fsm.locks = f.locks := by
  intro log f cmd
  have ho : (f.step cmd).result.outcome = .notAcquired := by decide
  have hr : Reachable Command.Named f := (Reachable.start true).run (by decide)
  obtain ⟨g,evs,r,he,_,_,_,hq⟩ := refused_command_atomic hr cmd
  cases he
  exact ⟨ho,(hq (.inl (by rw [ho]; rfl))).1⟩

end Zuul.Fsm
