import Zuul.Fsm.LeaseLife
import Zuul.Fsm.Places
import Zuul.Server.HandlerInvariant

/-! Two blocking calls of one client for one key. The client gave up the first
one, whose handler may still be cancelling its wait when the second is queued. -/
namespace Zuul.Server
open Lib Fsm
variable {r₁ r₂ req : Request} {s s' : Sys} {p p' : Pair} {a : Action} {cmd : Command}

/-- The command an action of the handler adds to the log. -/
def Action.entry (req : Request) : Action → Option Command
  | .commit cmd => some cmd
  | .propose => some req.command
  | .cancel => some (.cancelWait req.key req.client)
  | _ => none

/-- Commits of others are no steps of the handler. -/
def Action.external : Action → Bool
  | .commit _ => true
  | _ => false

/-- The log grows by the entry of the action. -/
theorem next_log (h : s.next req a = some s') : s'.node.log = s.node.log ++ (a.entry req).toList := by
  cases next_step h with
  | apply hr =>
    obtain ⟨cmd,_,_,rfl⟩ := Replica.apply_eq hr
    exact (List.append_nil _).symm
  | notify hr =>
    obtain ⟨m,e,rest,_,_,_,rfl⟩ := notify_eq hr
    exact (List.append_nil _).symm
  | post hr =>
    obtain ⟨m,_,_,rfl⟩ := post_eq hr
    exact (List.append_nil _).symm
  | skip hr =>
    obtain ⟨e,rest,_,_,rfl⟩ := skip_eq hr
    exact (List.append_nil _).symm
  | @answer res hp =>
    rw [Sys.answer]
    split <;> exact (List.append_nil _).symm
  | read _ hp =>
    rw [Sys.read]
    split <;> exact (List.append_nil _).symm
  | readStatus hp =>
    rw [Sys.confirmed]
    split <;> exact (List.append_nil _).symm
  | leave alive hp =>
    rw [Sys.leave]
    split <;> exact (List.append_nil _).symm
  | commit cmd => rfl
  | propose hp => rfl
  | cancel hp => rfl
  | _ => exact (List.append_nil _).symm

/-- An entry that someone else committed. -/
def Sys.learn (s : Sys) : Option Command → Sys
  | none => s
  | some cmd => s.setNode (s.node.commit cmd)

def Phase.cancels : Phase → Bool
  | .cancelling _ _ => true
  | _ => false

/-- Both handlers with their nodes, which share the log. Noted are whether the
first RPC has ended at the client, and whether its handler ever sent a CancelWait. -/
structure Pair where
  first : Sys := {}
  second : Sys := {}
  ended : Bool := false
  asked : Bool := false
  deriving DecidableEq

inductive PairAction where
  | first (a : Action)
  | second (a : Action)
  | others (cmd : Command)
  | endFirst
  | late
  deriving DecidableEq

namespace Pair

/-- Someone else commits. -/
def learn (p : Pair) (cmd : Command) : Pair :=
  { p with first := p.first.learn (some cmd), second := p.second.learn (some cmd) }

/-- One step of anyone. The second call is sent after the first RPC has ended; a
CancelWait that was sent may be committed any time later. -/
def next (r₁ r₂ : Request) (p : Pair) : PairAction → Option Pair
  | .first a =>
    if a.external then none
    else (p.first.next r₁ a).map (fun s =>
      { p with first := s, second := p.second.learn (a.entry r₁), asked := p.asked || s.phase.cancels })
  | .second a =>
    if a.external ∨ (a = .subscribe ∧ p.ended = false) then none
    else (p.second.next r₂ a).map (fun s => { p with first := p.first.learn (a.entry r₂), second := s })
  | .others cmd => some (p.learn cmd)
  | .endFirst => some { p with ended := true }
  | .late => if p.asked then some (p.learn (.cancelWait r₁.key r₁.client)) else none

end Pair

/-- Only the two handlers cancel waits of the client for the key. -/
def PairEnv (req : Request) (_ : Pair) : PairAction → Prop
  | .others cmd => cmd.Named ∧ cmd ≠ .cancelWait req.key req.client
  | _ => True

/-- The step commits a CancelWait of the first call. -/
def PairAction.cancelsFirst : PairAction → Bool
  | .first .cancel | .late => true
  | _ => false

/-- A CancelWait of the first call is committed before the acquire of the second
call, or when the client is not in the queue. -/
def CancelsInTime (req : Request) (p : Pair) (a : PairAction) : Prop :=
  a.cancelsFirst → p.second.own = none ∨ req.client ∉ (p.second.node.full.line req.key).tail

instance (req : Request) (p : Pair) (a : PairAction) : Decidable (PairEnv req p a) :=
  match a with
  | .others cmd => inferInstanceAs (Decidable (cmd.Named ∧ cmd ≠ .cancelWait req.key req.client))
  | .first _ | .second _ | .endFirst | .late => .isTrue trivial

instance (req : Request) (p : Pair) (a : PairAction) : Decidable (CancelsInTime req p a) :=
  inferInstanceAs (Decidable (a.cancelsFirst → p.second.own = none ∨
    req.client ∉ (p.second.node.full.line req.key).tail))

/-- The handler is in its wait loop. -/
def Phase.waits : Phase → Bool
  | .parked | .woken | .confirm false _ => true
  | _ => false

/-- The call waits after a QUEUED result, and since then its client has had its
lease all the time and has not released the key. -/
structure Entitled (req : Request) (s : Sys) : Prop where
  waits : s.phase.waits = true
  leased : ∀ i, s.own = some i → ∀ j, i < j → j ≤ s.node.log.length → req.client ∈ (s.node.upTo j).leases
  unreleased : ∀ i, s.own = some i → ∀ j cmd, i < j → s.node.log[j]? = some cmd →
    ∀ t, cmd.releases = some (req.key,req.client,t) → (s.node.upTo j).hold req.key ≠ some (req.client,t)

section Place

/-- The handler has not begun to cancel its own wait. -/
private def Phase.early : Phase → Bool
  | .cancelling _ _ | .leaving | .done _ => false
  | _ => true

/-- Since the acquire of the call, no CancelWait met the client in the queue. -/
private def Spared (req : Request) (s : Sys) : Prop :=
  s.phase.early = true → ∀ i, s.own = some i → ∀ j, i < j →
    s.node.log[j]? = some (.cancelWait req.key req.client) → req.client ∉ ((s.node.upTo j).line req.key).tail

private theorem get_appended {log : List Command} {new : Command} {j : Nat} (h : (log ++ [new])[j]? = some cmd) :
    (j < log.length ∧ log[j]? = some cmd) ∨ (j = log.length ∧ cmd = new) := by
  rcases Nat.lt_or_ge j log.length with hlt | hge
  · rw [List.getElem?_append_left hlt] at h
    exact .inl ⟨hlt,h⟩
  · rw [List.getElem?_append_right hge,List.getElem?_singleton] at h
    split at h
    · cases h
      exact .inr ⟨by omega,rfl⟩
    · cases h

private theorem spared_learn (h : Spared req s)
    (hc : cmd = .cancelWait req.key req.client → s.own = none ∨ req.client ∉ (s.node.full.line req.key).tail) :
    Spared req (s.learn (some cmd)) := by
  intro he i hi j hij hj
  change req.client ∉ ((stateAt (s.node.log ++ [cmd]) j).line req.key).tail
  rcases get_appended hj with ⟨hlt,hj⟩ | ⟨rfl,hcmd⟩
  · rw [stateAt_append hlt.le]
    exact h he i hi j hij hj
  · rw [stateAt_append (Nat.le_refl _)]
    rcases hc hcmd.symm with ho | hq
    · cases ho.symm.trans hi
    · exact hq

private theorem spared_same (h : Spared req s) (hl : s'.node.log = s.node.log) (ho : s'.own = s.own)
    (hp : s'.phase.early = true → s.phase.early = true) : Spared req s' := by
  intro he i hi j hij hj
  rw [Replica.upTo,hl]
  rw [hl] at hj
  exact h (hp he) i (ho ▸ hi) j hij hj

private theorem spared_late (hp : s'.phase.early = false) : Spared req s' := by
  intro he
  rw [hp] at he
  cases he

private theorem spared_next (h : Spared req s) (hc : a.external = false) (hn : s.next req a = some s') :
    Spared req s' := by
  -- the handler itself leaves its place alone until it begins to cancel
  have hlog := next_log hn
  have frame : Frame s s' → a.entry req = none → Spared req s' := by
    intro hf hnone
    rw [hnone,Option.toList_none,List.append_nil] at hlog
    exact spared_same h hlog hf.own (fun he => hf.phase ▸ he)
  cases next_step hn with
  | commit cmd => cases hc
  | apply hr => exact frame (apply_frame hr) rfl
  | notify hr => exact frame (notify_frame hr) rfl
  | post hr => exact frame (post_frame hr) rfl
  | skip hr => exact frame (skip_frame hr) rfl
  | propose hp =>
    intro he i hi j hij hj
    cases hi
    rcases get_appended hj with ⟨hlt,_⟩ | ⟨rfl,_⟩
    · exact absurd hij (Nat.not_lt.mpr hlt.le)
    · exact absurd hij (Nat.lt_irrefl _)
  | subscribe hp | take _ _ hp | readIndex hp | expire hp => exact spared_same h rfl rfl (fun _ => by rw [hp]; rfl)
  | proposeFail hp => exact spared_late rfl
  | @answer res hp =>
    rw [Sys.answer]
    split
    · exact spared_late rfl
    · exact spared_late rfl
    · exact spared_same h rfl rfl (fun _ => by rw [hp]; rfl)
    · exact spared_late rfl
  | read _ hp =>
    rw [Sys.read]
    split
    · exact spared_late rfl
    · exact spared_same h rfl rfl (fun _ => by rw [hp]; rfl)
  | readStatus hp =>
    rw [Sys.confirmed]
    split
    · exact spared_late rfl
    · exact spared_same h rfl rfl (fun _ => by rw [hp]; rfl)
  | readFail hp => exact spared_same h rfl rfl (fun _ => by rw [hp]; rfl)
  | cancel hp | cancelAnswer hp | cancelGiveUp hp => exact spared_late rfl
  | cancelFail hp =>
    refine spared_late ?_
    rw [Sys.retry]
    split <;> rfl
  | leave alive hp =>
    refine spared_late ?_
    rw [Sys.leave]
    split <;> rfl

private theorem blocking_in_line {f : FSM} (hb : req.Blocking) (h : Inv f) (hl : req.client ∈ f.leases) :
    req.client ∈ (f.step req.command).fsm.line req.key := by
  have acquire : ∀ k c v, c ∈ f.leases → c ∈ (f.bump.acquire k c v false).fsm.line k := by
    intro k c v hc
    have ht := acquire_cases h.bump k c v false
    generalize f.bump.acquire k c v false = out at ht
    cases ht with
    | noLease hn =>
      obtain ⟨ls,hls⟩ := (KeyedMap.mem_iff_lookup f.leases c).mp hc
      cases hls.symm.trans hn
    | free hc hk =>
      rw [FSM.line_of_lookup (grant_lock h.bump hk hc)]
      exact List.mem_cons_self
    | holder hc hk hh =>
      rw [FSM.line_of_lookup hk,← hh]
      exact List.mem_cons_self
    | again hc hk hh hq =>
      rw [FSM.line_of_lookup hk]
      exact List.mem_cons_of_mem _ hq
    | @join lk ls hc hk hh hq =>
      rw [FSM.line_of_lookup (enqueue_lock _ _ _ lk ls v),enqueued_line]
      exact List.mem_append_right _ (List.mem_singleton.mpr rfl)
  cases hb with
  | lock name c bounded hc => exact acquire name c none hl
  | campaign name c value bounded hc => exact acquire name c value hl

private theorem blocking_lockName (hb : req.Blocking) : req.command.lockName = some req.key := by
  cases hb <;> rfl

private theorem spared_in_line (hb : req.Blocking) (hg : Good req s) (hs : Spared req s) (he : Entitled req s) :
    req.client ∈ s.node.full.line req.key := by
  obtain ⟨i,hi,hq⟩ : ∃ i, s.own = some i ∧ Queued req s.node.log i := by
    have hp := hg.phase
    have hw := he.waits
    cases hph : s.phase with
    | parked | woken => rw [hph] at hp; exact hp
    | confirm expired index =>
      rw [hph] at hp
      cases index with
      | none => exact hp
      | some index =>
        obtain ⟨i,hi,hq,_⟩ := hp
        exact ⟨i,hi,hq⟩
    | _ => rw [hph] at hw; cases hw
  have hlen : i < s.node.log.length := (List.getElem?_eq_some_iff.mp hq.asked).1
  have early : s.phase.early = true := by
    have hw := he.waits
    cases hph : s.phase with
    | cancelling | leaving | done => rw [hph] at hw; cases hw
    | _ => rfl
  -- the position is reached from the acquire on, entry by entry
  have walk : ∀ d, i + 1 + d ≤ s.node.log.length → req.client ∈ (s.node.upTo (i + 1 + d)).line req.key := by
    intro d
    induction d with
    | zero =>
      intro hle
      have hl := he.leased i hi (i + 1) (Nat.lt_succ_self i) hle
      rw [Replica.upTo_succ hq.asked] at hl
      rw [Nat.add_zero,Replica.upTo_succ hq.asked]
      have hed := dispatch_edit (hg.node.inv i).bump (blocking_lockName hb)
      exact blocking_in_line hb (hg.node.inv i) ((hed.mem_leases _).mp hl)
    | succ d ih =>
      intro hle
      have hlt : i + 1 + d < s.node.log.length := by omega
      obtain ⟨cmd,hcmd⟩ : ∃ cmd, s.node.log[i + 1 + d]? = some cmd := ⟨_,List.getElem?_eq_getElem hlt⟩
      have hij : i < i + 1 + d := by omega
      have hl := he.leased i hi (i + 1 + d + 1) (by omega) hle
      have hm := ih hlt.le
      change req.client ∈ (s.node.upTo (i + 1 + d + 1)).line req.key
      rw [Replica.upTo_succ hcmd] at hl ⊢
      refine step_stays (hg.node.inv _) hm hl (he.unreleased i hi _ cmd hij hcmd) (fun hc => ?_)
      exact hs early i hi _ hij (hc ▸ hcmd)
  have hfin := walk (s.node.log.length - (i + 1)) (by omega)
  rwa [Nat.add_sub_cancel' hlen] at hfin

end Place

section Pairs

private theorem pair_second {a : PairAction} (hb : r₁.Blocking) (he : PairEnv r₂ p a) (hn : p.next r₁ r₂ a = some p') :
    (∃ b, b.external = false ∧ p.second.next r₂ b = some p'.second) ∨ p'.second = p.second ∨
    ∃ cmd, cmd.Named ∧ p'.second = p.second.learn (some cmd) ∧
      (cmd = .cancelWait r₂.key r₂.client → a.cancelsFirst = true) := by
  -- only the first call adds a CancelWait for the client
  have named : (Command.cancelWait r₁.key r₁.client).Named := hb.named
  rw [Pair.next.eq_def] at hn
  cases a with
  | first b =>
    simp only at hn
    split at hn
    · cases hn
    · rename_i hext
      obtain ⟨s,_,rfl⟩ := Option.map_eq_some_iff.mp hn
      cases b with
      | commit cmd => exact (hext rfl).elim
      | propose =>
        refine .inr (.inr ⟨r₁.command,hb.command_named,rfl,fun hc => ?_⟩)
        cases hb <;> cases hc
      | cancel => exact .inr (.inr ⟨_,named,rfl,fun _ => rfl⟩)
      | _ => exact .inr (.inl rfl)
  | second b =>
    simp only at hn
    split at hn
    · cases hn
    · rename_i hext
      obtain ⟨s,hs,rfl⟩ := Option.map_eq_some_iff.mp hn
      exact .inl ⟨b,Bool.eq_false_iff.mpr (fun hx => hext (.inl hx)),hs⟩
  | others cmd =>
    cases hn
    exact .inr (.inr ⟨cmd,he.1,rfl,fun hc => (he.2 hc).elim⟩)
  | endFirst =>
    cases hn
    exact .inr (.inl rfl)
  | late =>
    simp only at hn
    split at hn
    · cases hn
      exact .inr (.inr ⟨_,named,rfl,fun _ => rfl⟩)
    · cases hn

private theorem pair_good {a : PairAction} (hb₁ : r₁.Blocking) (hb₂ : r₂.Blocking) (hg : Good r₂ p.second)
    (he : PairEnv r₂ p a) (hn : p.next r₁ r₂ a = some p') : Good r₂ p'.second := by
  rcases pair_second hb₁ he hn with ⟨b,hb,hs⟩ | hs | ⟨cmd,hc,hs,_⟩
  · refine next_good hb₂ hg ?_ hs
    cases b with
    | commit cmd => cases hb
    | _ => trivial
  · rwa [hs]
  · rw [hs]
    exact hg.commit hc

private theorem pair_spared {a : PairAction} (hb : r₁.Blocking) (hs : Spared r₂ p.second) (he : PairEnv r₂ p a)
    (hc : CancelsInTime r₂ p a) (hn : p.next r₁ r₂ a = some p') : Spared r₂ p'.second := by
  rcases pair_second hb he hn with ⟨b,hb,hb'⟩ | hb' | ⟨cmd,_,hb',hcancel⟩
  · exact spared_next hs hb hb'
  · rwa [hb']
  · rw [hb']
    exact spared_learn hs (fun hcmd => hc (hcancel hcmd))

private theorem cancel_second {a : PairAction} (hc : a.cancelsFirst = true) (hn : p.next r₁ r₂ a = some p') :
    p'.second = p.second.learn (some (.cancelWait r₁.key r₁.client)) := by
  rw [Pair.next.eq_def] at hn
  cases a with
  | first b =>
    cases b with
    | cancel =>
      obtain ⟨s,_,rfl⟩ := Option.map_eq_some_iff.mp hn
      rfl
    | _ => cases hc
  | late =>
    simp only at hn
    split at hn
    · cases hn
      rfl
    · cases hn
  | _ => cases hc

private theorem learn_full (s : Sys) (cmd : Command) :
    (s.learn (some cmd)).node.full = (s.node.full.step cmd).fsm := by
  have hlen : (s.learn (some cmd)).node.log.length = s.node.log.length + 1 := List.length_append
  have hget : (s.learn (some cmd)).node.log[s.node.log.length]? = some cmd := List.getElem?_concat_length ..
  rw [Replica.full,hlen,Replica.upTo_succ hget]
  exact congrArg (fun f => (FSM.step f cmd).fsm) (Replica.upTo_commit (Nat.le_refl _))

private theorem cancel_takes_place (hg : Good req s) (he : Entitled req s)
    (hq : req.client ∈ (s.node.full.line req.key).tail) :
    let s' := s.learn (some (.cancelWait req.key req.client))
    Entitled req s' ∧ req.client ∉ s'.node.full.line req.key := by
  -- the call that waits for the place keeps waiting
  intro s'
  have hi : Inv s.node.full := hg.node.inv s.node.log.length
  have hfull : s'.node.full = (s.node.full.step (.cancelWait req.key req.client)).fsm := learn_full s _
  have old : ∀ {j}, j ≤ s.node.log.length → s'.node.upTo j = s.node.upTo j := Replica.upTo_commit
  obtain ⟨lk,hk,hqueue⟩ : ∃ lk, s.node.full.locks.lookup req.key = some lk ∧
      req.client ∈ lk.queue.map Waiter.clientID := by
    cases hk : s.node.full.locks.lookup req.key with
    | none => rw [FSM.line_of_absent hk] at hq; cases hq
    | some lk => rw [FSM.line_of_lookup hk] at hq; exact ⟨lk,rfl,hq⟩
  have hlease : req.client ∈ s'.node.full.leases := by
    rw [hfull]
    have hed := cancelWait_edit hi.bump req.key req.client
    exact (hed.mem_leases _).mpr ((hi.locks hk).leased (List.mem_cons_of_mem _ hqueue))
  refine ⟨⟨he.waits,fun i ho j hij hj => ?_,fun i ho j cmd hij hj t ht => ?_⟩,?_⟩
  · rcases Nat.lt_or_ge s.node.log.length j with hlt | hle
    · have hlen : s'.node.log.length = s.node.log.length + 1 := List.length_append
      rw [show j = s'.node.log.length by omega]
      exact hlease
    · rw [old hle]
      exact he.leased i ho j hij hle
  · rcases get_appended hj with ⟨hlt,hj⟩ | ⟨_,rfl⟩
    · rw [old hlt.le]
      exact he.unreleased i ho j cmd hij hj t ht
    · cases ht
  · rw [hfull]
    refine (cancelWait_line hi.bump req.key req.client).mpr ((hold_ne_iff hk).mpr ?_)
    exact fun hh => hi.holder_not_queued hk (hh ▸ hqueue)

end Pairs

/-- The first and the second call of one client for one key. In every run in
which each CancelWait of the first call comes before the acquire of the second or
finds the client outside the queue, the waiting second call has its place. Any
other CancelWait of the first call takes the place of a waiting second call. -/
theorem successor_keeps_place (hb₁ : r₁.Blocking) (hb₂ : r₂.Blocking) (hk : r₁.key = r₂.key)
    (hc : r₁.client = r₂.client) :
    (∀ p, Lib.Reaches (Pair.next r₁ r₂) (fun p a => PairEnv r₂ p a ∧ CancelsInTime r₂ p a) {} p →
      Entitled r₂ p.second → r₂.client ∈ p.second.node.full.line r₂.key) ∧
    ∀ p a p', Lib.Reaches (Pair.next r₁ r₂) (PairEnv r₂) {} p → p.next r₁ r₂ a = some p' →
      Entitled r₂ p.second → ¬ CancelsInTime r₂ p a →
      Entitled r₂ p'.second ∧ r₂.client ∉ p'.second.node.full.line r₂.key := by
  constructor
  · intro p h he
    obtain ⟨hg,hs⟩ := Lib.Reaches.rule (I := fun p => Good r₂ p.second ∧ Spared r₂ p.second) h
      ⟨good_init,fun _ i hi => (by cases hi)⟩
      (fun p a p' hp ha hn => ⟨pair_good hb₁ hb₂ hp.1 ha.1 hn,pair_spared hb₁ hp.2 ha.1 ha.2 hn⟩)
    exact spared_in_line hb₂ hg hs he
  · intro p a p' h hn he hlate
    have hg := Lib.Reaches.rule (I := fun p => Good r₂ p.second) h good_init
      (fun p a p' hp ha hn => pair_good hb₁ hb₂ hp ha hn)
    rw [CancelsInTime,Classical.not_imp,not_or,not_not] at hlate
    rw [cancel_second hlate.1 hn,hk,hc]
    exact cancel_takes_place hg he hlate.2.2

/-- The first call of b is cancelled before the second one is queued behind a. -/
theorem second_call_in_place :
    let req := lockRequest (str "k") (str "b") false
    let as : List PairAction := [.others (.leaseGrant (str "a") 5 0),.others (.leaseGrant (str "b") 5 0),
      .others (.acquireLock (str "k") (str "a") false),.first .subscribe,.first .propose,.first .answer,.endFirst,
      .first .expire,.first .readFail,.first .cancel,.second .subscribe,.second .propose,.second .answer]
    ∃ p, exec (Pair.next req req) (fun p a => PairEnv req p a ∧ CancelsInTime req p a) {} as = some p ∧
      p.second.phase = .parked ∧ str "b" ∈ p.second.node.full.line (str "k") := by
  intro req as
  let p := (exec (Pair.next req req) (fun p a => PairEnv req p a ∧ CancelsInTime req p a) {} as).getD {}
  have he : exec (Pair.next req req) (fun p a => PairEnv req p a ∧ CancelsInTime req p a) {} as = some p := by
    decide +kernel
  have hp : p.second.phase = .parked := by decide +kernel
  have hown : p.second.own = some 5 := by decide +kernel
  have hlen : p.second.node.log.length = 6 := by decide +kernel
  have hlease : req.client ∈ (p.second.node.upTo 6).leases := by decide +kernel
  have hb : req.Blocking := .lock _ _ _ (by decide)
  have hr : Lib.Reaches (Pair.next req req) (fun p a => PairEnv req p a ∧ CancelsInTime req p a) {} p :=
    exec_reaches .init he
  clear_value p
  refine ⟨p,he,hp,(successor_keeps_place hb hb rfl rfl).1 p hr ⟨by rw [hp]; rfl,?_,?_⟩⟩
  · intro i hi j hij hj
    cases hown.symm.trans hi
    rwa [show j = 6 by omega]
  · intro i hi j cmd hij hj
    cases hown.symm.trans hi
    have := (List.getElem?_eq_some_iff.mp hj).1
    omega

/-- The second call of b shares the queue entry of the first one, whose
CancelWait is committed last: b waits and is in no line. -/
theorem abandoned_call_dequeues_successor :
    let req := lockRequest (str "k") (str "b") false
    let as : List PairAction := [.others (.leaseGrant (str "a") 5 0),.others (.leaseGrant (str "b") 5 0),
      .others (.acquireLock (str "k") (str "a") false),.first .subscribe,.first .propose,.first .answer,.endFirst,
      .first .expire,.first .readFail,.second .subscribe,.second .propose,.second .answer,.first .cancel]
    ∃ p, exec (Pair.next req req) (PairEnv req) {} as = some p ∧ p.second.phase = .parked ∧
      Entitled req p.second ∧ p.second.node.full.line (str "k") = [str "a"] := by
  intro req as
  let p := (exec (Pair.next req req) (PairEnv req) {} as).getD {}
  have he : exec (Pair.next req req) (PairEnv req) {} as = some p := by decide +kernel
  have hp : p.second.phase = .parked := by decide +kernel
  have hline : p.second.node.full.line (str "k") = [str "a"] := by decide +kernel
  have hown : p.second.own = some 4 := by decide +kernel
  have hlen : p.second.node.log.length = 6 := by decide +kernel
  have hlast : p.second.node.log[5]? = some (.cancelWait (str "k") (str "b")) := by decide +kernel
  have hlease : req.client ∈ (p.second.node.upTo 5).leases ∧ req.client ∈ (p.second.node.upTo 6).leases := by
    decide +kernel
  clear_value p
  refine ⟨p,he,hp,⟨by rw [hp]; rfl,?_,?_⟩,hline⟩
  · intro i hi j hij hj
    cases hown.symm.trans hi
    rcases (show j = 5 ∨ j = 6 by omega) with rfl | rfl
    · exact hlease.1
    · exact hlease.2
  · intro i hi j cmd hij hj t ht
    cases hown.symm.trans hi
    have := (List.getElem?_eq_some_iff.mp hj).1
    rw [show j = 5 by omega,hlast] at hj
    cases hj
    cases ht

end Zuul.Server
