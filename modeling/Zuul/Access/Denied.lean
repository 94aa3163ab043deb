import Zuul.Fsm.LeaseLife
import Zuul.Access.Plane

/-! What callers without write access to a key can do to its lock. -/
namespace Zuul.Access
open Lib Fsm
open Sessions (Call CallStep Choice Manager Moved Stream Phase)
variable {cfg : Config} {s s' : Cluster} {a : Step} {k i c : Str} {n g j : Nat} {fate : Fate} {ch : Choice}
  {req : Rpc} {m : Manager} {shards : Nat → FSM} {cmd : Command} {call : Call}

/-- The revoke that the handler gets committed when it moves: shard and client.
Only the end of a stream revokes leases. -/
def Task.revokes (ch : Choice) : Task → Option (Nat × Str)
  | .stream _ c st =>
    match st.phase with
    | .closing (.revoke todo) => if ch.shard ∈ todo ∧ ch.commits then some (ch.shard,c) else none
    | _ => none
  | .rpc .. => none

/-- The step revokes no lease below the key: none of a client that holds the key or
waits for it. -/
def Spares (cfg : Config) (k : Str) (s : Cluster) : Step → Prop
  | .work n _ ch => ∀ t ∈ s.tasks[n]?, ∀ e ∈ t.revokes ch, e.1 = cfg.route k → e.2 ∉ (s.shards (cfg.route k)).line k
  | _ => True

instance (cfg : Config) (k : Str) (s : Cluster) (a : Step) : Decidable (Spares cfg k s a) :=
  match a with
  | .work n _ ch => inferInstanceAs (Decidable (∀ t ∈ s.tasks[n]?, ∀ e ∈ t.revokes ch, _))
  | .call .. | .connect .. | .turn .. | .receive .. | .proceed .. | .eof _ | .fail _ | .commit .. => .isTrue trivial

section Inversion

private theorem after_shards (s : Cluster) (k j : Nat) (cmd : Command) :
    s.after (some (k,cmd)) j = if j = k then ((s.shards k).step cmd).fsm else s.shards j := Function.update_apply ..

private theorem turn_inversion (h : s.turn cfg n fate = some s') : ∃ i node req phase r,
    s.tasks[n]? = some (.rpc i node req phase) ∧ phase.step cfg i req (s.managers node) s.shards fate = some r ∧
    s' = s.absorb n node r.manager r.commit (.rpc i node req r.phase) := by
  rw [Cluster.turn] at h
  split at h
  · rename_i i node req phase ht
    obtain ⟨r,hr,rfl⟩ := Option.map_eq_some_iff.mp h
    exact ⟨i,node,req,phase,r,ht,hr,rfl⟩
  · cases h

private theorem work_inversion (h : s.work n g ch = some s') : ∃ i c st call r,
    s.tasks[n]? = some (.stream i c st) ∧ st.phase.task g = some call ∧
    CallStep c (s.managers st.node) s.shards ch call r ∧
    s' = s.absorb n st.node r.manager r.commit (.stream i c (st.setPhase (st.phase.setTask g r.call))) := by
  rw [Cluster.work] at h
  split at h
  · rename_i i c st ht
    obtain ⟨call,hc,h⟩ := Option.bind_eq_some_iff.mp h
    obtain ⟨r,hr,rfl⟩ := Option.map_eq_some_iff.mp h
    exact ⟨i,c,st,call,r,ht,hc,Sessions.step_call hr,rfl⟩
  · cases h

private theorem receive_inversion {clientID assigned : Str} {reqMS : Int64}
    (h : s.receive cfg n clientID assigned reqMS = some s') : ∃ i c st st', s.tasks[n]? = some (.stream i c st) ∧
    st.receive cfg.sessions (clientID ≠ []) reqMS = some st' ∧
    s' = s.setTask n (.stream i (if st.phase = .start then (if clientID = [] then assigned else clientID) else c) st') := by
  rw [Cluster.receive] at h
  split at h
  · rename_i i c st ht
    obtain ⟨st',hst,rfl⟩ := Option.map_eq_some_iff.mp h
    exact ⟨i,c,st,st',ht,hst,rfl⟩
  · cases h

private theorem stream_inversion {move : Str → Stream → Option Stream} (h : s.stream n move = some s') : ∃ i c st st',
    s.tasks[n]? = some (.stream i c st) ∧ move c st = some st' ∧ s' = s.setTask n (.stream i c st') := by
  rw [Cluster.stream] at h
  split at h
  · rename_i i c st ht
    obtain ⟨st',hst,rfl⟩ := Option.map_eq_some_iff.mp h
    exact ⟨i,c,st,st',ht,hst,rfl⟩
  · cases h

end Inversion

section Invariant

/-- The steps of Manager.Close. -/
private def revoking : Call → Bool
  | .close | .listRevokes _ | .revoke _ => true
  | _ => false

/-- The call passed its two checks. -/
private def RpcPhase.inside : RpcPhase → Bool
  | .arrived | .returned _ => false
  | _ => true

/-- The stream was opened and has not returned. -/
private def serving : Phase → Bool
  | .start | .returned _ => false
  | _ => true

/-- What holds of every handler: an RPC inside was admitted, a stream that was
opened has a client, and only the end of a stream closes. -/
private def Task.Guarded (cfg : Config) : Task → Prop
  | .rpc i _ req phase => (phase.inside = true → req.checks cfg i = .ok ()) ∧
      ∀ call, phase = .ensuring call → revoking call = false
  | .stream _ c st => (serving st.phase = true → c ≠ []) ∧
      ∀ g call, st.phase.task g = some call → revoking call = true → ∃ call', st.phase = .closing call'

private theorem revoking_step {r : Moved} (h : CallStep c m shards ch call r) (hc : revoking call = false) :
    revoking r.call = false := by
  cases h with
  | attach | ensureLease | keepAlive =>
    rcases Sessions.lookup_cases c m _ with hl | ⟨p,_,hl⟩
    · rw [hl]
      rfl
    · rw [hl]
      rfl
  | close | listRevokes | revoke | revoked => cases hc
  | _ => rfl

private theorem requireKeyAndClient_ok {key : Str} (h : requireKeyAndClient key c = .ok ()) : c ≠ [] := by
  rintro rfl
  cases h

private theorem authorize_ok {key : Str} {op : Op} (h : authorize cfg i key op = .ok ()) :
    cfg.authorizer i key op = true := by
  rw [authorize] at h
  split at h
  · assumption
  · cases h

private theorem checks_ok (h : req.checks cfg i = .ok ()) :
    req.clientID ≠ [] ∧ cfg.authorizer i req.key .write = true := by
  rw [Rpc.checks] at h
  cases hk : requireKeyAndClient req.key req.clientID with
  | error e => rw [hk] at h; cases h
  | ok u =>
    rw [hk] at h
    exact ⟨requireKeyAndClient_ok hk,authorize_ok h⟩

/-- What a caller gets committed, the revokes at the end of a stream apart: commands
on keys it may write, and grants and renewals of leases. -/
private def Permitted (cfg : Config) (i : Str) (j : Nat) (cmd : Command) : Prop :=
  (∃ key, cmd.lockName = some key ∧ j = cfg.route key ∧ cfg.authorizer i key .write = true) ∨
  (∃ c ttlMS now, cmd = .leaseGrant c ttlMS now) ∨ ∃ c now, cmd = .leaseKeepAlive c now

private theorem permitted_of_call {r : Moved} (h : CallStep c m shards ch call r) (hc : revoking call = false)
    (hr : r.commit = some (j,cmd)) : Permitted cfg i j cmd := by
  rcases h.commits hr with ⟨ttlMS,now,rfl⟩ | ⟨now,rfl⟩ | ⟨todo,rfl,_⟩
  · exact .inr (.inl ⟨c,ttlMS,now,rfl⟩)
  · exact .inr (.inr ⟨c,now,rfl⟩)
  · cases hc

private theorem command_key (req : Rpc) :
    req.command.lockName = some req.key ∧ req.command.clientID = req.clientID := by
  cases req <;> exact ⟨rfl,rfl⟩

private theorem ensure_step (cfg : Config) (i : Str) {r : RpcMoved} (hc : revoking call = false)
    (h : RpcPhase.ensure req m shards fate call = some r) :
    (∀ call', r.phase = .ensuring call' → revoking call' = false) ∧
    ∀ {j cmd}, r.commit = some (j,cmd) → cmd.clientID = req.clientID ∧ Permitted cfg i j cmd := by
  rw [RpcPhase.ensure.eq_def] at h
  split at h
  · rename_i res
    cases h
    refine ⟨fun call' he => ?_,fun hcom => by cases hcom⟩
    simp only [RpcPhase.ensured] at he
    split at he
    all_goals cases he
  · obtain ⟨r',hr,rfl⟩ := Option.map_eq_some_iff.mp h
    have hs := Sessions.step_call hr
    refine ⟨fun call' he => ?_,fun hcom => ⟨hs.client hcom,permitted_of_call hs hc hcom⟩⟩
    cases he
    exact revoking_step hs hc

private theorem named_of (hc : cmd.clientID = c) (hne : c ≠ []) : cmd.Named := by
  rw [Command.Named,hc]
  exact hne

private theorem returned_or {o : Option Reply} {ph : RpcPhase}
    (h : (o.map RpcPhase.returned).getD ph = .ensuring call) : ph = .ensuring call := by
  cases o with
  | none => exact h
  | some reply => cases h

private theorem wait_plain (req : Rpc) (f : FSM) (fate : Fate) (call : Call) :
    RpcPhase.wait req f fate ≠ .ensuring call := by
  intro he
  simp only [RpcPhase.wait] at he
  split at he
  · split at he
    · cases he
    · cases returned_or he
  · cases returned_or he

private theorem proposed_plain (req : Rpc) (ch : Choice) (res : CommandResult) (call : Call) :
    RpcPhase.proposed req ch res ≠ .ensuring call := by
  intro he
  simp only [RpcPhase.proposed] at he
  split at he
  · cases returned_or he
  · cases he

private theorem guarded_plain {node : Nat} {phase : RpcPhase}
    (ha : phase.inside = true → req.checks cfg i = .ok ())
    (hp : ∀ call, phase ≠ .ensuring call) : (Task.rpc i node req phase).Guarded cfg :=
  ⟨ha,fun call he => (hp call he).elim⟩

private theorem guarded_admitted (cfg : Config) (i : Str) (node : Nat) (req : Rpc) :
    (Task.rpc i node req (.admitted cfg i req)).Guarded cfg := by
  rw [RpcPhase.admitted]
  split
  · exact guarded_plain (fun hx => by cases hx) (fun _ he => by cases he)
  · rename_i hadm
    split
    · refine ⟨fun _ => hadm,fun call he => ?_⟩
      cases he
      rfl
    · exact guarded_plain (fun _ => hadm) (fun _ he => by cases he)

private theorem cancel_plain (cfg : Config) (req : Rpc) (m : Manager) (fate : Fate) (attempt : Nat) (call : Call) :
    (RpcPhase.cancel cfg req m fate attempt).phase ≠ .ensuring call := by
  rw [RpcPhase.cancel]
  split
  · intro he
    simp only at he
    split at he
    · cases he
    · cases he
  · exact fun he => by cases he

private theorem cancel_commits {attempt : Nat} (h : (RpcPhase.cancel cfg req m fate attempt).commit = some (j,cmd)) :
    Call.proposal fate.ch (cfg.route req.key) (.cancelWait req.key req.clientID) = some (j,cmd) := by
  rw [RpcPhase.cancel] at h
  split at h
  · exact h
  · cases h

private theorem rpc_step {node : Nat} {phase : RpcPhase} {r : RpcMoved} (hg : (Task.rpc i node req phase).Guarded cfg)
    (h : phase.step cfg i req m shards fate = some r) : (Task.rpc i node req r.phase).Guarded cfg ∧
    ∀ {j cmd}, r.commit = some (j,cmd) → cmd.Named ∧ Permitted cfg i j cmd := by
  have on_key : req.checks cfg i = .ok () → ∀ {cmd' : Command} {j cmd}, cmd'.lockName = some req.key →
      cmd'.clientID = req.clientID → Call.proposal fate.ch (cfg.route req.key) cmd' = some (j,cmd) →
      cmd.Named ∧ Permitted cfg i j cmd := by
    intro hadm cmd' j cmd hk hcl hcom
    obtain ⟨_,rfl,rfl⟩ := Sessions.proposal_eq hcom
    obtain ⟨hne,hw⟩ := checks_ok hadm
    exact ⟨named_of hcl hne,.inl ⟨req.key,hk,rfl,hw⟩⟩
  cases phase with
  | arrived =>
    cases h
    exact ⟨guarded_admitted cfg i node req,fun hx => by cases hx⟩
  | ensuring call =>
    have hadm := hg.1 rfl
    obtain ⟨hcalls,hcom⟩ := ensure_step cfg i (hg.2 call rfl) h
    refine ⟨⟨fun _ => hadm,hcalls⟩,fun hx => ?_⟩
    obtain ⟨hcl,hp⟩ := hcom hx
    exact ⟨named_of hcl (checks_ok hadm).1,hp⟩
  | proposing =>
    have hadm := hg.1 rfl
    cases h
    exact ⟨guarded_plain (fun _ => hadm) (proposed_plain _ _ _),on_key hadm (command_key req).1 (command_key req).2⟩
  | waiting =>
    have hadm := hg.1 rfl
    cases h
    exact ⟨guarded_plain (fun _ => hadm) (wait_plain _ _ _),fun hx => by cases hx⟩
  | cancelling attempt =>
    have hadm := hg.1 rfl
    cases h
    refine ⟨guarded_plain (fun _ => hadm) (cancel_plain cfg req m fate attempt),fun hx => ?_⟩
    exact on_key hadm rfl rfl (cancel_commits hx)
  | leaving =>
    have hadm := hg.1 rfl
    cases h
    exact ⟨guarded_plain (fun _ => hadm) (fun _ he => by cases he),fun hx => by cases hx⟩
  | returned reply => cases h

section Streams
variable {st st' : Stream}

private theorem task_setTask (ph : Phase) (g' : Nat) {call' : Call} (h : (ph.setTask g call).task g' = some call') :
    call' = call ∨ ph.task g' = some call' := by
  cases ph with
  | recovering calls =>
    have h : (calls.set g call)[g']? = some call' := h
    rw [List.getElem?_set] at h
    split at h
    · split at h
      · exact .inl (Option.some.inj h).symm
      · cases h
    · exact .inr h
  | opening | renewing | closing => exact .inl (Option.some.inj h).symm
  | _ => cases h

private theorem guarded_stream (hc : c ≠ []) (h : ∀ g call, st.phase.task g = some call → revoking call = false) :
    (Task.stream i c st).Guarded cfg :=
  ⟨fun _ => hc,fun g call ht hr => by rw [h g call ht] at hr; cases hr⟩

private theorem guarded_receive {clientID assigned : Str} {reqMS : Int64} (hg : (Task.stream i c st).Guarded cfg)
    (ha : assigned ≠ []) (h : st.receive cfg.sessions (clientID ≠ []) reqMS = some st') :
    (Task.stream i (if st.phase = .start then (if clientID = [] then assigned else clientID) else c) st').Guarded cfg := by
  rw [Stream.receive] at h
  split at h
  · rename_i hst
    cases h
    refine guarded_stream ?_ (fun g call ht => ?_)
    · rw [if_pos hst]
      split
      · exact ha
      · assumption
    · cases ht
      rfl
  · rename_i hst
    cases h
    rw [hst,if_neg (fun hx => by cases hx)]
    refine guarded_stream (hg.1 (by rw [hst]; rfl)) (fun g call ht => ?_)
    cases ht
    rfl
  · cases h

private theorem guarded_proceed {now : Int64} (hg : (Task.stream i c st).Guarded cfg)
    (h : st.proceed cfg.sessions c now = some st') : (Task.stream i c st').Guarded cfg := by
  have hs : serving st.phase = true := by
    rw [Stream.proceed] at h
    cases hph : st.phase with
    | start | returned => rw [hph] at h; cases h
    | _ => rfl
  refine guarded_stream (hg.1 hs) (fun g call ht => ?_)
  rw [Stream.proceed] at h
  split at h
  · cases h
    simp only [Stream.setPhase] at ht
    split at ht
    · have ht : (cfg.sessions.shards.map Call.recover)[g]? = some call := ht
      obtain ⟨shard,_,rfl⟩ := List.mem_map.mp (List.mem_of_getElem? ht)
      rfl
    · cases ht
  · split at h
    · cases h
      cases ht
    · cases h
  all_goals cases h
  all_goals cases ht

private theorem guarded_returned (i c : Str) (st : Stream) (err : Bool) :
    (Task.stream i c (st.setPhase (.returned err))).Guarded cfg :=
  ⟨fun hx => (by cases hx),fun _ _ hx => (by cases hx)⟩

private theorem guarded_eof (hg : (Task.stream i c st).Guarded cfg) (h : st.eof = some st') :
    (Task.stream i c st').Guarded cfg := by
  rw [Stream.eof] at h
  split at h
  · cases h
    exact guarded_returned i c st false
  · rename_i hst
    cases h
    exact ⟨fun _ => hg.1 (by rw [hst]; rfl),fun _ _ _ _ => ⟨.close,rfl⟩⟩
  · cases h

private theorem guarded_fail (h : st.fail = some st') : (Task.stream i c st').Guarded cfg := by
  rw [Stream.fail] at h
  split at h
  all_goals cases h
  all_goals exact guarded_returned i c st true

private theorem serving_of_task (ht : st.phase.task g = some call) : serving st.phase = true := by
  cases hph : st.phase with
  | start | returned => rw [hph] at ht; cases ht
  | _ => rfl

private theorem guarded_work {r : Moved} (hg : (Task.stream i c st).Guarded cfg) (ht : st.phase.task g = some call)
    (hr : CallStep c m shards ch call r) :
    (Task.stream i c (st.setPhase (st.phase.setTask g r.call))).Guarded cfg := by
  refine ⟨fun _ => hg.1 (serving_of_task ht),fun g' call' ht' hrev => ?_⟩
  -- a call that closes comes from a call that closed
  have hold : ∃ call₀, st.phase = .closing call₀ := by
    rcases task_setTask st.phase g' ht' with rfl | hold
    · refine hg.2 g call ht ?_
      by_contra hno
      rw [revoking_step hr (Bool.not_eq_true _ |>.mp hno)] at hrev
      cases hrev
    · exact hg.2 g' call' hold hrev
  obtain ⟨call₀,hph⟩ := hold
  exact ⟨r.call,by rw [hph]; rfl⟩

private theorem work_commits {r : Moved} (hg : (Task.stream i c st).Guarded cfg) (ht : st.phase.task g = some call)
    (hr : CallStep c m shards ch call r) (hcom : r.commit = some (j,cmd)) :
    cmd.Named ∧ (Permitted cfg i j cmd ∨ cmd = .leaseRevoke c ∧ (Task.stream i c st).revokes ch = some (j,c)) := by
  -- only the end of a stream has a call that revokes
  refine ⟨named_of (hr.client hcom) (hg.1 (serving_of_task ht)),?_⟩
  rcases hr.commits hcom with ⟨ttlMS,now,rfl⟩ | ⟨now,rfl⟩ | ⟨todo,rfl,hin,rfl,hyes,rfl⟩
  · exact .inl (.inr (.inl ⟨c,ttlMS,now,rfl⟩))
  · exact .inl (.inr (.inr ⟨c,now,rfl⟩))
  · refine .inr ⟨rfl,?_⟩
    obtain ⟨call',hph⟩ := hg.2 g _ ht rfl
    rw [hph] at ht
    cases ht
    rw [Task.revokes,hph]
    exact if_pos ⟨hin,hyes⟩

private theorem revokes_commits {r : Moved} (ht : st.phase.task g = some call) (hr : CallStep c m shards ch call r)
    {e : Nat × Str} (he : (Task.stream i c st).revokes ch = some e) : r.commit = some (e.1,.leaseRevoke e.2) := by
  simp only [Task.revokes] at he
  split at he
  · rename_i todo hph
    split at he
    · rename_i hin
      cases he
      rw [hph] at ht
      cases ht
      cases hr with
      | revoke => exact if_pos hin.2
      | revoked => exact absurd hin.1 (Finset.notMem_empty _)
    · cases he
  · cases he

end Streams

private structure Safe (cfg : Config) (s : Cluster) : Prop where
  shards : ∀ j, Inv (s.shards j)
  tasks : ∀ t ∈ s.tasks, t.Guarded cfg

private theorem after_inv (com : Option (Nat × Command)) (h : ∀ j, Inv (s.shards j))
    (hn : ∀ j cmd, com = some (j,cmd) → cmd.Named) (j : Nat) : Inv (s.after com j) := by
  cases com with
  | none => exact h j
  | some e =>
    obtain ⟨k,cmd⟩ := e
    exact update_inv h (hn k cmd rfl) k j

private theorem guarded_set {t : Task} (h : ∀ t ∈ s.tasks, t.Guarded cfg) (ht : t.Guarded cfg) :
    ∀ t' ∈ s.tasks.set n t, t'.Guarded cfg := by
  intro t' hm
  rcases List.mem_or_eq_of_mem_set hm with hm | rfl
  · exact h t' hm
  · exact ht

private theorem guarded_append {t : Task} (h : ∀ t ∈ s.tasks, t.Guarded cfg) (ht : t.Guarded cfg) :
    ∀ t' ∈ s.tasks ++ [t], t'.Guarded cfg := by
  intro t' hm
  rcases List.mem_append.mp hm with hm | hm
  · exact h t' hm
  · cases List.mem_singleton.mp hm
    exact ht

private theorem safe_next (h : Safe cfg s) (ha : Outside s a) (hn : s.next cfg a = some s') : Safe cfg s' := by
  cases a with
  | call i node req =>
    cases hn
    exact ⟨h.shards,guarded_append h.tasks (guarded_plain (fun hx => by cases hx) (fun _ he => by cases he))⟩
  | connect i node =>
    cases hn
    exact ⟨h.shards,guarded_append h.tasks ⟨fun hx => (by cases hx),fun _ _ hx => (by cases hx)⟩⟩
  | turn n fate =>
    obtain ⟨i,node,req,phase,r,ht,hr,rfl⟩ := turn_inversion hn
    obtain ⟨hg,hcom⟩ := rpc_step (h.tasks _ (List.mem_of_getElem? ht)) hr
    exact ⟨after_inv _ h.shards (fun _ _ hx => (hcom hx).1),guarded_set h.tasks hg⟩
  | receive n clientID assigned reqMS =>
    obtain ⟨i,c,st,st',ht,hst,rfl⟩ := receive_inversion hn
    exact ⟨h.shards,guarded_set h.tasks (guarded_receive (h.tasks _ (List.mem_of_getElem? ht)) ha hst)⟩
  | work n g ch =>
    obtain ⟨i,c,st,call,r,ht,hc,hr,rfl⟩ := work_inversion hn
    have hg := h.tasks _ (List.mem_of_getElem? ht)
    refine ⟨after_inv _ h.shards (fun _ _ hx => ?_),guarded_set h.tasks (guarded_work hg hc hr)⟩
    exact (work_commits hg hc hr hx).1
  | proceed n now =>
    obtain ⟨i,c,st,st',ht,hst,rfl⟩ := stream_inversion hn
    exact ⟨h.shards,guarded_set h.tasks (guarded_proceed (h.tasks _ (List.mem_of_getElem? ht)) hst)⟩
  | eof n =>
    obtain ⟨i,c,st,st',ht,hst,rfl⟩ := stream_inversion hn
    exact ⟨h.shards,guarded_set h.tasks (guarded_eof (h.tasks _ (List.mem_of_getElem? ht)) hst)⟩
  | fail n =>
    obtain ⟨i,c,st,st',ht,hst,rfl⟩ := stream_inversion hn
    exact ⟨h.shards,guarded_set h.tasks (guarded_fail hst)⟩
  | commit k cmd =>
    cases hn
    refine ⟨after_inv (some (k,cmd)) h.shards ?_,h.tasks⟩
    rintro j cmd' ⟨⟩
    exact ha

private theorem reaches_safe (h : Reaches (Cluster.next cfg) Outside {} s) : Safe cfg s :=
  h.rule ⟨fun _ => inv_new true,fun _ hm => (by cases hm)⟩ (fun _ _ _ => safe_next)

end Invariant

section Locks

private theorem permitted_lock (h : ∀ j, Inv (s.shards j)) (hd : cfg.authorizer i k .write = false)
    (hp : Permitted cfg i j cmd) :
    (s.after (some (j,cmd)) (cfg.route k)).locks.lookup k = (s.shards (cfg.route k)).locks.lookup k := by
  -- commands on other keys and lease commands leave the lock
  rw [after_shards]
  split
  · rename_i hj
    rw [hj]
    rcases hp with ⟨key,hkey,_,hw⟩ | ⟨c,ttlMS,now,rfl⟩ | ⟨c,now,rfl⟩
    · have hne : k ≠ key := by
        rintro rfl
        rw [hd] at hw
        cases hw
      exact (dispatch_edit (h j).bump hkey).locks hne
    · rfl
    · rw [keepAlive_locks]
  · rfl

private theorem work_lock_iff {st : Stream} {r : Moved} (h : ∀ j, Inv (s.shards j))
    (hg : (Task.stream i c st).Guarded cfg) (hd : cfg.authorizer i k .write = false)
    (hc : st.phase.task g = some call) (hr : CallStep c (s.managers st.node) s.shards ch call r) :
    (s.after r.commit (cfg.route k)).locks.lookup k = (s.shards (cfg.route k)).locks.lookup k ↔
      ∀ e ∈ (Task.stream i c st).revokes ch, e.1 = cfg.route k → e.2 ∉ (s.shards (cfg.route k)).line k := by
  cases hrev : (Task.stream i c st).revokes ch with
  | some e =>
    obtain ⟨j,d⟩ := e
    rw [revokes_commits hc hr hrev,after_shards]
    simp only [Option.mem_some_iff,forall_eq']
    by_cases hj : cfg.route k = j
    · subst hj
      rw [if_pos rfl,revoke_lock_iff (h _)]
      exact ⟨fun hx _ => hx,fun hx => hx rfl⟩
    · rw [if_neg hj]
      exact iff_of_true rfl (fun hx => (hj hx.symm).elim)
  | none =>
    refine iff_of_true ?_ (fun e he => by cases he)
    cases hcom : r.commit with
    | none => rfl
    | some e =>
      obtain ⟨_,hp | ⟨_,hx⟩⟩ := work_commits hg hc hr hcom
      · exact permitted_lock h hd hp
      · cases hrev.symm.trans hx

/-- A step for a caller that the policy denies Write on a key leaves the lock of the
key as it is exactly when it is not the end of a stream that revokes the lease of a
client which holds the key or waits for it. -/
theorem denied_leaves_lock_iff (h : Reaches (Cluster.next cfg) Outside {} s) (hi : s.caller a = some i)
    (hd : cfg.authorizer i k .write = false) (hn : s.next cfg a = some s') :
    (s'.shards (cfg.route k)).locks.lookup k = (s.shards (cfg.route k)).locks.lookup k ↔ Spares cfg k s a := by
  have hs := reaches_safe h
  cases a with
  | call | connect => cases hn; exact iff_of_true rfl trivial
  | commit => cases hi
  | receive =>
    obtain ⟨i,c,st,st',ht,hst,rfl⟩ := receive_inversion hn
    exact iff_of_true rfl trivial
  | proceed | eof | fail =>
    obtain ⟨i,c,st,st',ht,hst,rfl⟩ := stream_inversion hn
    exact iff_of_true rfl trivial
  | turn n fate =>
    obtain ⟨i',node,req,phase,r,ht,hr,rfl⟩ := turn_inversion hn
    rw [Cluster.caller,ht] at hi
    cases hi
    refine iff_of_true ?_ trivial
    change (s.after r.commit (cfg.route k)).locks.lookup k = _
    cases hcom : r.commit with
    | none => rfl
    | some e => exact permitted_lock hs.shards hd ((rpc_step (hs.tasks _ (List.mem_of_getElem? ht)) hr).2 hcom).2
  | work n g ch =>
    obtain ⟨i',c,st,call,r,ht,hc,hr,rfl⟩ := work_inversion hn
    rw [Cluster.caller,ht] at hi
    cases hi
    simp only [Spares,ht,Option.mem_some_iff,forall_eq']
    exact work_lock_iff hs.shards (hs.tasks _ (List.mem_of_getElem? ht)) hd hc hr

/-- One shard, and everyone may write in a directory of their own. -/
def ownDirectories : Config where
  route _ := 1
  authorizer identity key _ := Auth.Keypath.hasPrefix (Auth.Keypath.slash :: identity) key
  sessions := { shards := [1] }

/-- The identity alice opens a session for the client a and takes a lock in it. -/
def aliceLocks : List Step :=
  [.connect (str "alice") 0,.receive 0 (str "a") (str "x") 5000,.work 0 0 {},.work 0 0 {},.proceed 0 0,.work 0 0 {},
    .proceed 0 0,.proceed 0 0,.call (str "alice") 0 (.lock (str "/alice/k") (str "a") false),.turn 1 {},.turn 1 {},
    .turn 1 {},.turn 1 {},.turn 1 {},.turn 1 {}]

/-- Another identity ends the session of its own client, with a lock of its own. -/
theorem own_session_end_spares_lock : ∃ s s' a, Reaches (Cluster.next ownDirectories) Outside {} s ∧
    s.next ownDirectories a = some s' ∧ (s.shards 1).hold (str "/mallory/x") = some (str "m",2) ∧
    (s'.shards 1).hold (str "/mallory/x") = none ∧
    (s'.shards 1).locks.lookup (str "/alice/k") = (s.shards 1).locks.lookup (str "/alice/k") := by
  have hrun : ∃ s ∈ exec (Cluster.next ownDirectories) Outside {} (aliceLocks ++
      [.connect (str "mallory") 1,.receive 2 (str "m") (str "x") 5000,.work 2 0 {},.work 2 0 {},.proceed 2 0,.work 2 0 {},
        .proceed 2 0,.proceed 2 0,.call (str "mallory") 1 (.tryLock (str "/mallory/x") (str "m")),.turn 3 {},.turn 3 {},
        .turn 3 {},.turn 3 {},.turn 3 {},.turn 3 {},.eof 2,.work 2 0 {},.work 2 0 {}]),
      ∃ s' ∈ s.next ownDirectories (.work 2 0 { shard := 1 }), s.caller (.work 2 0 { shard := 1 }) = some (str "mallory") ∧
        (s.shards 1).hold (str "/mallory/x") = some (str "m",2) ∧ (s'.shards 1).hold (str "/mallory/x") = none ∧
        Spares ownDirectories (str "/alice/k") s (.work 2 0 { shard := 1 }) := by decide +kernel
  obtain ⟨s,hs,s',hs',hi,hk,hk',hsp⟩ := hrun
  have hr := exec_reaches .init hs
  refine ⟨s,s',_,hr,hs',hk,hk',?_⟩
  exact (denied_leaves_lock_iff (k := str "/alice/k") hr hi (by decide +kernel) hs').mpr hsp

/-- Another identity opens a stream under the client id a, which attaches the
leases of that client, and ends it: the lock is gone. -/
theorem stream_end_drops_denied_lock : ∃ s s' a, Reaches (Cluster.next ownDirectories) Outside {} s ∧
    s.caller a = some (str "mallory") ∧ s.next ownDirectories a = some s' ∧
    ownDirectories.authorizer (str "mallory") (str "/alice/k") .write = false ∧
    (s.shards 1).hold (str "/alice/k") = some (str "a",1) ∧ (s'.shards 1).hold (str "/alice/k") = none := by
  have hrun : ∃ s ∈ exec (Cluster.next ownDirectories) Outside {} (aliceLocks ++
      [.connect (str "mallory") 1,.receive 2 (str "a") (str "x") 5000,.work 2 0 {},.work 2 0 {},.proceed 2 0,.work 2 0 {},
        .work 2 0 {},.work 2 0 {},.proceed 2 0,.proceed 2 0,.eof 2,.work 2 0 {},.work 2 0 {}]),
      ∃ s' ∈ s.next ownDirectories (.work 2 0 { shard := 1 }), s.caller (.work 2 0 { shard := 1 }) = some (str "mallory") ∧
        ownDirectories.authorizer (str "mallory") (str "/alice/k") .write = false ∧
        (s.shards 1).hold (str "/alice/k") = some (str "a",1) ∧ (s'.shards 1).hold (str "/alice/k") = none := by
    decide +kernel
  obtain ⟨s,hs,s',hs',hi,hd,hk,hk'⟩ := hrun
  exact ⟨s,s',_,exec_reaches .init hs,hi,hs',hd,hk,hk'⟩

end Locks
end Zuul.Access
