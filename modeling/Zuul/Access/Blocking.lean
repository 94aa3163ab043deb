import Zuul.Access.Plane
import Zuul.Server.HandlerInvariant

/-! The handlers of the client plane read a shard and propose to it in one step each. A
blocking call that reads through a replica behind the log, waits at a hub that coalesces and
has its commands proposed again does nothing they cannot do. -/
namespace Zuul.Access
open Lib Fsm

/-- The two calls that block, as the server runs them. -/
def Rpc.blocking : Rpc → Option Server.Request
  | lock name clientID bounded => some (Server.lockRequest name clientID bounded)
  | campaign name clientID value bounded => some (Server.campaignRequest name clientID value bounded)
  | _ => none

private theorem Rpc.blocking_eq {req : Rpc} {rq : Server.Request} (h : req.blocking = some rq) :
    rq = ⟨req.key,req.clientID,req.command,req.bounded⟩ := by
  cases req <;> cases h <;> rfl

private theorem Rpc.blocking_answer {req : Rpc} {rq : Server.Request} (h : req.blocking = some rq)
    (res : CommandResult) : req.answer res = match res.outcome with
      | .granted => some (.acquired res.lockKey res.fencingToken res.revision)
      | .noLease => some (.error (.noLiveLease req.clientID))
      | .queued => none
      | o => some (.error (.unexpectedOutcome o)) := by
  rw [Rpc.answer.eq_def]
  cases req <;> cases h <;> cases res.outcome <;> rfl

private theorem Rpc.blocking_request {req : Rpc} {rq : Server.Request} (h : req.blocking = some rq)
    (hc : req.clientID ≠ []) : rq.Blocking := by
  cases req <;> cases h <;> constructor <;> exact hc

/-- The reply of a blocking call among those of all calls. -/
def Reply.ofServer : Server.Reply → Reply
  | .ok r => if r.acquired then .acquired r.key r.token r.revision else .timedOut r.key
  | .error .propose => .error .backend
  | .error (.noLiveLease c) => .error (.noLiveLease c)
  | .error (.unexpectedOutcome o) => .error (.unexpectedOutcome o)
  | .error .wait => .error .wait

/-- A blocking call of a named client that was let through, before anything is committed to
its shard. -/
structure Admitted where
  cfg : Config
  cluster : Cluster
  identity : Str
  node : Nat
  n : Nat
  req : Rpc
  server : Server.Request
  blocking : req.blocking = some server
  named : req.clientID ≠ []
  task : cluster.tasks[n]? = some (.rpc identity node req .proposing)
  shard : cluster.shards (cfg.route req.key) = new true

namespace Admitted
variable {b : Admitted} {f : FSM} {cmd : Command} {log : List Command} {phase phase' : RpcPhase} {s s' : Server.Sys}

def shardID (b : Admitted) : Nat := b.cfg.route b.req.key

/-- Only the call goes on, and commands of named clients are committed to its shard. -/
def Alone (b : Admitted) (_ : Cluster) : Step → Prop
  | .turn n _ => n = b.n
  | .commit shardID cmd => shardID = b.shardID ∧ cmd.Named
  | _ => False

/-- The plane's handler can come to a phase over a state of the shard. -/
def Comes (b : Admitted) (f : FSM) (phase : RpcPhase) : Prop :=
  ∃ c, Reaches (Cluster.next b.cfg) b.Alone b.cluster c ∧
    c.tasks[b.n]? = some (.rpc b.identity b.node b.req phase) ∧ c.shards b.shardID = f

private theorem comes_start (b : Admitted) : b.Comes (new true) .proposing := ⟨b.cluster,.init,b.task,b.shard⟩

private theorem Comes.commit (h : b.Comes f phase) (hn : cmd.Named) : b.Comes (f.step cmd).fsm phase := by
  obtain ⟨c,hr,ht,hk⟩ := h
  refine ⟨_,hr.step (a := .commit b.shardID cmd) ⟨rfl,hn⟩ rfl,ht,?_⟩
  change Function.update c.shards _ _ _ = _
  rw [Function.update_self,hk]

private theorem Comes.turn (h : b.Comes f phase) (fate : Fate) (proposal : Option Command)
    (hs : ∀ m shards, shards b.shardID = f → phase.step b.cfg b.identity b.req m shards fate =
      some { manager := m, commit := proposal.map (b.shardID,·), phase := phase' }) :
    b.Comes (proposal.elim f (fun cmd => (f.step cmd).fsm)) phase' := by
  obtain ⟨c,hr,ht,hk⟩ := h
  have hn : c.next b.cfg (.turn b.n fate) = some (c.absorb b.n b.node (c.managers b.node)
      (proposal.map (b.shardID,·)) (.rpc b.identity b.node b.req phase')) := by
    rw [Cluster.next,Cluster.turn,ht]
    dsimp only
    rw [hs _ _ hk]
    rfl
  refine ⟨_,hr.step (a := .turn b.n fate) rfl hn,?_,?_⟩
  · exact List.getElem?_set_self (List.getElem?_eq_some_iff.mp ht).1
  · cases proposal with
    | none => exact hk
    | some cmd =>
      change Function.update c.shards _ _ _ = _
      rw [Function.update_self,hk]
      rfl

/-- The same over the state after a whole log. -/
def ComesAfter (b : Admitted) (log : List Command) (phase : RpcPhase) : Prop :=
  b.Comes (Server.stateAt log log.length) phase

private theorem stateAt_concat (log : List Command) (cmd : Command) :
    Server.stateAt (log ++ [cmd]) (log ++ [cmd]).length = ((Server.stateAt log log.length).step cmd).fsm := by
  rw [List.length_append,List.length_singleton,Server.stateAt_succ List.getElem?_concat_length,
    Server.stateAt_append (Nat.le_refl _)]

private theorem ComesAfter.commit (h : b.ComesAfter log phase) (hn : cmd.Named) :
    b.ComesAfter (log ++ [cmd]) phase := by
  rw [ComesAfter,stateAt_concat]
  exact Comes.commit h hn

private theorem Comes.catchUp {j : Nat} (h : b.Comes (Server.stateAt log j) phase) (hn : ∀ cmd ∈ log, cmd.Named)
    (hj : j ≤ log.length) : b.ComesAfter log phase := by
  -- others commit the rest of the log
  induction hj using Nat.decreasingInduction with
  | self => exact h
  | of_succ k hk ih =>
    refine ih ?_
    have hget : log[k]? = some log[k] := List.getElem?_eq_getElem hk
    rw [Server.stateAt_succ hget]
    exact h.commit (hn _ (List.getElem_mem hk))

/-- Where the plane's handler can be while the server's is in a phase. A proposal under way
may be answered, fail or be made again; a confirming read may take effect anywhere in the
log from the commit index it learned. -/
def Covers (b : Admitted) (log : List Command) : Server.Phase → Prop
  | .start | .subscribed => b.ComesAfter log .proposing
  | .proposed res => b.ComesAfter log .proposing ∧ b.ComesAfter log (.returned (.error .backend)) ∧
      b.ComesAfter log (((b.req.answer res).map .returned).getD .waiting)
  | .parked | .woken | .confirm _ none => b.ComesAfter log .waiting
  | .confirm _ (some index) => index ≤ log.length ∧
      ∀ j, index ≤ j → j ≤ log.length → b.Comes (Server.stateAt log j) .waiting
  | .cancelling attempt false => attempt < 3 ∧ b.ComesAfter log (.cancelling attempt)
  | .cancelling attempt true =>
    attempt < 3 ∧ b.ComesAfter log .leaving ∧ b.ComesAfter log (.cancelling (attempt + 1))
  | .leaving => b.ComesAfter log .leaving
  | .done r => b.ComesAfter log (.returned (.ofServer r))

private theorem Covers.commit {p : Server.Phase} (h : b.Covers log p) (hn : cmd.Named) : b.Covers (log ++ [cmd]) p := by
  cases p with
  | start | subscribed | parked | woken | leaving | done => exact ComesAfter.commit h hn
  | proposed => exact ⟨h.1.commit hn,h.2.1.commit hn,h.2.2.commit hn⟩
  | confirm expired index =>
    cases index with
    | none => exact ComesAfter.commit h hn
    | some index =>
      obtain ⟨hi,h⟩ := h
      refine ⟨by rw [List.length_append]; omega,fun j hj hl => ?_⟩
      rcases Nat.lt_or_ge log.length j with hlt | hge
      · obtain rfl : j = (log ++ [cmd]).length := by
          rw [List.length_append,List.length_singleton] at hl ⊢
          omega
        exact ComesAfter.commit (h _ hi (Nat.le_refl _)) hn
      · rw [Server.stateAt_append hge]
        exact h j hj hge
  | cancelling attempt sent =>
    cases sent with
    | false => exact ⟨h.1,h.2.commit hn⟩
    | true => exact ⟨h.1,h.2.1.commit hn,h.2.2.commit hn⟩

private theorem Covers.propose (h : b.ComesAfter log .proposing) :
    b.Covers (log ++ [b.server.command])
      (.proposed ((Server.stateAt log log.length).step b.server.command).result) := by
  have hn := (Rpc.blocking_request b.blocking b.named).command_named
  rw [Rpc.blocking_eq b.blocking] at hn ⊢
  refine ⟨h.commit hn,?_,?_⟩
  · rw [ComesAfter,stateAt_concat]
    exact h.turn { ch := { answered := false } } (some b.req.command) (fun m shards _ => rfl)
  · rw [ComesAfter,stateAt_concat]
    refine h.turn {} (some b.req.command) (fun m shards hk => ?_)
    rw [RpcPhase.step,shardID] at *
    rw [hk]
    rfl

private theorem Covers.answer {res : CommandResult}
    (h : b.ComesAfter s.node.log (((b.req.answer res).map .returned).getD .waiting)) :
    b.Covers (s.answer b.server res).node.log (s.answer b.server res).phase := by
  rw [Rpc.blocking_answer b.blocking] at h
  rw [Server.Sys.answer.eq_def,Rpc.blocking_eq b.blocking]
  cases ho : res.outcome <;> rw [ho] at h <;> exact h

private theorem Covers.read (h : b.ComesAfter s.node.log .waiting) (e : Event) :
    b.Covers (s.read b.server e).node.log (s.read b.server e).phase := by
  rw [Server.Sys.read,Rpc.blocking_eq b.blocking]
  dsimp only
  split_ifs with he
  · refine h.turn { event := some e } none (fun m shards _ => ?_)
    rw [RpcPhase.step,RpcPhase.wait]
    dsimp only
    rw [if_pos he]
    rfl
  · exact h

private theorem Covers.unconfirmed {expired : Bool} (h : b.ComesAfter s.node.log .waiting) :
    b.Covers (s.unconfirmed expired).node.log (s.unconfirmed expired).phase := by
  cases expired with
  | false => exact h
  | true => exact ⟨by decide,h.turn { readable := false } none (fun m shards _ => rfl)⟩

private theorem Covers.confirmed {expired : Bool} (hn : ∀ cmd ∈ s.node.log, cmd.Named)
    (ha : s.node.applied ≤ s.node.log.length) (h : b.Comes (s.node.upTo s.node.applied) .waiting) :
    let s' := s.confirmed b.server expired ((s.node.upTo s.node.applied).status b.server.key)
    b.Covers s'.node.log s'.phase := by
  -- the read takes effect at the entry the replica has applied
  rw [Server.Sys.confirmed,Rpc.blocking_eq b.blocking]
  dsimp only
  split_ifs with hh
  · refine Comes.catchUp (h.turn {} none (fun m shards hk => ?_)) hn ha
    rw [shardID] at hk
    rw [RpcPhase.step,RpcPhase.wait,hk,RpcPhase.confirm]
    dsimp only
    rw [if_pos rfl,if_pos hh]
    rfl
  · exact Covers.unconfirmed (h.catchUp hn ha)

private theorem Covers.cancel {attempt : Nat} (ha : attempt < 3) (h : b.ComesAfter log (.cancelling attempt)) :
    b.Covers (log ++ [.cancelWait b.server.key b.server.client]) (.cancelling attempt true) := by
  rw [Rpc.blocking_eq b.blocking]
  refine ⟨ha,?_,?_⟩
  · rw [ComesAfter,stateAt_concat]
    refine h.turn {} (some (.cancelWait b.req.key b.req.clientID)) (fun m shards _ => ?_)
    rw [RpcPhase.step,RpcPhase.cancel,if_pos ⟨ha,rfl⟩]
    rfl
  · rw [ComesAfter,stateAt_concat]
    refine h.turn { ch := { answered := false } } (some (.cancelWait b.req.key b.req.clientID)) (fun m shards _ => ?_)
    rw [RpcPhase.step,RpcPhase.cancel,if_pos ⟨ha,rfl⟩]
    rfl

private theorem ComesAfter.lost {attempt : Nat} (ha : attempt < 3) (h : b.ComesAfter log (.cancelling attempt)) :
    b.ComesAfter log (.cancelling (attempt + 1)) := by
  refine h.turn { ch := { commits := false } } none (fun m shards _ => ?_)
  rw [RpcPhase.step,RpcPhase.cancel,if_pos ⟨ha,rfl⟩]
  rfl

private theorem ComesAfter.giveUp {attempt : Nat} (h : b.ComesAfter log (.cancelling attempt)) :
    b.ComesAfter log .leaving := by
  refine h.turn { alive := false } none (fun m shards _ => ?_)
  rw [RpcPhase.step,RpcPhase.cancel,if_neg (fun ha => Bool.false_ne_true ha.2)]
  rfl

private theorem Covers.retry {attempt : Nat} (h : b.ComesAfter s.node.log (.cancelling (attempt + 1))) :
    b.Covers (s.retry attempt).node.log (s.retry attempt).phase := by
  rw [Server.Sys.retry]
  dsimp only
  split_ifs with ha
  · exact ⟨ha,h⟩
  · exact h.giveUp

private theorem Covers.leave (h : b.ComesAfter s.node.log .leaving) (alive : Bool) :
    b.Covers (s.leave b.server alive).node.log (s.leave b.server alive).phase := by
  have hr : b.ComesAfter s.node.log
      (.returned (if b.req.bounded ∧ alive then .timedOut b.req.key else .error .wait)) :=
    h.turn { alive := alive } none (fun m shards _ => rfl)
  rw [Server.Sys.leave,Rpc.blocking_eq b.blocking]
  dsimp only
  split_ifs with hb
  · rwa [if_pos hb] at hr
  · rwa [if_neg hb] at hr

private theorem covers_step {a : Server.Action} (hs : s.node.Sound) (h : b.Covers s.node.log s.phase)
    (ha : Server.Env s a) (hn : Server.Step b.server s a s') : b.Covers s'.node.log s'.phase := by
  cases hn with
  | commit => exact h.commit ha
  | apply hr =>
    obtain ⟨cmd,-,-,rfl⟩ := Server.Replica.apply_eq hr
    exact h
  | notify hr =>
    obtain ⟨m,e,rest,-,-,-,rfl⟩ := Server.notify_eq hr
    exact h
  | post hr =>
    obtain ⟨m,-,-,rfl⟩ := Server.post_eq hr
    exact h
  | skip hr =>
    obtain ⟨e,rest,-,-,rfl⟩ := Server.skip_eq hr
    exact h
  | subscribe hp =>
    rw [hp] at h
    exact h
  | propose hp =>
    rcases hp with hp | ⟨res,hp⟩ <;> rw [hp] at h
    · exact Covers.propose h
    · exact Covers.propose h.1
  | proposeFail hp =>
    rcases hp with hp | ⟨res,hp⟩ <;> rw [hp] at h
    · exact Comes.turn h { ch := { commits := false } } none (fun m shards _ => rfl)
    · exact h.2.1
  | answer hp =>
    rw [hp] at h
    exact Covers.answer h.2.2
  | take hm hw hp =>
    rw [hp] at h
    exact h
  | read hm hp =>
    rw [hp] at h
    exact Covers.read h _
  | readIndex hp =>
    rw [hp] at h
    refine ⟨Nat.le_refl _,fun j hj hl => ?_⟩
    rw [Nat.le_antisymm hl hj]
    exact h
  | readStatus hp hi ho =>
    rw [hp] at h
    exact Covers.confirmed hs.named hs.applied (h.2 _ hi hs.applied)
  | @readFail expired index hp =>
    rw [hp] at h
    cases index with
    | none => exact Covers.unconfirmed h
    | some index => exact Covers.unconfirmed (h.2 _ h.1 (Nat.le_refl _))
  | expire hp =>
    rw [hp] at h
    exact h
  | @cancel attempt sent hp =>
    rw [hp] at h
    cases sent with
    | false => exact Covers.cancel h.1 h.2
    | true => exact Covers.commit (p := .cancelling attempt true) h (by rw [Rpc.blocking_eq b.blocking]; exact b.named)
  | cancelAnswer hp =>
    rw [hp] at h
    exact h.2.1
  | @cancelFail attempt sent hp =>
    rw [hp] at h
    cases sent with
    | false => exact Covers.retry (h.2.lost h.1)
    | true => exact Covers.retry h.2.2
  | cancelGiveUp hp =>
    rw [hp] at h
    exact h.2.giveUp
  | leave alive hp =>
    rw [hp] at h
    exact Covers.leave h alive

private theorem Covers.comesAfter {p : Server.Phase} (h : b.Covers log p) :
    ∃ phase, b.ComesAfter log phase ∧ ∀ r, p = .done r → phase = .returned (.ofServer r) := by
  cases p with
  | start | subscribed | parked | woken | leaving => exact ⟨_,h,nofun⟩
  | proposed => exact ⟨_,h.1,nofun⟩
  | confirm expired index =>
    cases index with
    | none => exact ⟨_,h,nofun⟩
    | some index => exact ⟨_,h.2 _ h.1 (Nat.le_refl _),nofun⟩
  | cancelling attempt sent =>
    cases sent with
    | false => exact ⟨_,h.2,nofun⟩
    | true => exact ⟨_,h.2.1,nofun⟩
  | done r =>
    refine ⟨_,h,fun r' hr => ?_⟩
    cases hr
    rfl

/-- Whatever a blocking call, the replica it reads through and the other clients do, the
plane can do as well: with the same log committed to the shard, and the same reply. -/
theorem plane_covers (b : Admitted) (h : Server.Reaches b.server Server.Env s) :
    ∃ c phase, Reaches (Cluster.next b.cfg) b.Alone b.cluster c ∧ c.shards b.shardID = s.node.full ∧
      c.tasks[b.n]? = some (.rpc b.identity b.node b.req phase) ∧
      ∀ r, s.phase = .done r → phase = .returned (.ofServer r) := by
  have hi : Server.Good b.server s ∧ b.Covers s.node.log s.phase := by
    refine h.rule (I := fun s => Server.Good b.server s ∧ b.Covers s.node.log s.phase) ⟨Server.good_init,b.comes_start⟩
      (fun s a s' hg ha hn => ?_)
    exact ⟨Server.next_good (Rpc.blocking_request b.blocking b.named) hg.1 ha hn,
      covers_step hg.1.node hg.2 ha (Server.next_step hn)⟩
  obtain ⟨phase,⟨c,hr,ht,hk⟩,hd⟩ := hi.2.comesAfter
  exact ⟨c,phase,hr,hk,ht,hd⟩

end Admitted
end Zuul.Access
