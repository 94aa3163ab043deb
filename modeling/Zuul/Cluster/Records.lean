import Zuul.Access.Browse
import Zuul.Fsm.LeaseLife
import Zuul.Fsm.Places
import Zuul.Fsm.Reachable

/-! Keys are spread over shards, and browsing brings them together again: a listing has
every held key once, in order, and agrees with the records read one by one. -/
namespace Zuul.Cluster
open Lib Fsm Access
open Auth (Keypath.hasPrefix Keypath.owner Keypath.validate Keypath.KeyError)
variable {f : FSM} {k pre : Str} {s : LockSummary}

section Routing

/-- The shards that keys are spread over, in a fixed order. -/
structure Router where
  shards : List Nat
  nonempty : shards ≠ []

def Router.new (shards : List Nat) : Except String Router :=
  if h : shards = [] then .error "router.New: at least one shard is required" else .ok ⟨shards,h⟩

/-- The shard that owns a key, by a hash of the key. -/
def Router.shard (r : Router) (sum64 : Str → UInt64) (key : Str) : Nat :=
  r.shards.get ⟨(sum64 key).toNat % r.shards.length,Nat.mod_lt _ (List.length_pos_of_ne_nil r.nonempty)⟩

private theorem Router.shard_mem (r : Router) (sum64 : Str → UInt64) (key : Str) : r.shard sum64 key ∈ r.shards :=
  List.get_mem _ _

/-- A command as the handlers propose it: about a key only on the shard that owns it. -/
def RoutedTo (shardOf : Str → Nat) (shardID : Nat) (cmd : Command) : Prop :=
  cmd.Named ∧ ∀ k ∈ cmd.lockName, shardOf k = shardID

instance (shardOf : Str → Nat) (shardID : Nat) (cmd : Command) : Decidable (RoutedTo shardOf shardID cmd) :=
  inferInstanceAs (Decidable (_ ∧ _))

private theorem mem_locks_iff (f : FSM) (k : Str) : k ∈ f.locks ↔ f.line k ≠ [] := by
  rw [KeyedMap.mem_iff_lookup]
  cases hk : f.locks.lookup k with
  | none => simp [FSM.line_of_absent hk]
  | some lk => simp [FSM.line_of_lookup hk,Lock.line]

section NewLines
variable {a : Lines} {clock : Clock} {name c : Str}

private theorem put_new {line : List Str} (hk : a.line k = []) (hn : (a.put name line).line k ≠ []) : name = k := by
  rw [Lines.line_put] at hn
  split_ifs at hn with he
  · exact he.symm
  · exact (hn hk).elim

private theorem acquire_new {tryLock : Bool} (hk : a.line k = [])
    (hn : (a.acquire clock name c tryLock).1.line k ≠ []) : name = k := by
  by_cases hm : c ∈ a.members
  · rw [Lines.acquire,if_neg (not_not.mpr hm)] at hn
    split at hn
    · exact put_new hk hn
    · split_ifs at hn
      · exact (hn hk).elim
      · exact (hn hk).elim
      · exact (hn hk).elim
      · exact put_new hk hn
  · rw [Lines.acquire,if_pos hm] at hn
    exact (hn hk).elim

private theorem holder_new {t : Nat} {next : Lines} {o : Outcome} (hk : a.line k = [])
    (hn : (a.holder clock name c t next o).1.line k ≠ []) : next.line k ≠ [] := by
  rw [Lines.holder] at hn
  split_ifs at hn
  · exact (hn hk).elim
  · exact (hn hk).elim
  · exact hn

private theorem leave_empty {o : Outcome} (hk : a.line k = []) : (a.leave c o).1.line k = [] := by
  rw [Lines.leave]
  split_ifs
  · change (a.line k).filter _ = []
    rw [hk]
    rfl
  · exact hk

private theorem line_new {cmd : Command} (hk : a.line k = []) (hn : (a.step clock cmd).1.line k ≠ []) :
    cmd.lockName = some k := by
  cases cmd with
  | acquireLock name c b => rw [Command.lockName,acquire_new hk hn]
  | campaign name c v => rw [Command.lockName,acquire_new hk hn]
  | releaseLock name c t => rw [Command.lockName,put_new hk (holder_new hk hn)]
  | resign name c t => rw [Command.lockName,put_new hk (holder_new hk hn)]
  | proclaim name c t v => exact (holder_new hk hn hk).elim
  | cancelWait name c =>
    rw [Lines.step] at hn
    split at hn
    · exact (hn hk).elim
    · split_ifs at hn
      · rw [Command.lockName,put_new hk hn]
      · exact (hn hk).elim
  | leaseGrant c ttlMS now => exact (hn hk).elim
  | leaseKeepAlive c now =>
    rw [Lines.step] at hn
    split_ifs at hn <;> exact (hn hk).elim
  | leaseRevoke c => exact (hn (leave_empty hk)).elim
  | leaseExpire c now =>
    rw [Lines.step] at hn
    split_ifs at hn
    · exact (hn hk).elim
    · exact (hn (leave_empty hk)).elim

end NewLines

/-- A shard only ever stores keys it owns. -/
theorem stored_where_routed {shardOf : Str → Nat} {shardID : Nat} (h : Reachable (RoutedTo shardOf shardID) f) :
    Inv f ∧ ∀ k ∈ f.locks, shardOf k = shardID := by
  refine h.rule (I := fun f => Inv f ∧ ∀ k ∈ f.locks, shardOf k = shardID) ?_ ?_ ?_ ?_
  · exact fun notifier => ⟨inv_new notifier,fun k hk => (AList.notMem_empty k hk).elim⟩
  · exact fun f hf => ⟨hf.1.bump,hf.2⟩
  · intro f cmd hc hf
    refine ⟨step_inv hf.1 hc.1,fun k hk => ?_⟩
    by_cases ho : k ∈ f.locks
    · exact hf.2 k ho
    · have hk : (f.step cmd).1.lines.line k ≠ [] := (mem_locks_iff _ k).mp hk
      rw [lines_step hf.1 cmd] at hk
      exact hc.2 k (line_new (not_not.mp (fun hl => ho ((mem_locks_iff f k).mpr hl))) hk)
  · intro f r snap hs _ hr
    refine ⟨restore_inv hr.1 f hs,fun k hk => hr.2 k ?_⟩
    obtain ⟨φ,hc⟩ := read_carried hr.1 f hs
    obtain ⟨lk,hl⟩ := (KeyedMap.mem_iff_lookup _ k).mp hk
    obtain ⟨old,ho,-⟩ := hc.lookup_back hl
    exact (KeyedMap.mem_iff_lookup _ k).mpr ⟨old,ho⟩

end Routing

section OneRecord

/-- A watcher of a key, on the node that hosts its stream. -/
structure Observer where
  identity : Str
  replicaID : Nat
  deriving DecidableEq, Repr

/-- The watchers found. It is partial if some node could not be asked. -/
structure ObserverSet where
  observers : List Observer
  isPartial : Bool
  deriving DecidableEq, Repr

structure Contender where
  clientID : Str
  position : Nat
  enqueueSeq : Nat
  deriving DecidableEq, Repr

structure GetRecordResponse where
  record : Record
  value : Bytes
  isPartial : Bool
  contenders : List Contender
  observers : List Observer
  deriving DecidableEq, Repr

inductive GetRecordError where
  | invalidKeyPath (err : Keypath.KeyError)
  | browse (err : BrowseError)
  | observers

/-- What is answered about a key whose shard was read. -/
def getRecordResponse (key : Str) (w : Waiters) (obs : ObserverSet) : GetRecordResponse where
  record :=
    { key, kind := kindOf w.value.isSome, held := w.held, holderClientID := w.holder, fencingToken := w.token
      queueDepth := uint32 w.entries.length, revision := w.revision }
  value := w.value
  isPartial := obs.isPartial
  contenders := w.entries.map (fun e => ⟨e.clientID,e.position,e.seq⟩)
  observers := obs.observers

/-- GetRecord, with linearizable reads of the shards and the watchers as they are found. -/
def getRecord (cfg : BrowseConfig) (shardOf : Str → Nat) (read : Nat → Option FSM)
    (observers : Str → Option ObserverSet)
    (ctx : Auth.Context) (key : Str) : Except GetRecordError GetRecordResponse :=
  match Keypath.validate key with
  | .error err => .error (.invalidKeyPath err)
  | .ok () =>
    match browseAuthorize cfg ctx key with
    | .error err => .error (.browse err)
    | .ok () =>
      match read (shardOf key) with
      | none => .error (.browse (.shard (shardOf key)))
      | some f =>
        match observers key with
        | none => .error .observers
        | some obs => .ok (getRecordResponse key (f.waiters key) obs)

private theorem getRecord_ok {cfg : BrowseConfig} {shardOf : Str → Nat} {read : Nat → Option FSM}
    {observers : Str → Option ObserverSet} {ctx : Auth.Context} {got : GetRecordResponse}
    (h : getRecord cfg shardOf read observers ctx k = .ok got) :
    ∃ f obs, read (shardOf k) = some f ∧ got = getRecordResponse k (f.waiters k) obs := by
  unfold getRecord at h
  split at h
  · cases h
  split at h
  · cases h
  split at h
  · cases h
  case h_2 f hf =>
    split at h
    · cases h
    case h_2 obs _ =>
      cases h
      exact ⟨f,obs,hf,rfl⟩

end OneRecord

section Listing
variable {cfg : BrowseConfig} {shards : List Nat}

/-- The rows of a shard, if it can be read. -/
private def rows (cfg : BrowseConfig) (pre : Str) (shardID : Nat) : List LockSummary :=
  ((cfg.staleRead shardID).map (fun f => (f.listLocks pre).locks)).getD []

private theorem gather_rows (h : ∀ id ∈ shards, ∃ f, cfg.staleRead id = some f) :
    gather cfg pre shards = .ok (shards.flatMap (rows cfg pre)) := by
  induction shards with
  | nil => rfl
  | cons id shards ih =>
    rw [List.forall_mem_cons] at h
    obtain ⟨⟨f,hf⟩,hs⟩ := h
    rw [gather,hf]
    dsimp only
    rw [ih hs,List.flatMap_cons,rows,hf]
    rfl

private theorem mem_rows (h : Inv f) : s ∈ (f.listLocks pre).locks ↔ ∃ lk, f.locks.lookup s.name = some lk ∧
    Keypath.hasPrefix pre s.name = true ∧ s = ⟨s.name,true,lk.holder,lk.token,lk.value.isSome,uint32 lk.queue.length⟩ := by
  change s ∈ List.filterMap _ _ ↔ _
  rw [List.mem_filterMap]
  constructor
  · rintro ⟨name,-,hs⟩
    obtain ⟨lk,hk,hrow⟩ := Option.bind_eq_some_iff.mp hs
    rw [FSM.summary] at hrow
    split_ifs at hrow with hno
    rw [not_or,Bool.not_eq_false] at hno
    cases hrow
    exact ⟨lk,hk,hno.2,rfl⟩
  · rintro ⟨lk,hk,hp,hs⟩
    refine ⟨s.name,(KeyedMap.mem_sortedKeys _ _).mpr ((KeyedMap.mem_iff_lookup _ _).mpr ⟨lk,hk⟩),?_⟩
    rw [hk,Option.bind_some,FSM.summary,if_neg (by rw [hp]; simpa using h.holder_ne hk),← hs]

private theorem names_sublist (xs : List Str) (g : Str → Option LockSummary) (h : ∀ x s, g x = some s → s.name = x) :
    ((xs.filterMap g).map LockSummary.name).Sublist xs := by
  induction xs with
  | nil => exact .slnil
  | cons x xs ih =>
    cases hx : g x with
    | none =>
      rw [List.filterMap_cons_none hx]
      exact ih.cons x
    | some s =>
      rw [List.filterMap_cons_some hx,List.map_cons,h x s hx]
      exact ih.cons_cons x

private theorem listLocks_nodup (f : FSM) (pre : Str) : ((f.listLocks pre).locks.map LockSummary.name).Nodup := by
  refine List.Nodup.sublist (names_sublist _ _ fun name s hs => ?_) f.locks.sortedKeys_nodup
  obtain ⟨lk,-,hrow⟩ := Option.bind_eq_some_iff.mp hs
  rw [FSM.summary] at hrow
  split_ifs at hrow
  cases hrow
  rfl

/-- One round of the loop over the rows. -/
private def seeOwner (seen : List Str) (s : LockSummary) : List Str :=
  match Keypath.owner s.name with
  | .ok owner => if seen.contains owner then seen else seen ++ [owner]
  | .error _ => seen

private theorem seeOwner_spec {seen : List Str} (hn : seen.Nodup) (s : LockSummary) : (seeOwner seen s).Nodup ∧
    ∀ o, o ∈ seeOwner seen s ↔ o ∈ seen ∨ Keypath.owner s.name = .ok o := by
  unfold seeOwner
  generalize Keypath.owner s.name = found
  cases found with
  | ok owner =>
    dsimp only
    by_cases hc : owner ∈ seen
    · rw [if_pos (List.contains_iff_mem.mpr hc)]
      refine ⟨hn,fun o => ⟨.inl,?_⟩⟩
      rintro (h | h)
      · exact h
      · cases h
        exact hc
    · rw [if_neg (fun h => hc (List.contains_iff_mem.mp h))]
      refine ⟨hn.append (List.nodup_singleton owner) (by simpa using hc),fun o => ?_⟩
      rw [List.mem_append,List.mem_singleton,Except.ok.injEq,eq_comm]
  | error err => exact ⟨hn,fun o => ⟨.inl,fun h => h.resolve_right (by intro he; cases he)⟩⟩

private theorem owners_spec (summary : List LockSummary) {seen : List Str} (hn : seen.Nodup) :
    (summary.foldl seeOwner seen).Nodup ∧
    ∀ o, o ∈ summary.foldl seeOwner seen ↔ o ∈ seen ∨ ∃ s ∈ summary, Keypath.owner s.name = .ok o := by
  induction summary generalizing seen with
  | nil => exact ⟨hn,fun o => by simp⟩
  | cons s summary ih =>
    obtain ⟨hs,hmem⟩ := seeOwner_spec hn s
    obtain ⟨hout,hall⟩ := ih hs
    refine ⟨hout,fun o => ?_⟩
    rw [List.foldl_cons,hall,hmem]
    simp only [List.mem_cons,exists_eq_or_imp,or_assoc]

private theorem namespacesOf_spec (summary : List LockSummary) : (namespacesOf summary).Nodup ∧
    ∀ o, o ∈ namespacesOf summary ↔ ∃ s ∈ summary, Keypath.owner s.name = .ok o := by
  have h := owners_spec summary List.nodup_nil
  simp only [List.not_mem_nil,false_or] at h
  exact h

variable {shardOf : Str → Nat}

/-- Every shard is read, and has only seen commands that were routed to it. -/
def Spread (cfg : BrowseConfig) (shardOf : Str → Nat) (shards : List Nat) : Prop :=
  shards.Nodup ∧ ∀ id ∈ shards, ∃ f, cfg.staleRead id = some f ∧ Reachable (RoutedTo shardOf id) f

private theorem gathered_nodup (h : Spread cfg shardOf shards) :
    ((shards.flatMap (rows cfg pre)).map LockSummary.name).Nodup := by
  rw [List.map_flatMap,List.nodup_flatMap]
  refine ⟨fun id hid => ?_,?_⟩
  · obtain ⟨f,hf,-⟩ := h.2 id hid
    rw [rows,hf]
    exact listLocks_nodup f pre
  · have hown : ∀ id ∈ shards, ∀ k ∈ (rows cfg pre id).map LockSummary.name, shardOf k = id := by
      intro id hid k hk
      obtain ⟨f,hf,hr⟩ := h.2 id hid
      rw [rows,hf] at hk
      obtain ⟨s,hs,rfl⟩ := List.mem_map.mp hk
      exact (stored_where_routed hr).2 _ (listLocks_row f hs).1
    refine h.1.imp_of_mem (fun {a b} ha hb hab k hka hkb => ?_)
    exact hab ((hown a ha k hka).symm.trans (hown b hb k hkb))

private theorem mem_gathered (h : Spread cfg shardOf shards) : s ∈ shards.flatMap (rows cfg pre) ↔
    ∃ id ∈ shards, ∃ f, cfg.staleRead id = some f ∧ s ∈ (f.listLocks pre).locks := by
  rw [List.mem_flatMap]
  constructor
  · rintro ⟨id,hid,hs⟩
    obtain ⟨f,hf,-⟩ := h.2 id hid
    rw [rows,hf] at hs
    exact ⟨id,hid,f,hf,hs⟩
  · rintro ⟨id,hid,f,hf,hs⟩
    exact ⟨id,hid,by rw [rows,hf]; exact hs⟩

/-- The response is put together from the sorted rows. -/
private def response (summary : List LockSummary) : ListRecordsResponse :=
  let summary := summary.insertionSort (fun a b => a.name ≤ b.name)
  { records := summary.map summaryToRecord, namespaces := (namespacesOf summary).insertionSort (· ≤ ·) }

private theorem sorted_names (l : List LockSummary) :
    (l.insertionSort (fun a b => a.name ≤ b.name)).Pairwise (fun a b => a.name ≤ b.name) := by
  have htotal : Std.Total (fun a b : LockSummary => a.name ≤ b.name) := ⟨fun a b => Std.le_total⟩
  have htrans : IsTrans LockSummary (fun a b => a.name ≤ b.name) := ⟨fun a b c => Std.le_trans⟩
  exact List.pairwise_insertionSort _ l

private theorem sort_eq {a b : List LockSummary} (hp : a.Perm b) (hn : (a.map LockSummary.name).Nodup) :
    a.insertionSort (fun a b => a.name ≤ b.name) = b.insertionSort (fun a b => a.name ≤ b.name) := by
  have hsort : ∀ l : List LockSummary, (l.insertionSort (fun a b => a.name ≤ b.name)).Perm l :=
    List.perm_insertionSort _
  refine ((hsort a).trans (hp.trans (hsort b).symm)).eq_of_pairwise (fun x y hx hy hxy hyx => ?_)
    (sorted_names a) (sorted_names b)
  have hxa := (hsort a).mem_iff.mp hx
  have hya := hp.mem_iff.mpr ((hsort b).mem_iff.mp hy)
  exact List.inj_on_of_nodup_map hn hxa hya (Std.le_antisymm hxy hyx)

private theorem mem_records {summary : List LockSummary} {rec : Record} :
    rec ∈ (response summary).records ↔ ∃ s ∈ summary, summaryToRecord s = rec := by
  change rec ∈ List.map _ _ ↔ _
  simp only [List.mem_map,List.mem_insertionSort]

private theorem keys_lt {summary : List LockSummary} (hn : (summary.map LockSummary.name).Nodup) :
    ((response summary).records.map Record.key).Pairwise (· < ·) := by
  change (List.map Record.key (List.map _ _)).Pairwise _
  rw [List.map_map,List.pairwise_map]
  have hp : (summary.insertionSort (fun a b => a.name ≤ b.name)).Perm summary := List.perm_insertionSort _ _
  have hne := ((hp.map LockSummary.name).nodup_iff).mpr hn
  rw [List.Nodup,List.pairwise_map] at hne
  exact ((sorted_names summary).and hne).imp (fun h => Std.lt_of_le_of_ne h.1 h.2)

private theorem sort_lt {names : List Str} (hn : names.Nodup) : (names.insertionSort (· ≤ ·)).Pairwise (· < ·) := by
  have hne := ((List.perm_insertionSort (· ≤ ·) names).nodup_iff).mpr hn
  exact ((List.pairwise_insertionSort (· ≤ ·) names).and hne).imp (fun h => Std.lt_of_le_of_ne h.1 h.2)

private theorem mem_namespaces {summary : List LockSummary} {o : Str} :
    o ∈ (response summary).namespaces ↔ ∃ rec ∈ (response summary).records, Keypath.owner rec.key = .ok o := by
  change o ∈ List.insertionSort _ (namespacesOf _) ↔ _
  rw [List.mem_insertionSort,(namespacesOf_spec _).2]
  simp only [List.mem_insertionSort,mem_records]
  constructor
  · rintro ⟨s,hs,ho⟩
    exact ⟨_,⟨s,hs,rfl⟩,ho⟩
  · rintro ⟨_,⟨s,hs,rfl⟩,ho⟩
    exact ⟨s,hs,ho⟩

private theorem mem_keys {summary : List LockSummary} :
    k ∈ (response summary).records.map Record.key ↔ ∃ s ∈ summary, s.name = k := by
  rw [List.mem_map]
  simp only [mem_records]
  constructor
  · rintro ⟨_,⟨s,hs,rfl⟩,hk⟩
    exact ⟨s,hs,hk⟩
  · rintro ⟨s,hs,hk⟩
    exact ⟨_,⟨s,hs,rfl⟩,hk⟩

private theorem mem_gathered_iff {r : Router} {sum64 : Str → UInt64} (h : Spread cfg (r.shard sum64) r.shards) :
    s ∈ r.shards.flatMap (rows cfg pre) ↔
      ∃ f, cfg.staleRead (r.shard sum64 s.name) = some f ∧ s ∈ (f.listLocks pre).locks := by
  rw [mem_gathered h]
  constructor
  · rintro ⟨id,hid,f,hf,hs⟩
    obtain ⟨g,hg,hr⟩ := h.2 id hid
    cases hf.symm.trans hg
    rw [(stored_where_routed hr).2 _ (listLocks_row f hs).1]
    exact ⟨f,hf,hs⟩
  · rintro ⟨f,hf,hs⟩
    exact ⟨_,r.shard_mem sum64 _,f,hf,hs⟩

private theorem waiters_row (h : Inv f) (hk : Keypath.hasPrefix pre k = true) (obs : ObserverSet) :
    if (f.waiters k).held then
      ∃ s ∈ (f.listLocks pre).locks,
        summaryToRecord s = { (getRecordResponse k (f.waiters k) obs).record with revision := 0 }
    else k ∉ f.locks := by
  cases hl : f.locks.lookup k with
  | none =>
    have hw : (f.waiters k).held = false := by rw [FSM.waiters,hl]
    rw [hw,if_neg Bool.false_ne_true,KeyedMap.mem_iff_lookup,hl]
    simp
  | some lk =>
    have hw : f.waiters k = ⟨true,lk.holder,lk.token,lk.value,
        lk.queue.mapIdx (fun i w => ⟨w.clientID,w.seq,uint32 (i + 1)⟩),f.revision⟩ := by
      rw [FSM.waiters,hl]
      exact if_neg (h.holder_ne hl)
    rw [hw,if_pos rfl]
    refine ⟨⟨k,true,lk.holder,lk.token,lk.value.isSome,uint32 lk.queue.length⟩,(mem_rows h).mpr ⟨lk,hl,hk,rfl⟩,?_⟩
    simp [summaryToRecord,getRecordResponse]

private theorem listRecords_rows (h : Spread cfg shardOf shards) {ctx : Auth.Context}
    (ha : browseAuthorize cfg ctx (if pre = [] then clusterKey else pre) = .ok ()) {order : List Nat}
    (ho : ∀ id ∈ order, id ∈ shards) :
    listRecords cfg order ctx pre = .ok (response (order.flatMap (rows cfg pre))) := by
  have hread : ∀ id ∈ order, ∃ f, cfg.staleRead id = some f := fun id hid => (h.2 id (ho id hid)).imp (fun _ hf => hf.1)
  rw [listRecords]
  dsimp only
  rw [ha]
  change (gather cfg pre order).map response = _
  rw [gather_rows hread]
  rfl

private theorem mem_listed_iff {r : Router} {sum64 : Str → UInt64} (h : Spread cfg (r.shard sum64) r.shards) :
    k ∈ (response (r.shards.flatMap (rows cfg pre))).records.map Record.key ↔
      Keypath.hasPrefix pre k = true ∧ ∃ f, cfg.staleRead (r.shard sum64 k) = some f ∧ k ∈ f.locks := by
  simp only [mem_keys,mem_gathered_iff h]
  constructor
  · rintro ⟨s,⟨f,hf,hrow⟩,rfl⟩
    obtain ⟨hk,hpre⟩ := listLocks_row f hrow
    exact ⟨hpre,f,hf,hk⟩
  · rintro ⟨hpre,f,hf,hk⟩
    obtain ⟨lk,hl⟩ := (KeyedMap.mem_iff_lookup _ k).mp hk
    obtain ⟨g,hg,hr⟩ := h.2 _ (r.shard_mem sum64 k)
    cases hf.symm.trans hg
    exact ⟨⟨k,true,lk.holder,lk.token,lk.value.isSome,uint32 lk.queue.length⟩,
      ⟨f,hf,(mem_rows (stored_where_routed hr).1).mpr ⟨lk,hl,hpre,rfl⟩⟩,rfl⟩

private theorem got_listed {r : Router} {sum64 : Str → UInt64} (h : Spread cfg (r.shard sum64) r.shards)
    (hpre : Keypath.hasPrefix pre k = true) (hf : cfg.staleRead (r.shard sum64 k) = some f) (obs : ObserverSet) :
    if (f.waiters k).held then
      { (getRecordResponse k (f.waiters k) obs).record with revision := 0 } ∈
        (response (r.shards.flatMap (rows cfg pre))).records
    else k ∉ (response (r.shards.flatMap (rows cfg pre))).records.map Record.key := by
  obtain ⟨g,hg,hr⟩ := h.2 _ (r.shard_mem sum64 k)
  cases hf.symm.trans hg
  have hrow := waiters_row (stored_where_routed hr).1 hpre obs
  split_ifs with hheld
  · rw [if_pos hheld] at hrow
    obtain ⟨s,hs,hrec⟩ := hrow
    refine mem_records.mpr ⟨s,(mem_gathered_iff h).mpr ⟨f,?_,hs⟩,hrec⟩
    rw [show s.name = k from congrArg Record.key hrec]
    exact hf
  · rw [if_neg hheld] at hrow
    rw [mem_listed_iff h]
    rintro ⟨-,f',hf',hk⟩
    cases hf.symm.trans hf'
    exact hrow hk

/-- However the reads of the shards come in, a listing has each held key under the prefix
once, in order, with the namespaces in it, and it agrees with the records got one by one
in all fields but the revision, which it leaves at zero. -/
theorem listing_complete (r : Router) (sum64 : Str → UInt64) {cfg : BrowseConfig}
    (hs : Spread cfg (r.shard sum64) r.shards) {order : List Nat} (hp : order.Perm r.shards) {ctx : Auth.Context}
    {pre : Str} (ha : browseAuthorize cfg ctx (if pre = [] then clusterKey else pre) = .ok ()) :
    ∃ resp, listRecords cfg order ctx pre = .ok resp ∧ listRecords cfg r.shards ctx pre = .ok resp ∧
      (resp.records.map Record.key).Pairwise (· < ·) ∧
      (∀ k, k ∈ resp.records.map Record.key ↔ Keypath.hasPrefix pre k = true ∧
        ∃ f, cfg.staleRead (r.shard sum64 k) = some f ∧ k ∈ f.locks) ∧
      resp.namespaces.Pairwise (· < ·) ∧
      (∀ o, o ∈ resp.namespaces ↔ ∃ rec ∈ resp.records, Keypath.owner rec.key = .ok o) ∧
      (∀ rec ∈ resp.records, rec.revision = 0) ∧
      ∀ observers k got, Keypath.hasPrefix pre k = true →
        getRecord cfg (r.shard sum64) cfg.staleRead observers ctx k = .ok got →
        if got.record.held then { got.record with revision := 0 } ∈ resp.records
        else k ∉ resp.records.map Record.key := by
  have hnd : ((r.shards.flatMap (rows cfg pre)).map LockSummary.name).Nodup := gathered_nodup hs
  have hperm : (order.flatMap (rows cfg pre)).Perm (r.shards.flatMap (rows cfg pre)) := hp.flatMap_right _
  have hsame : response (order.flatMap (rows cfg pre)) = response (r.shards.flatMap (rows cfg pre)) := by
    rw [response,response,sort_eq hperm.symm hnd]
  have horder := listRecords_rows hs ha (fun id hid => hp.mem_iff.mp hid)
  refine ⟨_,horder.trans (congrArg Except.ok hsame),listRecords_rows hs ha (fun _ hid => hid),keys_lt hnd,
    fun k => mem_listed_iff hs,sort_lt (namespacesOf_spec _).1,fun o => mem_namespaces,fun rec hrec => ?_,
    fun observers k got hpre hg => ?_⟩
  · obtain ⟨s,-,rfl⟩ := mem_records.mp hrec
    rfl
  · obtain ⟨f,obs,hf,rfl⟩ := getRecord_ok hg
    exact got_listed hs hpre hf obs

/-- Two shards that answer in the other order, and the record of one of the keys. -/
theorem listing_of_two_shards :
    let f := (new true).run [.leaseGrant (str "c") 5 0,.acquireLock (str "/a/x") (str "c") false]
    let g := (new true).run [.leaseGrant (str "d") 5 0,.campaign (str "/b/yy") (str "d") (some [7])]
    let cfg : BrowseConfig := ⟨fun _ _ _ => true,fun id => some (if id = 1 then f else g)⟩
    let sum64 : Str → UInt64 := fun key => key.length.toUInt64
    let observers : Str → Option ObserverSet := fun _ => some ⟨[],false⟩
    ∃ r resp got, Router.new [1,2] = .ok r ∧ listRecords cfg [2,1] {} [] = .ok resp ∧
      listRecords cfg [1,2] {} [] = .ok resp ∧
      resp.records.map Record.key = [str "/a/x",str "/b/yy"] ∧ resp.namespaces = [str "a",str "b"] ∧
      getRecord cfg (r.shard sum64) cfg.staleRead observers {} (str "/b/yy") = .ok got ∧ got.record.revision = 2 ∧
      { got.record with revision := 0 } ∈ resp.records := by
  intro f g cfg sum64 observers
  let r : Router := ⟨[1,2],by decide⟩
  have hs : Spread cfg (r.shard sum64) r.shards := by
    refine ⟨by decide,fun id hid => ?_⟩
    obtain rfl | rfl : id = 1 ∨ id = 2 := by simpa [r] using hid
    · exact ⟨f,rfl,(Reachable.start true).run (by decide +kernel)⟩
    · exact ⟨g,rfl,(Reachable.start true).run (by decide +kernel)⟩
  have hp : [2,1].Perm r.shards := .swap 1 2 []
  have ha : browseAuthorize cfg {} (if ([] : Str) = [] then clusterKey else []) = .ok () := rfl
  obtain ⟨resp,ho,hr,-,-,-,-,-,hagree⟩ := listing_complete r sum64 hs hp ha
  have hlist : (listRecords cfg [1,2] {} []).toOption.map (fun resp => (resp.records.map Record.key,resp.namespaces)) =
    some ([str "/a/x",str "/b/yy"],[str "a",str "b"]) := by decide +kernel
  rw [show listRecords cfg [1,2] {} [] = .ok resp from hr] at hlist
  obtain ⟨hkeys,hspaces⟩ : resp.records.map Record.key = [str "/a/x",str "/b/yy"] ∧
      resp.namespaces = [str "a",str "b"] := by
    simpa [Except.toOption] using hlist
  have hrecord : (getRecord cfg (r.shard sum64) cfg.staleRead observers {} (str "/b/yy")).toOption.map
      (fun got => (got.record.held,got.record.revision)) = some (true,2) := by decide +kernel
  cases hg : getRecord cfg (r.shard sum64) cfg.staleRead observers {} (str "/b/yy") with
  | error e =>
    rw [hg] at hrecord
    cases hrecord
  | ok got =>
    rw [hg] at hrecord
    obtain ⟨hheld,hrev⟩ : got.record.held = true ∧ got.record.revision = 2 := by
      simpa [Except.toOption] using hrecord
    have hin := hagree observers (str "/b/yy") got rfl hg
    rw [if_pos hheld] at hin
    exact ⟨r,resp,got,rfl,ho,hr,hkeys,hspaces,hg,hrev,hin⟩

end Listing
end Zuul.Cluster
