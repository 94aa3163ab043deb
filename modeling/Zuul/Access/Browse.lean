import Zuul.Access.Policy
import Zuul.Auth.Gate
import Zuul.Fsm.Queries

/-! The enumeration of records: one check of the requested prefix, and the held keys
of all shards under it. -/
namespace Zuul.Access
open Lib Fsm
open Auth (Keypath.hasPrefix Keypath.owner Keypath.validate Keypath.PrefixForm)

inductive RecordKind where
  | lock | election
  deriving DecidableEq, Repr

structure Record where
  key : Str
  kind : RecordKind
  held : Bool
  holderClientID : Str
  fencingToken : Nat
  queueDepth : Nat
  revision : Nat := 0
  deriving DecidableEq, Repr

structure ListRecordsResponse where
  records : List Record
  namespaces : List Str
  deriving DecidableEq, Repr

inductive BrowseError where
  | unauthorizedKey (identity key : Str)
  | shard (shardID : Nat)
  deriving DecidableEq, Repr

/-- The key that stands for the whole cluster. -/
def clusterKey : Str := str "cluster/"

def kindOf (hasValue : Bool) : RecordKind := if hasValue then .election else .lock

/-- The row of a listing. It has no revision. -/
def summaryToRecord (s : LockSummary) : Record where
  key := s.name
  kind := kindOf s.hasValue
  held := s.held
  holderClientID := s.holder
  fencingToken := s.token
  queueDepth := s.queueDepth

/-- The policy, and the shard states as the local replicas have them when they are
read; a read may fail. -/
structure BrowseConfig where
  authorizer : Authorizer
  staleRead : Nat → Option FSM

def browseAuthorize (cfg : BrowseConfig) (ctx : Auth.Context) (key : Str) : Except BrowseError Unit :=
  let identity := ctx.identityFromContext.1
  if cfg.authorizer identity key .read then .ok () else .error (.unauthorizedKey identity key)

/-- The answers of the shards, in the order in which they come in. -/
def gather (cfg : BrowseConfig) (pre : Str) : List Nat → Except BrowseError (List LockSummary)
  | [] => .ok []
  | shardID :: rest =>
    match cfg.staleRead shardID with
    | none => .error (.shard shardID)
    | some f => (gather cfg pre rest).map (fun summary => (f.listLocks pre).locks ++ summary)

/-- The owners of the listed keys, each once. -/
def namespacesOf (summary : List LockSummary) : List Str :=
  summary.foldl (fun seen s =>
    match Keypath.owner s.name with
    | .ok owner => if seen.contains owner then seen else seen ++ [owner]
    | .error _ => seen) []

def listRecords (cfg : BrowseConfig) (shards : List Nat) (ctx : Auth.Context) (pre : Str) :
    Except BrowseError ListRecordsResponse :=
  let authKey := if pre = [] then clusterKey else pre
  (browseAuthorize cfg ctx authKey).bind (fun _ =>
    (gather cfg pre shards).map (fun summary =>
      let summary := summary.insertionSort (fun a b => a.name ≤ b.name)
      { records := summary.map summaryToRecord
        namespaces := (namespacesOf summary).insertionSort (· ≤ ·) }))

section Listing
variable {cfg : BrowseConfig} {pre : Str} {shards : List Nat} {ctx : Auth.Context}

/-- Every row of a listing is a stored key under the prefix. -/
theorem listLocks_row (f : FSM) {s : LockSummary} (hs : s ∈ (f.listLocks pre).locks) :
    s.name ∈ f.locks ∧ Keypath.hasPrefix pre s.name = true := by
  obtain ⟨name,hm,hs⟩ := List.mem_filterMap.mp hs
  obtain ⟨lk,_,hrow⟩ := Option.bind_eq_some_iff.mp hs
  rw [FSM.summary] at hrow
  split_ifs at hrow with hno
  rw [not_or,Bool.not_eq_false] at hno
  cases hrow
  exact ⟨(KeyedMap.mem_sortedKeys _ _).mp hm,hno.2⟩

private theorem gather_row {summary : List LockSummary} (h : gather cfg pre shards = .ok summary) {s : LockSummary}
    (hs : s ∈ summary) : ∃ shardID f, cfg.staleRead shardID = some f ∧ s ∈ (f.listLocks pre).locks := by
  induction shards generalizing summary with
  | nil => cases h; cases hs
  | cons shardID rest ih =>
    rw [gather] at h
    split at h
    · cases h
    · rename_i f hf
      cases hg : gather cfg pre rest with
      | error e => rw [hg] at h; cases h
      | ok tail =>
        rw [hg] at h
        cases h
        rcases List.mem_append.mp hs with hs | hs
        · exact ⟨shardID,f,hf,hs⟩
        · exact ih hg hs

/-- An answered request was authorized, and lists stored keys under its prefix. -/
theorem listRecords_ok {resp : ListRecordsResponse} (hp : pre ≠ []) (h : listRecords cfg shards ctx pre = .ok resp) :
    cfg.authorizer ctx.identityFromContext.1 pre .read = true ∧
    ∀ r ∈ resp.records, ∃ shardID f, cfg.staleRead shardID = some f ∧ r.key ∈ f.locks ∧
      Keypath.hasPrefix pre r.key = true := by
  rw [listRecords,if_neg hp,browseAuthorize] at h
  split_ifs at h with ha
  case neg => cases h
  refine ⟨ha,?_⟩
  cases hg : gather cfg pre shards with
  | error e => rw [hg] at h; cases h
  | ok summary =>
    rw [hg] at h
    cases h
    intro r hr
    obtain ⟨s,hs,rfl⟩ := List.mem_map.mp hr
    rw [List.mem_insertionSort] at hs
    obtain ⟨shardID,f,hf,hrow⟩ := gather_row hg hs
    exact ⟨shardID,f,hf,listLocks_row f hrow⟩

end Listing

/-- Under rules of the documented form, reading a prefix is reading every canonical key under it. -/
theorem homeDir_read_under {rules : Rules}
    (hr : ∀ id rs, rules.lookup id = some rs → ∀ r ∈ rs, Keypath.PrefixForm r.pre)
    {identity pre key : Str} (hp : pre ≠ []) (hv : Keypath.validate key = .ok ())
    (hk : Keypath.hasPrefix pre key = true) (ha : homeDir (prefixPolicy rules) identity pre .read = true) :
    homeDir (prefixPolicy rules) identity key .read = true := by
  rw [homeDir_iff] at ha ⊢
  rcases ha with ⟨hid,hop,ho⟩ | ha
  · exact .inl ⟨hid,hop,Auth.Keypath.owner_of_hasPrefix ho hv hk⟩
  · right
    rw [prefixPolicy_iff] at ha ⊢
    obtain ⟨r,hm,hc,hg⟩ := ha
    refine ⟨r,hm,?_,hg⟩
    cases hl : rules.lookup identity with
    | none => rw [hl] at hm; cases hm
    | some rs =>
      rw [hl] at hm
      exact Auth.Keypath.hasPrefix_trans (hr identity rs hl r hm).trimmed hp hc hk

/-- Browsing a prefix reveals only readable keys: one check of the prefix stands for
the check of every record that is returned. -/
theorem listRecords_readable {rules : Rules} {staleRead : Nat → Option FSM}
    (hr : ∀ id rs, rules.lookup id = some rs → ∀ r ∈ rs, Keypath.PrefixForm r.pre)
    (hs : ∀ shardID f, staleRead shardID = some f → ∀ k ∈ f.locks, Keypath.validate k = .ok ())
    (shards : List Nat) (ctx : Auth.Context) {pre : Str} (hp : pre ≠ []) {resp : ListRecordsResponse}
    (h : listRecords ⟨homeDir (prefixPolicy rules),staleRead⟩ shards ctx pre = .ok resp) :
    ∀ r ∈ resp.records, homeDir (prefixPolicy rules) ctx.identityFromContext.1 r.key .read = true := by
  obtain ⟨ha,hall⟩ := listRecords_ok hp h
  intro r hm
  obtain ⟨shardID,f,hf,hk,hc⟩ := hall r hm
  exact homeDir_read_under hr hp (hs shardID f hf r.key hk) hc ha

/-- A record under a rule of another identity's namespace. -/
theorem listRecords_readable_shared :
    let rules : Rules := (∅ : Rules).insert (str "bob") [{ pre := str "/a/" }]
    let f := (new true).run [.leaseGrant (str "c") 5 0,.acquireLock (str "/a/x") (str "c") false]
    let ctx : Auth.Context := { identity := some (str "bob") }
    let shard : Nat → Option FSM := fun _ => some f
    ∃ resp, listRecords ⟨homeDir (prefixPolicy rules),shard⟩ [0] ctx (str "/a/") = .ok resp ∧
      resp.records.map Record.key = [str "/a/x"] ∧
      ∀ r ∈ resp.records, homeDir (prefixPolicy rules) (str "bob") r.key .read = true := by
  intro rules f ctx shard
  have hr : ∀ id rs, rules.lookup id = some rs → ∀ r ∈ rs, Keypath.PrefixForm r.pre := by
    intro id rs hl r hm
    rw [KeyedMap.lookup_insert_eq] at hl
    split_ifs at hl
    · cases hl
      rw [List.mem_singleton.mp hm]
      exact .inr ⟨[str "a"],by decide,.inr (by decide)⟩
    · cases hl
  have hs : ∀ shardID g, shard shardID = some g → ∀ k ∈ g.locks, Keypath.validate k = .ok () := by
    intro shardID g hg k hk
    cases hg
    have hm : k ∈ [str "/a/x"] := hk
    rw [List.mem_singleton.mp hm]
    decide
  have hp : str "/a/" ≠ [] := by decide
  exact ⟨_,rfl,by decide,listRecords_readable hr hs [0] ctx hp rfl⟩

end Zuul.Access
