import Zuul.Fsm.Message
import Zuul.Lib.Decimal
import Zuul.Lib.KeyedMap
import Zuul.Lib.Separator

/-! The members of a cluster deployed as a Kubernetes StatefulSet, worked out by each
pod from its own name. -/
namespace Zuul.Cluster
open Lib Decimal
open Fsm (Str str)

structure K8s where
  name : Str
  service : Str := []
  nameSpace : Str
  clusterDomain : Str := []
  replicas : Int64
  raftPort : Int64
  grpcPort : Int64
  podName : Str
  deriving DecidableEq, Repr

inductive K8sError where
  | nameRequired
  | namespaceRequired
  | replicasTooFew
  | portsRequired
  | podNameRequired
  | otherName (podName pre : Str)
  | noOrdinal (podName : Str)
  | outOfRange (ordinal : Int) (replicas : Int64)
  deriving DecidableEq, Repr

structure Result where
  replicaID : UInt64
  raftAddr : Str
  grpcAddr : Str
  members : KeyedMap UInt64 Str
  seed : KeyedMap UInt64 Str

namespace K8s

def validate (k : K8s) : Except K8sError Unit :=
  if k.name = [] then .error .nameRequired
  else if k.nameSpace = [] then .error .namespaceRequired
  else if k.replicas < 1 then .error .replicasTooFew
  else if k.raftPort < 1 ∨ k.grpcPort < 1 then .error .portsRequired
  else if k.podName = [] then .error .podNameRequired
  else .ok ()

/-- The number behind the name in the name of the pod. -/
def ordinal (k : K8s) : Except K8sError Int :=
  let pre := k.name ++ str "-"
  if ¬ pre.isPrefixOf k.podName then .error (.otherName k.podName pre)
  else
    match atoi (k.podName.drop pre.length) with
    | none => .error (.noOrdinal k.podName)
    | some n =>
      if n < 0 then .error (.noOrdinal k.podName)
      else if n ≥ k.replicas.toInt then .error (.outOfRange n k.replicas)
      else .ok n

/-- The DNS name of a pod. -/
def host (k : K8s) (i : Nat) : Str :=
  let service := if k.service = [] then k.name else k.service
  let domain := if k.clusterDomain = [] then str "cluster.local" else k.clusterDomain
  k.name ++ str "-" ++ decimal i ++ str "." ++ service ++ str "." ++ k.nameSpace ++ str ".svc." ++ domain

def address (k : K8s) (port : Int64) (i : Nat) : Str := k.host i ++ str ":" ++ itoa port.toInt

/-- Replica ids are ordinals plus one. -/
def replicaID (i : Nat) : UInt64 := .ofNat (i + 1)

def addresses (k : K8s) (port : Int64) : KeyedMap UInt64 Str :=
  KeyedMap.fill replicaID (k.address port) (List.range k.replicas.toInt.toNat) ∅

def resolve (k : K8s) : Except K8sError Result := do
  k.validate
  let ordinal ← k.ordinal
  let members := k.addresses k.raftPort
  let seed := k.addresses k.grpcPort
  let rid := replicaID ordinal.toNat
  .ok ⟨rid,(members.lookup rid).getD [],(seed.lookup rid).getD [],members,seed⟩

end K8s

section Maps
variable {k : K8s} {port : Int64} {i j : Nat}

private theorem toNat_replicaID (h : (i : Int) < k.replicas.toInt) : (K8s.replicaID i).toNat = i + 1 := by
  have := k.replicas.toInt_lt
  rw [K8s.replicaID,UInt64.toNat_ofNat']
  omega

private theorem replicaID_injective (hi : (i : Int) < k.replicas.toInt) (hj : (j : Int) < k.replicas.toInt)
    (h : K8s.replicaID i = K8s.replicaID j) : i = j := by
  have he := congrArg UInt64.toNat h
  rw [toNat_replicaID hi,toNat_replicaID hj] at he
  omega

private theorem mem_range_replicas : i ∈ List.range k.replicas.toInt.toNat ↔ (i : Int) < k.replicas.toInt := by
  rw [List.mem_range]
  omega

private theorem lookup_addresses (h : (i : Int) < k.replicas.toInt) :
    (k.addresses port).lookup (K8s.replicaID i) = some (k.address port i) := by
  refine KeyedMap.fill_lookup_mem _ _ _ _ (List.Nodup.map_on ?_ List.nodup_range) i (mem_range_replicas.mpr h)
  intro a ha b hb he
  exact replicaID_injective (mem_range_replicas.mp ha) (mem_range_replicas.mp hb) he

/-- Every entry is that of a replica. -/
theorem of_lookup_addresses {rid : UInt64} {addr : Str} (h : (k.addresses port).lookup rid = some addr) :
    ∃ i : Nat, (i : Int) < k.replicas.toInt ∧ rid = K8s.replicaID i ∧ addr = k.address port i := by
  by_cases hi : ∃ i ∈ List.range k.replicas.toInt.toNat, K8s.replicaID i = rid
  · obtain ⟨i,hi,rfl⟩ := hi
    have hlt := mem_range_replicas.mp hi
    exact ⟨i,hlt,rfl,Option.some.inj (h.symm.trans (lookup_addresses hlt))⟩
  · have hother := KeyedMap.fill_lookup_other K8s.replicaID (k.address port) (List.range k.replicas.toInt.toNat) ∅ rid
      (fun i hm he => hi ⟨i,hm,he⟩)
    cases hother.symm.trans h

/-- The keys are the numbers from one to the number of replicas. -/
theorem mem_addresses (rid : UInt64) :
    rid ∈ k.addresses port ↔ 1 ≤ rid.toNat ∧ (rid.toNat : Int) ≤ k.replicas.toInt := by
  rw [KeyedMap.mem_iff_lookup]
  constructor
  · rintro ⟨addr,h⟩
    obtain ⟨i,hlt,rfl,-⟩ := of_lookup_addresses h
    rw [toNat_replicaID hlt]
    omega
  · rintro ⟨h1,hle⟩
    have hlt : ((rid.toNat - 1 : Nat) : Int) < k.replicas.toInt := by omega
    have he : K8s.replicaID (rid.toNat - 1) = rid := by
      apply UInt64.toNat_inj.mp
      rw [toNat_replicaID hlt]
      omega
    exact ⟨_,he ▸ lookup_addresses hlt⟩

private theorem dot_notMem_decimal (i : Nat) :
    (46 : UInt8) ∉ decimal i := fun hm => absurd (decimal_digits i 46 hm) (by decide)

/-- The part of an address that is the same for all pods. -/
private def common (k : K8s) (port : Int64) : Str :=
  (if k.service = [] then k.name else k.service) ++ str "." ++ k.nameSpace ++ str ".svc." ++
    (if k.clusterDomain = [] then str "cluster.local" else k.clusterDomain) ++ str ":" ++ itoa port.toInt

private theorem address_eq (k : K8s) (port : Int64) (i : Nat) :
    k.address port i = k.name ++ str "-" ++ (decimal i ++ 46 :: common k port) := by
  have hdot : str "." = [46] := by decide
  simp only [K8s.address,K8s.host,common,hdot,List.append_assoc,List.cons_append,List.nil_append]

private theorem address_injective (h : k.address port i = k.address port j) : i = j := by
  rw [address_eq,address_eq] at h
  have hd := append_stops_inj (dot_notMem_decimal i) (dot_notMem_decimal j) (stops_cons _ _) (stops_cons _ _)
    (List.append_cancel_left h)
  exact decimal_injective hd.1

private theorem addresses_distinct {a b : UInt64} {addr : Str} (ha : (k.addresses port).lookup a = some addr)
    (hb : (k.addresses port).lookup b = some addr) : a = b := by
  obtain ⟨i,-,rfl,rfl⟩ := of_lookup_addresses ha
  obtain ⟨j,-,rfl,he⟩ := of_lookup_addresses hb
  rw [address_injective he]

/-- The address begins with the name of the pod exactly if this has the number as it is
written in addresses. -/
theorem own_address_iff {suffix : Str} (hs : 46 ∉ suffix) :
    k.name ++ str "-" ++ suffix ++ str "." <+: k.address port i ↔ suffix = decimal i := by
  have hdot : str "." = [46] := by decide
  rw [address_eq,List.append_assoc _ suffix,List.prefix_append_right_inj,hdot]
  constructor
  · rintro ⟨t,ht⟩
    rw [List.append_assoc] at ht
    exact (append_stops_inj hs (dot_notMem_decimal i) (stops_cons _ _) (stops_cons _ _) ht).1
  · rintro rfl
    exact ⟨common k port,by rw [List.append_assoc]; rfl⟩

end Maps

section Pods
variable {k : K8s} {r r' : Result} {p q : Str}

/-- The same description, seen from a pod. -/
def K8s.seenBy (k : K8s) (pod : Str) : K8s := { k with podName := pod }

/-- The number in the name of the pod has no sign and no leading zero. -/
def K8s.PlainPod (k : K8s) (pod : Str) : Prop := Plain (pod.drop (k.name ++ str "-").length)

/-- The maps have an address for each of the replicas and no address twice, and the node
has its own from them. -/
structure Result.Complete (r : Result) (replicas : Int64) : Prop where
  members : ∀ rid, rid ∈ r.members ↔ 1 ≤ rid.toNat ∧ (rid.toNat : Int) ≤ replicas.toInt
  seed : ∀ rid, rid ∈ r.seed ↔ 1 ≤ rid.toNat ∧ (rid.toNat : Int) ≤ replicas.toInt
  raftDistinct : ∀ a b addr, r.members.lookup a = some addr → r.members.lookup b = some addr → a = b
  grpcDistinct : ∀ a b addr, r.seed.lookup a = some addr → r.seed.lookup b = some addr → a = b
  raftOwn : r.members.lookup r.replicaID = some r.raftAddr
  grpcOwn : r.seed.lookup r.replicaID = some r.grpcAddr

/-- Both addresses begin with the name of the pod. -/
def Result.NamedAfter (r : Result) (pod : Str) : Prop :=
  pod ++ str "." <+: r.raftAddr ∧ pod ++ str "." <+: r.grpcAddr

private theorem ordinal_ok {z : Int} (h : k.ordinal = .ok z) : ∃ (i : Nat) (suffix : Str),
    z = i ∧ (i : Int) < k.replicas.toInt ∧ k.podName = k.name ++ str "-" ++ suffix ∧ atoi suffix = some (i : Int) := by
  rw [K8s.ordinal] at h
  split_ifs at h with hpre
  rw [List.isPrefixOf_iff_prefix] at hpre
  obtain ⟨suffix,hs⟩ := hpre
  rw [← hs,List.drop_left] at h
  cases ha : atoi suffix with
  | none =>
    rw [ha] at h
    cases h
  | some n =>
    rw [ha] at h
    dsimp only at h
    split_ifs at h with hneg hlt
    cases h
    obtain ⟨i,rfl⟩ := Int.eq_ofNat_of_zero_le (Int.not_lt.mp hneg)
    exact ⟨i,suffix,rfl,Int.not_le.mp hlt,hs.symm,ha⟩

/-- What a pod that is accepted works out. -/
theorem resolve_ok (h : k.resolve = .ok r) : ∃ (i : Nat) (suffix : Str),
    (i : Int) < k.replicas.toInt ∧ k.podName = k.name ++ str "-" ++ suffix ∧ atoi suffix = some (i : Int) ∧
    r = ⟨K8s.replicaID i,k.address k.raftPort i,k.address k.grpcPort i,k.addresses k.raftPort,k.addresses k.grpcPort⟩ := by
  rw [K8s.resolve] at h
  cases hv : k.validate with
  | error e =>
    rw [hv] at h
    cases h
  | ok u =>
    cases ho : k.ordinal with
    | error e =>
      rw [hv,ho] at h
      cases h
    | ok z =>
      rw [hv,ho] at h
      obtain ⟨i,suffix,rfl,hlt,hp,ha⟩ := ordinal_ok ho
      cases h
      refine ⟨i,suffix,hlt,hp,ha,?_⟩
      rw [Int.toNat_natCast,lookup_addresses hlt,lookup_addresses hlt]
      rfl

private theorem resolve_complete (h : (k.seenBy p).resolve = .ok r) :
    r.members = k.addresses k.raftPort ∧ r.seed = k.addresses k.grpcPort ∧ r.Complete k.replicas := by
  obtain ⟨i,suffix,hlt,-,-,rfl⟩ := resolve_ok h
  refine ⟨rfl,rfl,mem_addresses,mem_addresses,?_,?_,lookup_addresses hlt,lookup_addresses hlt⟩
  · exact fun a b addr ha hb => addresses_distinct ha hb
  · exact fun a b addr ha hb => addresses_distinct ha hb

private theorem namedAfter_iff (h : (k.seenBy p).resolve = .ok r) : r.NamedAfter p ↔ k.PlainPod p := by
  obtain ⟨i,suffix,-,hp,ha,rfl⟩ := resolve_ok h
  obtain rfl : p = k.name ++ str "-" ++ suffix := hp
  have hdot : 46 ∉ suffix := fun hm => absurd (atoi_bytes ha 46 hm) (by decide)
  rw [Result.NamedAfter,K8s.PlainPod,List.drop_left,plain_iff ha]
  exact (and_congr (own_address_iff hdot) (own_address_iff hdot)).trans and_self_iff

private theorem plain_name (h : (k.seenBy p).resolve = .ok r) (hplain : k.PlainPod p) :
    ∃ i : Nat, (i : Int) < k.replicas.toInt ∧ r.replicaID = K8s.replicaID i ∧ p = k.name ++ str "-" ++ decimal i := by
  obtain ⟨i,suffix,hlt,hp,ha,rfl⟩ := resolve_ok h
  obtain rfl : p = k.name ++ str "-" ++ suffix := hp
  rw [K8s.PlainPod,List.drop_left,plain_iff ha] at hplain
  exact ⟨i,hlt,rfl,by rw [hplain]⟩

private theorem plain_distinct (hp : (k.seenBy p).resolve = .ok r) (hq : (k.seenBy q).resolve = .ok r')
    (hpp : k.PlainPod p) (hpq : k.PlainPod q) (he : r.replicaID = r'.replicaID) : p = q := by
  obtain ⟨i,hi,hr,rfl⟩ := plain_name hp hpp
  obtain ⟨j,hj,hr',rfl⟩ := plain_name hq hpq
  rw [hr,hr'] at he
  rw [replicaID_injective hi hj he]

/-- Two pods that are accepted work out the same complete cluster. They have ids of their own
and addresses under their own names exactly if their numbers are written without a sign and
without leading zeros. -/
theorem pods_agree_iff (hp : (k.seenBy p).resolve = .ok r) (hq : (k.seenBy q).resolve = .ok r') :
    (r.members = r'.members ∧ r.seed = r'.seed ∧ r.Complete k.replicas ∧ r'.Complete k.replicas) ∧
    ((p ≠ q → r.replicaID ≠ r'.replicaID) ∧ r.NamedAfter p ∧ r'.NamedAfter q ↔ k.PlainPod p ∧ k.PlainPod q) := by
  obtain ⟨hm,hs,hc⟩ := resolve_complete hp
  obtain ⟨hm',hs',hc'⟩ := resolve_complete hq
  refine ⟨⟨hm.trans hm'.symm,hs.trans hs'.symm,hc,hc'⟩,?_⟩
  rw [namedAfter_iff hp,namedAfter_iff hq]
  refine and_iff_right_of_imp (fun h hne he => hne ?_)
  exact plain_distinct hp hq h.1 h.2 he

/-- Two pods of three. -/
theorem first_pods_agree :
    let k : K8s := ⟨str "zuul",[],str "prod",[],3,9001,8001,[]⟩
    ∃ r r', (k.seenBy (str "zuul-0")).resolve = .ok r ∧ (k.seenBy (str "zuul-2")).resolve = .ok r' ∧
      r.replicaID = 1 ∧ r'.replicaID = 3 ∧ r.members = r'.members ∧
      r'.raftAddr = str "zuul-2.zuul.prod.svc.cluster.local:9001" ∧ r'.NamedAfter (str "zuul-2") := by
  intro k
  obtain ⟨⟨hm,-⟩,ha⟩ := @pods_agree_iff k _ _ (str "zuul-0") (str "zuul-2") rfl rfl
  have hplain : k.PlainPod (str "zuul-0") ∧ k.PlainPod (str "zuul-2") :=
    ⟨.inl (by decide),.inr ⟨50,by decide,by decide,by decide⟩⟩
  exact ⟨_,_,rfl,rfl,by decide,by decide,hm,by decide,(ha.mpr hplain).2.2⟩

/-- A leading zero is read and not written: two names, one replica. -/
theorem padded_pod_shares_replica :
    let k : K8s := ⟨str "zuul",[],str "prod",[],3,9001,8001,[]⟩
    ∃ r r', (k.seenBy (str "zuul-1")).resolve = .ok r ∧ (k.seenBy (str "zuul-01")).resolve = .ok r' ∧
      str "zuul-1" ≠ str "zuul-01" ∧ r.replicaID = r'.replicaID ∧ ¬ r'.NamedAfter (str "zuul-01") := by
  intro k
  refine ⟨_,_,rfl,rfl,by decide,by decide,?_⟩
  exact fun h => absurd h.1 (by decide)

end Pods
end Zuul.Cluster
