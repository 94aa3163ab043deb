import Mathlib.Data.List.AList
import Mathlib.Data.List.Sort

/-! Finite maps with an enumeration order, read through lookups.
The order is that of an association list; sorted keys do not depend on it. -/
namespace Zuul.Lib

/-- An enumerated finite map. Two maps with the same lookups may enumerate differently. -/
abbrev KeyedMap (K V : Type) := AList (fun _ : K => V)

namespace KeyedMap
variable {K V W : Type} [DecidableEq K]

/-- A written key reads as what was written, the others as before. -/
theorem lookup_insert_eq (m : KeyedMap K V) (k a : K) (v : V) :
    (m.insert k v).lookup a = if a = k then some v else m.lookup a := by
  split
  · rename_i h
    subst h
    exact AList.lookup_insert m
  · rename_i h
    exact AList.lookup_insert_ne h

/-- An erased key is absent, the others read as before. -/
theorem lookup_erase_eq (m : KeyedMap K V) (k a : K) :
    (m.erase k).lookup a = if a = k then none else m.lookup a := by
  split
  · rename_i h
    subst h
    exact AList.lookup_erase a m
  · rename_i h
    exact AList.lookup_erase_ne h

/-- The keys of a map are those with a value. -/
theorem mem_iff_lookup (m : KeyedMap K V) (k : K) : k ∈ m ↔ ∃ v, m.lookup k = some v := by
  rw [← AList.lookup_isSome,Option.isSome_iff_exists]

/-- The entries are the pairs that a lookup finds. -/
theorem mem_entries_iff (m : KeyedMap K V) (k : K) (v : V) : ⟨k,v⟩ ∈ m.entries ↔ m.lookup k = some v :=
  AList.mem_lookup_iff.symm

omit [DecidableEq K] in
private theorem length_keys (m : KeyedMap K V) : m.keys.length = m.entries.length := List.length_map _

/-- A write adds one entry at most. -/
theorem length_insert_le (m : KeyedMap K V) (k : K) (v : V) :
    (m.insert k v).entries.length ≤ m.entries.length + 1 := by
  rw [← length_keys,← length_keys,AList.keys_insert,List.length_cons]
  exact Nat.succ_le_succ List.length_erase_le

/-- An erasure adds none. -/
theorem length_erase_le (m : KeyedMap K V) (k : K) : (m.erase k).entries.length ≤ m.entries.length := by
  rw [← length_keys,← length_keys,AList.keys_erase]
  exact List.length_erase_le

/-- Append to the list stored under a key. -/
def push {A : Type} (m : KeyedMap K (List A)) (k : K) (a : A) : KeyedMap K (List A) :=
  m.insert k ((m.lookup k).getD [] ++ [a])

/-- A push adds to the end of one list. -/
theorem lookup_push {A : Type} (m : KeyedMap K (List A)) (k k' : K) (a : A) :
    ((m.push k a).lookup k').getD [] = (m.lookup k').getD [] ++ if k' = k then [a] else [] := by
  rw [push,lookup_insert_eq]
  split
  · rename_i h
    rw [h]
    rfl
  · simp

section Rel
variable {R S T : V → V → Prop} {x y z : Option V} {m m' : KeyedMap K V}

theorem rel_refl (h : ∀ v, R v v) (x : Option V) : Option.Rel R x x := by
  cases x with
  | none => exact .none
  | some v => exact .some (h v)

theorem rel_trans (hr : Option.Rel R x y) (hs : Option.Rel S y z) (h : ∀ a b c, R a b → S b c → T a c) :
    Option.Rel T x z := by
  cases hr with
  | none => cases hs; exact .none
  | some hab => cases hs with
    | some hbc => exact .some (h _ _ _ hab hbc)

theorem rel_mono (hr : Option.Rel R x y) (h : ∀ a b, R a b → S a b) : Option.Rel S x y := by
  cases hr with
  | none => exact .none
  | some hab => exact .some (h _ _ hab)

/-- Two values related to one are related to each other. -/
theorem rel_join (hr : Option.Rel R x y) (hs : Option.Rel S x z) (h : ∀ a b c, R a b → S a c → T b c) :
    Option.Rel T y z := by
  cases hr with
  | none => cases hs; exact .none
  | some hab => cases hs with
    | some hac => exact .some (h _ _ _ hab hac)

/-- Maps related value by value have the same keys. -/
theorem rel_mem_iff (h : ∀ k, Option.Rel R (m.lookup k) (m'.lookup k)) (k : K) : k ∈ m' ↔ k ∈ m := by
  have hr := h k
  rw [mem_iff_lookup,mem_iff_lookup]
  generalize m.lookup k = x, m'.lookup k = y at hr
  cases hr with
  | none => rfl
  | some => simp

/-- Of two maps related key by key, what the second has the first has. -/
theorem rel_back (h : ∀ k, Option.Rel R (m.lookup k) (m'.lookup k)) {k : K} {b : V} (hk : m'.lookup k = some b) :
    ∃ a, m.lookup k = some a ∧ R a b := by
  have hr := h k
  rw [hk] at hr
  generalize m.lookup k = x at hr
  cases hr with
  | some hab => exact ⟨_,rfl,hab⟩

/-- And what the first has the second has. -/
theorem rel_forth (h : ∀ k, Option.Rel R (m.lookup k) (m'.lookup k)) {k : K} {a : V} (hk : m.lookup k = some a) :
    ∃ b, m'.lookup k = some b ∧ R a b := by
  have hr := h k
  rw [hk] at hr
  generalize m'.lookup k = y at hr
  cases hr with
  | some hab => exact ⟨_,rfl,hab⟩

end Rel

/-- Insert every pair of a list, later pairs winning. -/
def fill {A : Type} (key : A → K) (val : A → V) (xs : List A) (m : KeyedMap K V) : KeyedMap K V :=
  xs.foldl (fun m x => m.insert (key x) (val x)) m

/-- Filling leaves the keys it does not write. -/
theorem fill_lookup_other {A : Type} (key : A → K) (val : A → V) (xs : List A) (m : KeyedMap K V)
    (k : K) (h : ∀ x ∈ xs, key x ≠ k) : (fill key val xs m).lookup k = m.lookup k := by
  induction xs generalizing m with
  | nil => rfl
  | cons x xs ih =>
    have hx := h x List.mem_cons_self
    rw [fill,List.foldl_cons]
    exact (ih (m.insert (key x) (val x)) (fun y hy => h y (List.mem_cons_of_mem _ hy))).trans
      (by rw [lookup_insert_eq,if_neg (Ne.symm hx)])

/-- With distinct keys every filled pair is found again. -/
theorem fill_lookup_mem {A : Type} (key : A → K) (val : A → V) (xs : List A) (m : KeyedMap K V)
    (hn : (xs.map key).Nodup) (x : A) (hx : x ∈ xs) :
    (fill key val xs m).lookup (key x) = some (val x) := by
  induction xs generalizing m with
  | nil => cases hx
  | cons y ys ih =>
    rw [List.map_cons,List.nodup_cons] at hn
    rw [fill,List.foldl_cons]
    rcases List.mem_cons.mp hx with rfl | hx
    · have ho := fill_lookup_other key val ys (m.insert (key x) (val x)) (key x)
        (fun z hz he => hn.1 (List.mem_map.mpr ⟨z,hz,he⟩))
      exact ho.trans (by rw [lookup_insert_eq,if_pos rfl])
    · exact ih (m.insert (key y) (val y)) hn.2 hx

/-- Loading distinct keys into the empty map is a search in the list. -/
theorem fill_lookup_find {A : Type} (key : A → K) (val : A → V) (xs : List A) (hn : (xs.map key).Nodup) (k : K) :
    (fill key val xs ∅).lookup k = (xs.find? (fun x => key x = k)).map val := by
  cases hx : xs.find? (fun x => key x = k) with
  | none =>
    rw [fill_lookup_other]
    · rfl
    · intro x hm he
      exact List.find?_eq_none.mp hx x hm (decide_eq_true he)
  | some x =>
    have he : key x = k := by simpa using List.find?_some hx
    rw [← he]
    exact fill_lookup_mem key val xs ∅ hn x (List.mem_of_find?_eq_some hx)
end KeyedMap

namespace KeyedMap
variable {K V W : Type} [LE K] [DecidableLE K]

/-- The keys in ascending order. -/
def sortedKeys (m : KeyedMap K V) : List K := m.keys.insertionSort (· ≤ ·)

/-- Sorting neither loses nor adds a key. -/
@[simp] theorem mem_sortedKeys (m : KeyedMap K V) (k : K) : k ∈ m.sortedKeys ↔ k ∈ m :=
  (List.perm_insertionSort (· ≤ ·) m.keys).mem_iff

/-- No key is listed twice. -/
theorem sortedKeys_nodup (m : KeyedMap K V) : m.sortedKeys.Nodup :=
  (List.perm_insertionSort (· ≤ ·) m.keys).nodup_iff.mpr m.keys_nodup

variable [Std.IsLinearOrder K]

/-- The sorted keys never go down. -/
theorem sortedKeys_pairwise (m : KeyedMap K V) : m.sortedKeys.Pairwise (· ≤ ·) :=
  List.pairwise_insertionSort (· ≤ ·) m.keys

/-- Sorting removes the enumeration order: maps with the same key set list the
same keys in the same order. -/
theorem sortedKeys_congr (a : KeyedMap K V) (b : KeyedMap K W) (h : ∀ k, k ∈ a ↔ k ∈ b) :
    a.sortedKeys = b.sortedKeys := by
  have hp : a.sortedKeys.Perm b.sortedKeys := by
    apply (List.perm_ext_iff_of_nodup a.sortedKeys_nodup b.sortedKeys_nodup).mpr
    intro k
    rw [mem_sortedKeys,mem_sortedKeys]
    exact h k
  exact hp.eq_of_pairwise (fun x y _ _ hxy hyx => Std.le_antisymm hxy hyx)
    a.sortedKeys_pairwise b.sortedKeys_pairwise

end KeyedMap

namespace KeyedMap
variable {K V W A : Type} [DecidableEq K] [LE K] [DecidableLE K]

/-- All entries in key order, each rendered as a record. -/
def dump (m : KeyedMap K V) (enc : K → V → A) : List A :=
  m.sortedKeys.filterMap (fun k => (m.lookup k).map (enc k))

/-- A dump encodes just the entries of the map. -/
theorem mem_dump (m : KeyedMap K V) (enc : K → V → A) (a : A) :
    a ∈ m.dump enc ↔ ∃ k v, m.lookup k = some v ∧ enc k v = a := by
  simp only [dump,List.mem_filterMap,mem_sortedKeys,mem_iff_lookup,Option.map_eq_some_iff]
  constructor
  · rintro ⟨k,_,v,hv,he⟩
    exact ⟨k,v,hv,he⟩
  · rintro ⟨k,v,hv,he⟩
    exact ⟨k,⟨v,hv⟩,v,hv,he⟩

/-- Mapping a dump is dumping with another encoding. -/
theorem dump_map {B : Type} (m : KeyedMap K V) (enc : K → V → A) (h : A → B) :
    (m.dump enc).map h = m.dump (fun k v => h (enc k v)) := by
  rw [dump,dump,List.map_filterMap]
  simp only [Option.map_map,Function.comp_def]

/-- A dump whose encoding shows the key lists the keys in order. -/
theorem dump_keys (m : KeyedMap K V) (enc : K → V → A) (key : A → K) (hk : ∀ k v, key (enc k v) = k) :
    (m.dump enc).map key = m.sortedKeys := by
  have hs : ∀ xs : List K, (∀ k ∈ xs, k ∈ m) →
      (xs.filterMap (fun k => (m.lookup k).map (enc k))).map key = xs := by
    intro xs hx
    induction xs with
    | nil => rfl
    | cons k xs ih =>
      obtain ⟨v,hv⟩ := (mem_iff_lookup m k).mp (hx k List.mem_cons_self)
      rw [List.filterMap_cons_some (b := enc k v) (by rw [hv]; rfl),List.map_cons,hk,
        ih (fun a ha => hx a (List.mem_cons_of_mem _ ha))]
  exact hs m.sortedKeys (fun k hk => (mem_sortedKeys m k).mp hk)

/-- Loading a dump into the empty map gives back every entry, through the records. -/
theorem fill_dump_lookup (m : KeyedMap K V) (enc : K → V → A) (key : A → K) (val : A → W)
    (hk : ∀ k v, key (enc k v) = k) (k : K) :
    (fill key val (m.dump enc) ∅).lookup k = (m.lookup k).map (fun v => val (enc k v)) := by
  cases hv : m.lookup k with
  | none =>
    rw [fill_lookup_other]
    · rfl
    · intro a ha
      obtain ⟨k',v,hv',he⟩ := (mem_dump m enc a).mp ha
      rintro rfl
      rw [← he,hk,hv'] at hv
      cases hv
  | some v =>
    have hm : enc k v ∈ m.dump enc := (mem_dump m enc _).mpr ⟨k,v,hv,rfl⟩
    have hn : ((m.dump enc).map key).Nodup := by
      rw [dump_keys m enc key hk]
      exact sortedKeys_nodup m
    have hf := fill_lookup_mem key val (m.dump enc) ∅ hn _ hm
    rw [hk] at hf
    exact hf

end KeyedMap

namespace KeyedMap
variable {K V W : Type}

/-- Change every value, in the order of the entries. -/
def mapWithKey (f : K → V → W) (m : KeyedMap K V) : KeyedMap K W where
  entries := m.entries.map (fun e => ⟨e.1,f e.1 e.2⟩)
  nodupKeys := by
    have hk : (m.entries.map (fun e => (⟨e.1,f e.1 e.2⟩ : (_ : K) × W))).keys = m.entries.keys := by
      rw [List.keys,List.map_map]
      rfl
    rw [List.NodupKeys,hk]
    exact m.nodupKeys

/-- Mapping the values leaves the keys. -/
theorem keys_mapWithKey (f : K → V → W) (m : KeyedMap K V) : (m.mapWithKey f).keys = m.keys := by
  rw [AList.keys,mapWithKey,List.keys,List.map_map]
  rfl

/-- A mapped map reads as the mapped value. -/
theorem lookup_mapWithKey [DecidableEq K] (f : K → V → W) (m : KeyedMap K V) (k : K) :
    (m.mapWithKey f).lookup k = (m.lookup k).map (f k) := by
  change (m.entries.map (fun e => (⟨e.1,f e.1 e.2⟩ : (_ : K) × W))).dlookup k = (m.entries.dlookup k).map (f k)
  induction m.entries with
  | nil => rfl
  | cons e es ih =>
    obtain ⟨a,v⟩ := e
    by_cases ha : a = k
    · subst ha
      rw [List.map_cons,List.dlookup_cons_eq,List.dlookup_cons_eq]
      rfl
    · rw [List.map_cons,List.dlookup_cons_ne _ _ (fun he => ha he.symm),List.dlookup_cons_ne _ _ (fun he => ha he.symm),ih]

end KeyedMap
end Zuul.Lib
