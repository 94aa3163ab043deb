import Mathlib.Data.List.Basic
import Mathlib.Data.List.Induction
import Zuul.Auth.Keypath
import Zuul.Lib.Separator

/-! Owners and prefixes of resource paths. -/
namespace Zuul.Auth.Keypath
open Lib
open Fsm (Str str)
variable {key id pre p : Str}

section Owner

private theorem validate_ok (h : validate key = .ok ()) :
    key.head? = some slash ∧ key.getLast? ≠ some slash ∧ slash ∈ key.tail := by
  rw [validate] at h
  split_ifs at h with _ _ hhead hlast
  rw [ne_eq,not_not] at hhead
  refine ⟨hhead,hlast,?_⟩
  by_contra hn
  -- without a separator there is one segment only
  have hs : key.tail.splitOn slash = [key.tail] := by
    apply List.splitOnP_eq_singleton
    intro b hb
    exact beq_false_of_ne (fun he => hn (he ▸ hb))
  simp only [hs,List.length_singleton,Nat.lt_add_one,if_true] at h
  cases h

/-- A canonical path begins with a segment and goes on after it. -/
theorem first_segment (h : validate key = .ok ()) :
    ∃ seg rest, key = slash :: (seg ++ slash :: rest) ∧ slash ∉ seg := by
  obtain ⟨hhead,_,hslash⟩ := validate_ok h
  obtain ⟨seg,rest,he,hn⟩ := List.eq_append_cons_of_mem hslash
  refine ⟨seg,rest,?_,hn⟩
  rw [← he]
  cases key with
  | nil => cases hhead
  | cons b t => rw [Option.some.inj hhead]; rfl

/-- The owner is the segment between the first two separators. -/
theorem owner_eq_ok_iff : owner key = .ok id ↔
    validate key = .ok () ∧ slash ∉ id ∧ ∃ rest, key = slash :: (id ++ slash :: rest) := by
  rw [owner]
  cases hv : validate key with
  | error e => exact iff_of_false (fun h => by cases h) (fun h => by cases h.1)
  | ok u =>
    obtain ⟨seg,rest,rfl,hn⟩ := first_segment hv
    constructor
    · intro h
      cases h
      rw [List.tail_cons,takeWhile_stops hn (stops_cons slash rest)]
      exact ⟨rfl,hn,rest,rfl⟩
    · rintro ⟨_,hid,rest',he⟩
      have ht : seg ++ slash :: rest = id ++ slash :: rest' := (List.cons.inj he).2
      change Except.ok ((seg ++ slash :: rest).takeWhile (· ≠ slash)) = _
      rw [ht,takeWhile_stops hid (stops_cons slash rest')]

end Owner

section Prefixes

/-- A prefix covers all keys if it is empty, and otherwise its own path and what is below it. -/
theorem hasPrefix_iff :
    hasPrefix pre key = true ↔ pre = [] ∨ key = trimSlash pre ∨ trimSlash pre ++ [slash] <+: key := by
  rw [hasPrefix]
  split_ifs with h
  · simp [h]
  · rw [Bool.or_eq_true,beq_iff_eq,List.isPrefixOf_iff_prefix,or_iff_right h]

private theorem trimSlash_of_last (h : p.getLast? ≠ some slash) : trimSlash p = p := if_neg h

private theorem trimSlash_append_slash (p : Str) : trimSlash (p ++ [slash]) = p := by simp [trimSlash]

/-- Trimming works on the last part only. -/
theorem trimSlash_append (p : Str) {q : Str} (hq : q ≠ []) : trimSlash (p ++ q) = p ++ trimSlash q := by
  rw [trimSlash,trimSlash,List.getLast?_append_of_ne_nil _ hq]
  split_ifs
  · exact List.dropLast_append_of_ne_nil hq
  · rfl

/-- What falls under a prefix of keys falls under a prefix of that prefix, if no
separator is left at the end of the latter. -/
theorem hasPrefix_trans (hpre : (trimSlash pre).getLast? ≠ some slash) (hp : p ≠ []) (h : hasPrefix pre p = true)
    (hk : hasPrefix p key = true) : hasPrefix pre key = true := by
  rw [hasPrefix_iff] at h hk ⊢
  have hk := hk.resolve_left hp
  refine h.imp_right ?_
  rintro (rfl | ⟨rest,rfl⟩)
  · rwa [trimSlash_of_last hpre] at hk
  · by_cases hr : rest = []
    · rwa [hr,List.append_nil,trimSlash_append_slash] at hk
    · right
      rw [trimSlash_append _ hr] at hk
      rcases hk with rfl | hk
      · exact List.prefix_append _ _
      · exact ((List.prefix_append _ _).trans (List.prefix_append _ _)).trans hk

/-- A canonical key under a canonical prefix has the owner of the prefix. -/
theorem owner_of_hasPrefix (ho : owner p = .ok id) (hv : validate key = .ok ()) (hk : hasPrefix p key = true) :
    owner key = .ok id := by
  obtain ⟨hp,hn,rest,he⟩ := owner_eq_ok_iff.mp ho
  have hlast := (validate_ok hp).2.1
  have hne : p ≠ [] := by rw [he]; simp
  have hpre : p <+: key := by
    rcases (hasPrefix_iff.mp hk).resolve_left hne with hk | hk
    · have hkey := hk.trans (trimSlash_of_last hlast)
      exact hkey ▸ List.prefix_rfl
    · rw [trimSlash_of_last hlast] at hk
      exact (List.prefix_append _ _).trans hk
  obtain ⟨t,rfl⟩ := hpre
  refine owner_eq_ok_iff.mpr ⟨hv,hn,rest ++ t,?_⟩
  rw [he]
  simp

end Prefixes

section Form

/-- Segments, each after a separator. -/
def path (segs : List Str) : Str := segs.flatMap (slash :: ·)

/-- The wildcard, or a path of segments with at most one separator at its end. -/
def PrefixForm (pre : Str) : Prop :=
  pre = [] ∨ ∃ segs, (∀ s ∈ segs, s ≠ [] ∧ slash ∉ s) ∧ (pre = path segs ∨ pre = path segs ++ [slash])

private theorem path_last {segs : List Str} (h : ∀ s ∈ segs, s ≠ [] ∧ slash ∉ s) :
    (path segs).getLast? ≠ some slash := by
  cases segs using List.reverseRecOn with
  | nil => simp [path]
  | append_singleton segs s =>
    obtain ⟨hne,hn⟩ := h s (by simp)
    intro hl
    rw [path,List.flatMap_append,List.flatMap_singleton,List.append_cons,List.getLast?_append_of_ne_nil _ hne] at hl
    exact hn (List.mem_of_getLast? hl)

/-- No separator is left at the end of a trimmed rule prefix. -/
theorem PrefixForm.trimmed (h : PrefixForm pre) : (trimSlash pre).getLast? ≠ some slash := by
  rcases h with rfl | ⟨segs,hs,rfl | rfl⟩
  · simp [trimSlash]
  · rw [trimSlash_of_last (path_last hs)]
    exact path_last hs
  · rw [trimSlash_append_slash]
    exact path_last hs

end Form

section Grammar
variable {segs p : List Str} {s x : Str}

/-- The bytes of a segment: [A-Za-z0-9._@-]. -/
def SegmentByte (b : UInt8) : Prop :=
  (65 ≤ b ∧ b ≤ 90) ∨ (97 ≤ b ∧ b ≤ 122) ∨ (48 ≤ b ∧ b ≤ 57) ∨ b ∈ str "._@-"

/-- One to 255 of these bytes, and neither of the two names with a meaning of their own. -/
def IsSegment (s : Str) : Prop :=
  (1 ≤ s.length ∧ s.length ≤ 255) ∧ (∀ b ∈ s, SegmentByte b) ∧ s ≠ str "." ∧ s ≠ str ".."

instance (b : UInt8) : Decidable (SegmentByte b) := inferInstanceAs (Decidable (_ ∨ _))

instance (s : Str) : Decidable (IsSegment s) :=
  have : Decidable (∀ b ∈ s, SegmentByte b) := List.decidableBAll _ s
  inferInstanceAs (Decidable (_ ∧ _))

private theorem segmentByte_iff (b : UInt8) : isSegmentRune b.toNat = true ↔ SegmentByte b := by
  have hm : str "._@-" = [46,95,64,45] := by decide
  rw [SegmentByte,hm]
  simp only [isSegmentRune,Bool.or_eq_true,Bool.and_eq_true,decide_eq_true_eq,beq_iff_eq,List.mem_cons,
    List.not_mem_nil,or_false,UInt8.le_iff_toNat_le,← UInt8.toNat_inj,UInt8.reduceToNat]
  omega

private theorem runes_allowed_iff : (Utf8.runes s).find? (!isSegmentRune ·) = none ↔ ∀ b ∈ s, SegmentByte b := by
  have hp : ∀ r, 0x80 ≤ r → ¬ isSegmentRune r = true := by
    intro r hr
    simp only [isSegmentRune,Bool.or_eq_true,Bool.and_eq_true,decide_eq_true_eq,beq_iff_eq]
    omega
  rw [List.find?_eq_none]
  simp only [Bool.not_eq_true',Bool.not_eq_false]
  rw [Utf8.all_runes_iff hp]
  exact forall₂_congr (fun b _ => segmentByte_iff b)

private theorem validateSegment_ok_iff : validateSegment s = .ok () ↔ IsSegment s := by
  rw [validateSegment,IsSegment,← runes_allowed_iff]
  split_ifs with hempty hdots hlong
  · refine iff_of_false (fun h => by cases h) (fun h => ?_)
    rw [hempty] at h
    exact absurd h.1.1 (by decide)
  · exact iff_of_false (fun h => by cases h) (fun h => hdots.elim h.2.2.1 h.2.2.2)
  · exact iff_of_false (fun h => by cases h) (fun h => Nat.not_lt.mpr h.1.2 hlong)
  · have hlen : 1 ≤ s.length ∧ s.length ≤ 255 := ⟨List.length_pos_iff.mpr hempty,Nat.not_lt.mp hlong⟩
    rw [not_or] at hdots
    cases hr : (Utf8.runes s).find? (!isSegmentRune ·) with
    | none => exact iff_of_true rfl ⟨hlen,rfl,hdots⟩
    | some r => exact iff_of_false (fun h => by cases h) (fun h => by cases h.2.1)

private theorem validateSegments_cons : validateSegments key (s :: segs) =
    ((validateSegment s).mapError (KeyError.segment key) >>= fun _ => validateSegments key segs) := rfl

private theorem validateSegments_ok_iff : validateSegments key segs = .ok () ↔ ∀ s ∈ segs, IsSegment s := by
  induction segs with
  | nil => exact iff_of_true rfl (fun s hs => by cases hs)
  | cons s segs ih =>
    rw [List.forall_mem_cons,← ih,← validateSegment_ok_iff,validateSegments_cons]
    cases validateSegment s with
    | error e => exact iff_of_false (fun h => by cases h) (fun h => by cases h.1)
    | ok u => exact (and_iff_right rfl).symm

private theorem IsSegment.slash_free (h : IsSegment s) : s ≠ [] ∧ slash ∉ s := by
  obtain ⟨⟨hpos,-⟩,hb,-⟩ := h
  exact ⟨List.length_pos_iff.mp hpos,fun hm => absurd (hb slash hm) (by decide)⟩

private theorem path_eq_intercalate (h : segs ≠ []) : path segs = slash :: [slash].intercalate segs := by
  induction segs with
  | nil => exact absurd rfl h
  | cons s segs ih =>
    cases segs with
    | nil => simp [path]
    | cons s' segs =>
      rw [path,List.flatMap_cons,← path,ih (List.cons_ne_nil _ _),List.intercalate_cons_cons]
      simp

/-- A key is accepted exactly if it is a path of at least two segments, of at most 1024 bytes. -/
theorem validate_ok_iff : validate key = .ok () ↔
    key.length ≤ 1024 ∧ ∃ segs, key = path segs ∧ 2 ≤ segs.length ∧ ∀ s ∈ segs, IsSegment s := by
  constructor
  · intro h
    have hhead := (validate_ok h).1
    rw [validate] at h
    dsimp only at h
    split_ifs at h with _ hlong _ _ hfew
    refine ⟨Nat.not_lt.mp hlong,key.tail.splitOn slash,?_,Nat.not_lt.mp hfew,validateSegments_ok_iff.mp h⟩
    have hne : key.tail.splitOn slash ≠ [] := List.splitOnP_ne_nil _ _
    rw [path_eq_intercalate hne,List.intercalate_splitOn]
    exact (List.cons_head?_tail hhead).symm
  · rintro ⟨hlen,segs,rfl,htwo,hs⟩
    have hne : segs ≠ [] := List.ne_nil_of_length_pos (by omega)
    have hfree : ∀ s ∈ segs, slash ∉ s := fun s hm => (hs s hm).slash_free.2
    have hsplit : (path segs).tail.splitOn slash = segs := by
      rw [path_eq_intercalate hne,List.tail_cons,List.splitOn_intercalate slash hfree hne]
    have hhead : (path segs).head? = some slash := by rw [path_eq_intercalate hne]; rfl
    have hkey : path segs ≠ [] := by rw [path_eq_intercalate hne]; exact List.cons_ne_nil _ _
    have hlong : ¬ (path segs).length > maxPathLen := Nat.not_lt.mpr hlen
    rw [validate,if_neg hkey,if_neg hlong,if_neg (not_not.mpr hhead),
      if_neg (path_last (fun s hm => (hs s hm).slash_free)),hsplit]
    dsimp only
    rw [if_neg (by omega)]
    exact validateSegments_ok_iff.mpr hs

private theorem stops_path (segs : List Str) : Stops slash (path segs) := by
  cases segs with
  | nil => exact stops_nil
  | cons s segs => exact stops_cons _ _

private theorem prefix_of_path (hs : ∀ s ∈ segs, slash ∉ s) (hp : ∀ s ∈ p, slash ∉ s) (hx : Stops slash x)
    (h : path segs = path p ++ x) : p <+: segs := by
  induction p generalizing segs with
  | nil => exact List.nil_prefix
  | cons a p ih =>
    obtain ⟨ha,hp'⟩ := List.forall_mem_cons.mp hp
    cases segs with
    | nil => cases h
    | cons b segs =>
      obtain ⟨hb,hs'⟩ := List.forall_mem_cons.mp hs
      have heq : b ++ path segs = a ++ (path p ++ x) := by
        rw [← List.append_assoc]
        exact (List.cons.inj h).2
      obtain ⟨rfl,htail⟩ := append_stops_inj hb ha (stops_path segs) ((stops_path p).append hx) heq
      exact List.cons_prefix_cons.mpr ⟨rfl,ih hs' hp' htail⟩

private theorem under_path_iff (hs : ∀ s ∈ segs, slash ∉ s) (hp : ∀ s ∈ p, slash ∉ s) :
    (path segs = path p ∨ path p ++ [slash] <+: path segs) ↔ p <+: segs := by
  constructor
  · rintro (h | ⟨t,h⟩)
    · exact prefix_of_path hs hp stops_nil (h.trans (List.append_nil _).symm)
    · rw [List.append_assoc] at h
      exact prefix_of_path hs hp (stops_cons slash t) h.symm
  · rintro ⟨rest,rfl⟩
    rw [path,List.flatMap_append,← path]
    cases rest with
    | nil => exact .inl (List.append_nil _)
    | cons s rest => exact .inr (List.prefix_append_right_inj _ |>.mpr (List.prefix_append _ _))

private theorem hasPrefix_path_iff {pre : Str} (hne : p ≠ []) (hp : ∀ s ∈ p, IsSegment s) (hs : ∀ s ∈ segs, IsSegment s)
    (hpre : pre = path p ∨ pre = path p ++ [slash]) : hasPrefix pre (path segs) = true ↔ p <+: segs := by
  have htrim : trimSlash pre = path p := by
    rcases hpre with rfl | rfl
    · exact trimSlash_of_last (path_last (fun s hm => (hp s hm).slash_free))
    · exact trimSlash_append_slash _
  have hpne : pre ≠ [] := by
    rcases hpre with rfl | rfl
    · rw [path_eq_intercalate hne]
      exact List.cons_ne_nil _ _
    · simp
  rw [hasPrefix_iff,or_iff_right hpne,htrim]
  exact under_path_iff (fun s hm => (hs s hm).slash_free.2) (fun s hm => (hp s hm).slash_free.2)

private theorem owner_path (hv : validate (path segs) = .ok ()) (hs : ∀ s ∈ segs, IsSegment s) :
    ∃ first rest, segs = first :: rest ∧ owner (path segs) = .ok first := by
  obtain ⟨hhead,-,hslash⟩ := validate_ok hv
  cases segs with
  | nil => cases hhead
  | cons first rest =>
    have hfree := (hs first List.mem_cons_self).slash_free.2
    have hne : rest ≠ [] := by
      rintro rfl
      rw [path,List.flatMap_singleton] at hslash
      exact hfree hslash
    refine ⟨first,rest,rfl,owner_eq_ok_iff.mpr ⟨hv,hfree,[slash].intercalate rest,?_⟩⟩
    rw [← path_eq_intercalate hne]
    rfl

/-- Keys are exactly the documented paths. The owner of one is its first segment, and it
falls under a prefix of segments, with or without a separator at the end, exactly if
these are the first of its own. -/
theorem keypath_grammar (key : Str) :
    (validate key = .ok () ↔
      key.length ≤ 1024 ∧ ∃ segs, key = path segs ∧ 2 ≤ segs.length ∧ ∀ s ∈ segs, IsSegment s) ∧
    ∀ segs, validate key = .ok () → key = path segs → (∀ s ∈ segs, IsSegment s) →
      (∃ first rest, segs = first :: rest ∧ owner key = .ok first) ∧
      ∀ p pre, p ≠ [] → (∀ s ∈ p, IsSegment s) → pre = path p ∨ pre = path p ++ [slash] →
        (hasPrefix pre key = true ↔ p <+: segs) := by
  refine ⟨validate_ok_iff,?_⟩
  rintro segs hv rfl hs
  exact ⟨owner_path hv hs,fun p pre hne hp hpre => hasPrefix_path_iff hne hp hs hpre⟩

/-- A key of three segments under a prefix of two. -/
theorem keypath_grammar_nested :
    let segs := [str "ann",str "jobs",str "n-1"]
    validate (path segs) = .ok () ∧ owner (path segs) = .ok (str "ann") ∧
    hasPrefix (str "/ann/jobs/") (path segs) = true ∧ hasPrefix (str "/ann/job") (path segs) = false := by
  intro segs
  have hs : ∀ s ∈ segs, IsSegment s := by decide
  have hv : validate (path segs) = .ok () := (keypath_grammar _).1.mpr ⟨by decide,segs,rfl,by decide,hs⟩
  obtain ⟨⟨first,rest,he,ho⟩,hp⟩ := (keypath_grammar _).2 segs hv rfl hs
  obtain rfl : str "ann" = first := (List.cons.inj he).1
  have hjobs := hp [str "ann",str "jobs"] (str "/ann/jobs/") (by decide) (by decide) (.inr (by decide))
  have hjob := hp [str "ann",str "job"] (str "/ann/job") (by decide) (by decide) (.inl (by decide))
  exact ⟨hv,ho,hjobs.mpr (by decide),Bool.eq_false_iff.mpr (fun h => absurd (hjob.mp h) (by decide))⟩

end Grammar
end Zuul.Auth.Keypath
