import Zuul.Lib.LeaderLog

/-! The entry log of a raft node, with the entries up to a marker compacted. Terms and
indexes, uint64s of the code, are natural numbers here and in all that follows: they do not
wrap around. -/
namespace Zuul.Dragonboat
open Lib.LeaderLog

inductive EntryType where
  | application
  | configChange
  | encoded
  | metadata
  deriving DecidableEq, Repr

structure Entry where
  term : Nat := 0
  index : Nat := 0
  type : EntryType := .application
  cmd : List UInt8 := []
  deriving DecidableEq, Repr

/-- Index and term of the last entry that is part of a snapshot. -/
structure Snapshot where
  index : Nat := 0
  term : Nat := 0
  deriving DecidableEq, Repr

def entryNonCmdFieldsSize : Nat := 128

def Entry.sizeUpperLimit (e : Entry) : Nat := entryNonCmdFieldsSize + e.cmd.length

/-- How many of the entries fit behind total bytes. -/
def fitting (limit : Nat) : Nat → List Entry → List Entry
  | _, [] => []
  | total, e :: ents =>
    if limit < total + e.sizeUpperLimit then [] else e :: fitting limit (total + e.sizeUpperLimit) ents

/-- The first entry always, and the next as long as they fit. -/
def limitSize (limit : Nat) : List Entry → List Entry
  | [] => []
  | e :: ents => e :: fitting limit e.sizeUpperLimit ents

/-- The entries behind the marker, which keeps the term of the last one compacted. -/
structure EntryLog where
  markerIndex : Nat := 0
  markerTerm : Nat := 0
  entries : List Entry := []
  committed : Nat := 0
  processed : Nat := 0
  snapshot : Snapshot := {}
  deriving DecidableEq, Repr

namespace EntryLog
variable (l : EntryLog)

def firstIndex : Nat := l.markerIndex + 1

def lastIndex : Nat := l.markerIndex + l.entries.length

/-- Zero for an index that is not in the log. -/
def term (index : Nat) : Nat :=
  if index < l.markerIndex ∨ l.lastIndex < index then 0
  else if index = l.markerIndex then l.markerTerm
  else (l.entries[index - l.markerIndex - 1]?).elim 0 Entry.term

def lastTerm : Nat := l.term l.lastIndex

def matchTerm (index term : Nat) : Bool := l.term index == term

/-- Nothing is there behind the end, and none is given for an index that was compacted. -/
def entriesFrom (start maxSize : Nat) : Option (List Entry) :=
  if l.lastIndex < start then some []
  else if start < l.firstIndex then none
  else some (limitSize maxSize (l.entries.drop (start - l.firstIndex)))

/-- Whether the candidate's last entry is as new as the own one. -/
def upToDate (index term : Nat) : Bool :=
  if l.lastTerm ≤ term then if l.lastTerm < term then true else decide (l.lastIndex ≤ index) else false

def getConflictIndex (entries : List Entry) : Nat :=
  (entries.find? (fun e => !l.matchTerm e.index e.term)).elim 0 Entry.index

/-- The functions below are none where the code panics. Entries are put behind those before
their first index: no hole, and no term below the one before. -/
def append (entries : List Entry) : Option EntryLog :=
  match entries with
  | [] => some l
  | e :: _ =>
    let existing := l.entries.take (e.index - l.firstIndex)
    if e.index ≤ l.committed ∨ l.lastIndex + 1 < e.index ∨ existing.getLast?.any (fun d => decide (e.term < d.term)) then none
    else some { l with entries := existing ++ entries }

def tryAppend (index : Nat) (ents : List Entry) : Option EntryLog :=
  let conflictIndex := l.getConflictIndex ents
  if conflictIndex ≠ 0 then
    if conflictIndex ≤ l.committed then none else l.append (ents.drop (conflictIndex - index - 1))
  else some l

def commitTo (index : Nat) : Option EntryLog :=
  if index ≤ l.committed then some l
  else if l.lastIndex < index then none
  else some { l with committed := index }

def tryCommit (index term : Nat) : Option (EntryLog × Bool) :=
  if index ≤ l.committed then some (l,false)
  else if l.term index = term then (l.commitTo index).map (fun l => (l,true))
  else some (l,false)

def restore (_ : EntryLog) (s : Snapshot) : EntryLog :=
  { markerIndex := s.index, markerTerm := s.term, committed := s.index, processed := s.index, snapshot := s }

/-- The log reader drops the entries up to an index. -/
def compact (index : Nat) : EntryLog :=
  { l with markerIndex := index, markerTerm := l.term index, entries := l.entries.drop (index - l.markerIndex) }

end EntryLog

private theorem limitSize_isPrefix (limit : Nat) (ents : List Entry) : limitSize limit ents <+: ents := by
  have hfit : ∀ total (ents : List Entry), fitting limit total ents <+: ents := by
    intro total ents
    induction ents generalizing total with
    | nil => exact List.nil_prefix
    | cons e ents ih =>
      rw [fitting]
      split_ifs
      · exact List.nil_prefix
      · exact (List.prefix_cons_inj e).mpr (ih _)
  cases ents with
  | nil => exact List.nil_prefix
  | cons e ents => exact (List.prefix_cons_inj e).mpr (hfit _ _)

/-- The term of the entry with an index. -/
def termAt (full : List Entry) (index : Nat) : Nat := lastStamp Entry.term (full.take index)

/-- Each entry has its place as index, from one on. -/
def Numbered (full : List Entry) : Prop := ∀ p e r, full = p ++ e :: r → e.index = p.length + 1

/-- The log is what a compaction has left of a full one. -/
structure Shows (full : List Entry) (l : EntryLog) : Prop where
  marker : l.markerIndex ≤ full.length
  term : l.markerTerm = termAt full l.markerIndex
  entries : l.entries = full.drop l.markerIndex

section Terms
variable {full other : List Entry} {l : EntryLog} {index : Nat}

/-- The term at an index is that of the entry there. -/
theorem termAt_succ {k : Nat} (hk : k < full.length) : termAt full (k + 1) = (full[k]).term := by
  rw [termAt,List.take_succ_eq_append_getElem hk,lastStamp_concat]

/-- Numbered entries have their place as their index. -/
theorem numbered_iff : Numbered full ↔ ∀ k e, full[k]? = some e → e.index = k + 1 := by
  constructor
  · intro h k e he
    obtain ⟨hk,rfl⟩ := List.getElem?_eq_some_iff.mp he
    have hsplit : full = full.take k ++ full[k] :: full.drop (k + 1) := by
      rw [← List.drop_eq_getElem_cons hk,List.take_append_drop]
    rw [h _ _ _ hsplit,List.length_take_of_le (Nat.le_of_lt hk)]
  · rintro h p e r rfl
    exact h p.length e (by simp)

theorem Numbered.down {p : List Entry} (h : Numbered full) (hp : p <+: full) : Numbered p := by
  obtain ⟨r,rfl⟩ := hp
  rintro p e r' rfl
  exact h p e (r' ++ r) (by simp)

/-- The last entry has the length of the log as its index. -/
theorem Numbered.last {p es : List Entry} {e : Entry} (h : Numbered (p ++ es)) (he : es.getLast? = some e) :
    e.index = p.length + es.length := by
  obtain ⟨q,rfl⟩ := List.getLast?_eq_some_iff.mp he
  rw [h (p ++ q) e [] (by simp),List.length_append,List.length_append]
  rfl

/-- The last index is the length of the log that is shown. -/
theorem Shows.lastIndex (h : Shows full l) : l.lastIndex = full.length := by
  have := h.marker
  rw [EntryLog.lastIndex,h.entries,List.length_drop]
  omega

/-- From the marker on, terms are those of the log that is shown. -/
theorem Shows.term_eq (h : Shows full l) (hm : l.markerIndex ≤ index) (hl : index ≤ full.length) :
    l.term index = termAt full index := by
  rw [EntryLog.term,h.lastIndex,if_neg (by omega)]
  split_ifs with hi
  · rw [hi,h.term]
  · obtain ⟨k,rfl⟩ : ∃ k, index = k + 1 := ⟨index - 1,by omega⟩
    rw [termAt_succ (by omega),h.entries,List.getElem?_drop,show l.markerIndex + (k + 1 - l.markerIndex - 1) = k by omega,
      List.getElem?_eq_getElem (by omega)]
    rfl

/-- Beyond the log the term is zero. -/
theorem Shows.term_beyond (h : Shows full l) (hl : full.length < index) : l.term index = 0 := by
  rw [EntryLog.term,h.lastIndex,if_pos (.inr hl)]

/-- The last term is that of the log that is shown. -/
theorem Shows.lastTerm (h : Shows full l) : l.lastTerm = lastStamp Entry.term full := by
  rw [EntryLog.lastTerm,h.lastIndex,h.term_eq h.marker (Nat.le_refl _),termAt,List.take_length]

/-- The check of a candidate's last entry compares the two logs. -/
theorem Shows.upToDate {b : List Entry} (h : Shows full l) :
    l.upToDate b.length (lastStamp Entry.term b) = true ↔ UpToDate Entry.term b full := by
  rw [EntryLog.upToDate,h.lastTerm,h.lastIndex,UpToDate]
  split_ifs with h1 h2
  · simp [h2]
  · rw [decide_eq_true_iff]
    omega
  · simp only [false_iff]
    omega

/-- A compacted log shows the same entries. -/
theorem Shows.compact (h : Shows full l) (hm : l.markerIndex ≤ index) (hl : index ≤ full.length) :
    Shows full (l.compact index) where
  marker := hl
  term := h.term_eq hm hl
  entries := by
    change l.entries.drop (index - l.markerIndex) = full.drop index
    rw [h.entries,List.drop_drop]
    congr 1
    omega

/-- What lies from an index on, as far as the size allows, unless it was compacted. -/
theorem Shows.entriesFrom {next maxSize : Nat} (h : Shows full l) (hpos : 1 ≤ next) (hn : next ≤ full.length + 1) :
    next ≤ l.markerIndex ∧ l.entriesFrom next maxSize = none ∨
    l.markerIndex ≤ next - 1 ∧ ∃ es, l.entriesFrom next maxSize = some es ∧ es <+: full.drop (next - 1) := by
  have hm := h.marker
  rw [EntryLog.entriesFrom,h.lastIndex,EntryLog.firstIndex]
  split_ifs with h1 h2
  · exact .inr ⟨by omega,[],rfl,List.nil_prefix⟩
  · exact .inl ⟨by omega,rfl⟩
  · refine .inr ⟨by omega,_,rfl,(limitSize_isPrefix _ _).trans ?_⟩
    rw [h.entries,List.drop_drop,show l.markerIndex + (next - (l.markerIndex + 1)) = next - 1 by omega]

/-- A log restored from a snapshot shows what the snapshot stands for. -/
theorem shows_restore (s : Snapshot) (hs : s.index = full.length) (ht : s.term = termAt full s.index)
    (l : EntryLog) : Shows full (l.restore s) where
  marker := Nat.le_of_eq hs
  term := ht
  entries := by
    change [] = full.drop s.index
    rw [hs,List.drop_length]

end Terms

section Append
variable {full P : List Entry} {l : EntryLog} {prev : Nat}

/-- Terms never go down. -/
def Sorted (full : List Entry) : Prop := full.Pairwise (fun d e => d.term ≤ e.term)

/-- Terms are not changed by what comes behind. -/
theorem termAt_append_left {p r : List Entry} {k : Nat} (hk : k ≤ p.length) : termAt (p ++ r) k = termAt p k := by
  rw [termAt,List.take_append_of_le_length hk,termAt]

/-- Entries put behind the first ones, at least all that are committed. -/
theorem Shows.append {kept : Nat} {e : Entry} (es : List Entry) (h : Shows full l) (hm : l.markerIndex ≤ l.committed)
    (hc : l.committed ≤ kept) (hk : kept ≤ full.length) (hn : e.index = kept + 1)
    (hs : Sorted (full.take kept ++ e :: es)) :
    ∃ es', l.append (e :: es) = some { l with entries := es' } ∧
      Shows (full.take kept ++ e :: es) { l with entries := es' } := by
  have hlen : (full.take kept).length = kept := List.length_take_of_le hk
  have hold : l.entries.take (e.index - l.firstIndex) = (full.take kept).drop l.markerIndex := by
    rw [h.entries,hn,EntryLog.firstIndex,List.drop_take]
    congr 1
    omega
  refine ⟨(full.take kept).drop l.markerIndex ++ e :: es,?_,?_⟩
  · rw [EntryLog.append]
    rw [hold,h.lastIndex,hn,if_neg]
    rintro (hx | hx | hx)
    · omega
    · omega
    · rw [Option.any_eq_true] at hx
      obtain ⟨d,hd,hlt⟩ := hx
      have hle := (List.pairwise_append.mp hs).2.2 d (List.mem_of_mem_drop (List.mem_of_getLast? hd)) e List.mem_cons_self
      exact absurd hle (Nat.not_le.mpr (of_decide_eq_true hlt))
  · refine ⟨?_,?_,?_⟩
    · change l.markerIndex ≤ _
      rw [List.length_append,hlen]
      omega
    · change l.markerTerm = termAt _ l.markerIndex
      rw [termAt_append_left (by omega),h.term,termAt,termAt,List.take_take,Nat.min_eq_left (by omega)]
    · change _ = List.drop l.markerIndex _
      rw [List.drop_append_of_le_length (by omega)]

/-- Entries put behind all. -/
theorem Shows.extend {es : List Entry} (h : Shows full l) (hm : l.markerIndex ≤ l.committed)
    (hc : l.committed ≤ full.length) (hn : Numbered (full ++ es)) (hs : Sorted (full ++ es)) :
    ∃ es', l.append es = some { l with entries := es' } ∧ Shows (full ++ es) { l with entries := es' } := by
  cases es with
  | nil => exact ⟨l.entries,rfl,by rw [List.append_nil]; exact h⟩
  | cons e es =>
    have happ := h.append es hm hc (Nat.le_refl _) (hn full e es rfl) (by rwa [List.take_length])
    rwa [List.take_length] at happ

variable (h : Shows full l) (hm : l.markerIndex ≤ prev) (hn : Numbered P) (hpos : ∀ e ∈ P, 0 < e.term)
  (hmatch : ∀ k ≤ full.length, k ≤ P.length → termAt full k = termAt P k → full.take k = P.take k)
  (hprev : full.take prev = P.take prev)
include h hm hn hpos hmatch hprev

private theorem matched_isPrefix {Q : List Entry} (hq : Q <+: P) (hle : prev ≤ Q.length)
    (hall : ∀ e ∈ Q.drop prev, l.matchTerm e.index e.term = true) : Q <+: full := by
  rcases Nat.eq_or_lt_of_le hle with heq | hlt
  · have : Q = full.take prev := by
      rw [hprev,heq,List.prefix_iff_eq_take.mp hq,List.length_take,Nat.min_eq_left hq.length_le]
    rw [this]
    exact List.take_prefix _ _
  · obtain ⟨q,e,rfl⟩ := (List.eq_nil_or_concat Q).resolve_left (by rintro rfl; exact Nat.not_lt_zero _ hlt)
    rw [List.concat_eq_append] at *
    rw [List.length_append,List.length_singleton] at hlt
    have he := hall e (by rw [List.drop_append_of_le_length (by omega)]; simp)
    have hidx : e.index = q.length + 1 := hn.down hq q e [] rfl
    have hterm : termAt P (q.length + 1) = e.term := by
      obtain ⟨r,rfl⟩ := hq
      rw [termAt_append_left (by simp),termAt,List.take_of_length_le (by simp),lastStamp_concat]
    have hp := hpos e (hq.subset (by simp))
    rw [EntryLog.matchTerm,hidx,beq_iff_eq] at he
    have hin : q.length + 1 ≤ full.length := by
      by_contra hx
      rw [h.term_beyond (by omega)] at he
      omega
    rw [h.term_eq (by omega) hin,← hterm] at he
    have hlenP : q.length + 1 ≤ P.length := by simpa using hq.length_le
    have := hmatch _ hin hlenP he
    rw [List.prefix_iff_eq_take.mp hq,List.length_append,List.length_singleton,← this]
    exact List.take_prefix _ _

/-- Where the entries before match, the log becomes what the sender has, unless it has all
of that already. -/
theorem Shows.tryAppend (hP : prev ≤ P.length) (hs : Sorted P) (hc : l.markerIndex ≤ l.committed)
    (hcp : l.committed ≤ prev) :
    (P <+: full ∧ l.tryAppend prev (P.drop prev) = some l) ∨
    ∃ es, ¬P <+: full ∧ l.tryAppend prev (P.drop prev) = some { l with entries := es } ∧
      Shows P { l with entries := es } := by
  rw [EntryLog.tryAppend,EntryLog.getConflictIndex]
  cases hf : (P.drop prev).find? (fun e => !l.matchTerm e.index e.term) with
  | none =>
    refine .inl ⟨matched_isPrefix h hm hn hpos hmatch hprev (List.prefix_refl P) hP (fun e he => ?_),rfl⟩
    simpa using List.find?_eq_none.mp hf e he
  | some e =>
    obtain ⟨hne,es₁,es₂,hsplit,hall⟩ := List.find?_eq_some_iff_append.mp hf
    have hPeq : P = (P.take prev ++ es₁) ++ e :: es₂ := by
      rw [List.append_assoc,← hsplit,List.take_append_drop]
    have hlenQ : (P.take prev ++ es₁).length = prev + es₁.length := by
      rw [List.length_append,List.length_take_of_le hP]
    have hidx : e.index = prev + es₁.length + 1 := by
      rw [← hlenQ]
      exact hn _ e es₂ hPeq
    have hq : P.take prev ++ es₁ <+: full := by
      refine matched_isPrefix h hm hn hpos hmatch hprev ⟨_,hPeq.symm⟩ (by omega) (fun d hd => ?_)
      rw [List.drop_append_of_le_length (by rw [List.length_take_of_le hP]),List.drop_of_length_le
        (by rw [List.length_take_of_le hP]),List.nil_append] at hd
      simpa using hall d hd
    have htake : full.take (prev + es₁.length) = P.take prev ++ es₁ := by
      rw [← hlenQ]
      exact (List.prefix_iff_eq_take.mp hq).symm
    have hkept : prev + es₁.length ≤ full.length := by
      rw [← hlenQ]
      exact hq.length_le
    obtain ⟨es',happ,hshow⟩ := h.append es₂ hc (show l.committed ≤ prev + es₁.length by omega) hkept hidx
      (by rw [htake,← hPeq]; exact hs)
    rw [htake,← hPeq] at hshow
    refine .inr ⟨es',fun hpre => ?_,?_,hshow⟩
    · -- a log that has all of P matches everywhere
      have hlt : prev + es₁.length < P.length := by
        rw [hPeq,List.length_append,hlenQ]
        simp
      have hterm : l.term e.index = e.term := by
        rw [hidx,h.term_eq (by omega) (Nat.le_trans hlt hpre.length_le)]
        obtain ⟨r,rfl⟩ := hpre
        rw [termAt_append_left (by omega),termAt_succ hlt]
        congr 1
        rw [← Option.some_inj,← List.getElem?_eq_getElem hlt]
        conv_lhs => rw [hPeq]
        rw [← hlenQ,List.getElem?_append_right (Nat.le_refl _),Nat.sub_self]
        rfl
      simp [EntryLog.matchTerm,hterm] at hne
    · have hdrop : (P.drop prev).drop (e.index - prev - 1) = e :: es₂ := by
        rw [hsplit,hidx,show prev + es₁.length + 1 - prev - 1 = es₁.length by omega,List.drop_left]
      change (if e.index ≠ 0 then if e.index ≤ l.committed then none
        else l.append ((P.drop prev).drop (e.index - prev - 1)) else some l) = _
      rw [if_pos (by omega),if_neg (by omega),hdrop]
      exact happ

end Append

end Zuul.Dragonboat
