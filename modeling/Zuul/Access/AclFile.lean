import Zuul.Access.Policy
import Zuul.Auth.Gate

/-! The ACL file: a scan of its lines into prefix rules. -/
namespace Zuul.Access
open Lib Fsm
open Auth (spaces trimSpace Keypath.hasPrefix Keypath.owner Keypath.validate Keypath.slash)

section Text

def newline : UInt8 := 10

/-- The lines of a text without their line feeds. A text that ends in one has no line
after it. -/
def rawLines (text : Str) : List Str :=
  let parts := text.splitOn newline
  if parts.getLast? = some [] then parts.dropLast else parts

/-- The buffer of the scanner; a line must be shorter. -/
def maxScanTokenSize : Nat := 65536

def dropCR (line : Str) : Str := if line.getLast? = some 13 then line.dropLast else line

/-- The length of the white space rune a string begins with. -/
def spaceWidth (s : Str) : Option Nat := (spaces.find? (·.isPrefixOf s)).map List.length

/-- A field that has ended; there is none between two spaces. -/
def emitField (field : Str) : List Str := if field = [] then [] else [field]

/-- The fields from here on, with the bytes of the current one, skipping what is left
of a space. A rune that is not a space never contains one, so the others go byte by byte. -/
def fieldsFrom : Nat → Str → Str → List Str
  | _, field, [] => emitField field
  | skip + 1, field, _ :: s => fieldsFrom skip field s
  | 0, field, b :: s =>
    match spaceWidth (b :: s) with
    | some width => emitField field ++ fieldsFrom (width - 1) [] s
    | none => fieldsFrom 0 (field ++ [b]) s

def fields (s : Str) : List Str := fieldsFrom 0 [] s

example : fields (str " bob\t/a/  rw ") = [str "bob",str "/a/",str "rw"] := by decide

end Text

/-- Why a line is not accepted. -/
inductive LineError where
  | fields (text : Str)
  | modeStart (mode : Str)
  | unknownRight (mode : Str)
  deriving DecidableEq, Repr

inductive FileError where
  | «open»
  | line (path : Str) (line : Nat) (why : LineError)
  | tokenTooLong
  deriving DecidableEq, Repr

/-- The rights after the first letter. A letter may be repeated. -/
def parseRights (mode : Str) : Str → Rule → Except LineError Rule
  | [], r => .ok r
  | c :: cs, r =>
    if c = 119 then parseRights mode cs { r with write := true }
    else if c = 97 then parseRights mode cs { r with admin := true }
    else .error (.unknownRight mode)

def parseMode (mode : Str) : Except LineError Rule :=
  if mode.head? ≠ some 114 then .error (.modeStart mode) else parseRights mode mode.tail {}

/-- One line: nothing for a blank line and a comment, else an identity and its rule. -/
def parseLine (line : Str) : Except LineError (Option (Str × Rule)) :=
  let text := trimSpace line
  if text = [] ∨ text.head? = some 35 then .ok none
  else
    match fields text with
    | [id,pre,mode] => (parseMode mode).map (fun rule => some (id,{ rule with pre := if pre = str "*" then [] else pre }))
    | _ => .error (.fields text)

/-- The loop of LoadFile, from the line with this number on. -/
def scanFile (path : Str) : Nat → List Str → Rules → Except FileError Rules
  | _, [], rules => .ok rules
  | n, raw :: rest, rules =>
    if maxScanTokenSize ≤ raw.length then .error .tokenTooLong
    else
      match parseLine (dropCR raw) with
      | .error why => .error (.line path n why)
      | .ok none => scanFile path (n + 1) rest rules
      | .ok (some (id,rule)) => scanFile path (n + 1) rest (rules.push id rule)

/-- A file that cannot be opened has no text. -/
def loadFile (path : Str) (file : Option Str) : Except FileError Authorizer :=
  match file with
  | none => .error .open
  | some text => (scanFile path 1 (rawLines text) ∅).map (fun rules => homeDir (prefixPolicy rules))

/-- The lines as the scanner returns them. -/
def scanLines (text : Str) : List Str := (rawLines text).map dropCR

/-- A line that is neither blank nor a comment. -/
def IsEntry (line : Str) : Prop := trimSpace line ≠ [] ∧ (trimSpace line).head? ≠ some 35

/-- The line 'identity prefix mode'. -/
structure Names (line id pre mode : Str) : Prop where
  entry : IsEntry line
  fields : fields (trimSpace line) = [id,pre,mode]

/-- The letter r and then letters w and a in any number. -/
def ModeForm (mode : Str) : Prop := ∃ rights, mode = 114 :: rights ∧ ∀ c ∈ rights, c = 119 ∨ c = 97

/-- A line that is no entry, or one of three fields with a mode. -/
def LineForm (line : Str) : Prop := IsEntry line → ∃ id pre mode, Names line id pre mode ∧ ModeForm mode

def ModeGrants (mode : Str) : Op → Prop
  | .read => True
  | .write => 119 ∈ mode
  | .admin => 97 ∈ mode
  | .unknown => False

/-- The key is under the prefix field, where a star stands for all keys. -/
def FieldCovers (pre key : Str) : Prop := pre = str "*" ∨ Keypath.hasPrefix pre key = true

/-- What a text is to permit: the home directory, and the union of its lines. -/
def Permits (text identity key : Str) (op : Op) : Prop :=
  (identity ≠ [] ∧ (op = .read ∨ op = .write) ∧ Keypath.validate key = .ok () ∧
    Keypath.slash ∉ identity ∧ ∃ rest, key = Keypath.slash :: (identity ++ Keypath.slash :: rest)) ∨
  ∃ line ∈ scanLines text, ∃ pre mode, Names line identity pre mode ∧ FieldCovers pre key ∧ ModeGrants mode op

section Lines
variable {line id pre mode : Str} {rule r : Rule}

private theorem parseRights_ok_iff (rights : Str) : parseRights mode rights r = .ok rule ↔
    (∀ c ∈ rights, c = 119 ∨ c = 97) ∧
      rule = { r with write := r.write || decide (119 ∈ rights), admin := r.admin || decide (97 ∈ rights) } := by
  induction rights generalizing r with
  | nil => simp [parseRights,eq_comm]
  | cons c cs ih =>
    rw [parseRights]
    split_ifs with hw ha
    · subst hw
      simp [ih]
    · subst ha
      simp [ih]
    · simp [hw,ha]

/-- The rule of a mode, and which modes have one. -/
theorem parseMode_ok_iff : parseMode mode = .ok rule ↔
    ModeForm mode ∧ rule = { write := decide (119 ∈ mode), admin := decide (97 ∈ mode) } := by
  rw [parseMode]
  cases mode with
  | nil => simp [ModeForm]
  | cons c rights =>
    by_cases hc : c = 114
    · subst hc
      simp [parseRights_ok_iff,ModeForm]
    · simp [hc,ModeForm]

private theorem grants_iff (op : Op) (pre : Str) :
    ({ pre := pre, write := decide (119 ∈ mode), admin := decide (97 ∈ mode) } : Rule).grants op = true ↔
      ModeGrants mode op := by
  cases op <;> simp [Rule.grants,ModeGrants]

private theorem parseLine_idle (h : ¬ IsEntry line) : parseLine line = .ok none := by
  rw [IsEntry,not_and_or,not_not,not_not] at h
  rw [parseLine,if_pos h]

private theorem parseLine_entry (h : Names line id pre mode) : parseLine line =
    (parseMode mode).map (fun rule => some (id,{ rule with pre := if pre = str "*" then [] else pre })) := by
  rw [parseLine,if_neg (not_or.mpr h.entry),h.fields]

/-- A line that yields a rule names its identity, its prefix and its mode. -/
theorem parseLine_rule_iff : parseLine line = .ok (some (id,r)) ↔ ∃ pre mode, Names line id pre mode ∧ ModeForm mode ∧
    r = { pre := if pre = str "*" then [] else pre, write := decide (119 ∈ mode), admin := decide (97 ∈ mode) } := by
  constructor
  · intro h
    by_cases he : IsEntry line
    · rw [parseLine,if_neg (not_or.mpr he)] at h
      split at h
      · rename_i i pre mode hf
        cases hm : parseMode mode with
        | error e => rw [hm] at h; cases h
        | ok rule =>
          rw [hm] at h
          cases h
          obtain ⟨hform,rfl⟩ := parseMode_ok_iff.mp hm
          exact ⟨pre,mode,⟨he,hf⟩,hform,rfl⟩
      · cases h
    · rw [parseLine_idle he] at h
      cases h
  · rintro ⟨pre,mode,hn,hform,rfl⟩
    rw [parseLine_entry hn,parseMode_ok_iff.mpr ⟨hform,rfl⟩]
    rfl

/-- The accepted lines. -/
theorem parseLine_ok_iff : (∃ x, parseLine line = .ok x) ↔ LineForm line := by
  constructor
  · rintro ⟨x,hx⟩ he
    cases x with
    | none =>
      rw [parseLine,if_neg (not_or.mpr he)] at hx
      split at hx
      · rename_i i pre mode hf
        cases hm : parseMode mode with
        | error e => rw [hm] at hx; cases hx
        | ok rule => rw [hm] at hx; cases hx
      · cases hx
    | some x =>
      obtain ⟨pre,mode,hn,hform,_⟩ := parseLine_rule_iff.mp hx
      exact ⟨x.1,pre,mode,hn,hform⟩
  · intro h
    by_cases he : IsEntry line
    · obtain ⟨id,pre,mode,hn,hform⟩ := h he
      exact ⟨_,parseLine_rule_iff.mpr ⟨pre,mode,hn,hform,rfl⟩⟩
    · exact ⟨none,parseLine_idle he⟩

end Lines

section Scan
variable {path : Str} {raws : List Str} {rules rules' : Rules} {n : Nat}

/-- The scan succeeds exactly on lines that fit the buffer and have the form. -/
theorem scanFile_ok_iff : (∃ rules', scanFile path n raws rules = .ok rules') ↔
    ∀ raw ∈ raws, raw.length < maxScanTokenSize ∧ LineForm (dropCR raw) := by
  induction raws generalizing n rules with
  | nil => simp [scanFile]
  | cons raw rest ih =>
    rw [scanFile,List.forall_mem_cons,← parseLine_ok_iff]
    split_ifs with hlen
    · simp [Nat.not_lt.mpr hlen]
    · rw [Nat.not_le] at hlen
      split
      · rename_i why hp
        simp [hp]
      · rename_i hp
        simp only [ih,hp,hlen,true_and,Except.ok.injEq,exists_eq',true_and]
      · rename_i id rule hp
        simp only [ih,hp,hlen,true_and,Except.ok.injEq,exists_eq',true_and]

/-- The rules of an identity are those of the lines that name it, after the old ones. -/
theorem scanFile_rules (h : scanFile path n raws rules = .ok rules') (id : Str) (r : Rule) :
    r ∈ (rules'.lookup id).getD [] ↔
      r ∈ (rules.lookup id).getD [] ∨ ∃ raw ∈ raws, parseLine (dropCR raw) = .ok (some (id,r)) := by
  induction raws generalizing n rules with
  | nil =>
    cases h
    simp
  | cons raw rest ih =>
    rw [scanFile] at h
    split_ifs at h with hlen
    split at h
    · cases h
    · rename_i hp
      rw [ih h,List.exists_mem_cons_iff,hp]
      simp
    · rename_i i rule hp
      rw [ih h,KeyedMap.lookup_push,List.exists_mem_cons_iff,hp,List.mem_append,or_assoc]
      by_cases hi : id = i
      · subst hi
        simp [eq_comm]
      · simp [hi,Ne.symm hi]

end Scan

section Whole
variable {path text text' identity key : Str} {op : Op} {auth auth' : Authorizer}

private theorem loadFile_ok (h : loadFile path (some text) = .ok auth) :
    ∃ rules, scanFile path 1 (rawLines text) ∅ = .ok rules ∧ auth = homeDir (prefixPolicy rules) := by
  rw [loadFile] at h
  cases hs : scanFile path 1 (rawLines text) ∅ with
  | error e => rw [hs] at h; cases h
  | ok rules => rw [hs] at h; cases h; exact ⟨rules,rfl,rfl⟩

/-- A file is accepted exactly if all its lines are. -/
theorem loadFile_ok_iff : (∃ auth, loadFile path (some text) = .ok auth) ↔
    ∀ raw ∈ rawLines text, raw.length < maxScanTokenSize ∧ LineForm (dropCR raw) := by
  rw [← @scanFile_ok_iff path (rawLines text) ∅ 1]
  constructor
  · rintro ⟨auth,h⟩
    obtain ⟨rules,hs,_⟩ := loadFile_ok h
    exact ⟨rules,hs⟩
  · rintro ⟨rules,hs⟩
    exact ⟨_,by rw [loadFile,hs]; rfl⟩

private theorem covers_iff (pre key : Str) :
    Keypath.hasPrefix (if pre = str "*" then [] else pre) key = true ↔ FieldCovers pre key := by
  rw [FieldCovers]
  split_ifs with h
  · exact iff_of_true (Auth.Keypath.hasPrefix_iff.mpr (.inl rfl)) (.inl h)
  · rw [or_iff_right h]

/-- The loaded authorizer decides by the home directory and the lines. -/
theorem loadFile_permits (h : loadFile path (some text) = .ok auth) :
    auth identity key op = true ↔ Permits text identity key op := by
  have hform := loadFile_ok_iff.mp ⟨auth,h⟩
  obtain ⟨rules,hs,rfl⟩ := loadFile_ok h
  rw [homeDir_iff,Auth.Keypath.owner_eq_ok_iff,prefixPolicy_iff,Permits]
  refine or_congr_right ?_
  constructor
  · rintro ⟨r,hr,hc,hg⟩
    rw [scanFile_rules hs] at hr
    obtain ⟨raw,hm,hp⟩ := hr.resolve_left (fun hr => by cases hr)
    obtain ⟨pre,mode,hn,_,rfl⟩ := parseLine_rule_iff.mp hp
    exact ⟨_,List.mem_map_of_mem hm,pre,mode,hn,(covers_iff pre key).mp hc,(grants_iff op _).mp hg⟩
  · rintro ⟨line,hl,pre,mode,hn,hc,hg⟩
    obtain ⟨raw,hm,rfl⟩ := List.mem_map.mp hl
    obtain ⟨id',pre',mode',hn',hmode⟩ := (hform raw hm).2 hn.entry
    cases hn.fields.symm.trans hn'.fields
    refine ⟨_,(scanFile_rules hs identity _).mpr (.inr ⟨raw,hm,parseLine_rule_iff.mpr ⟨pre,mode,hn,hmode,rfl⟩⟩),?_⟩
    exact ⟨(covers_iff pre key).mpr hc,(grants_iff op _).mpr hg⟩

/-- More lines permit more. -/
theorem permits_mono (h : rawLines text ⊆ rawLines text') (hp : Permits text identity key op) :
    Permits text' identity key op := by
  refine hp.imp_right ?_
  rintro ⟨line,hl,hn⟩
  exact ⟨line,List.map_subset _ h hl,hn⟩

private theorem blank_line : dropCR [] = [] ∧ ¬ IsEntry [] := ⟨rfl,fun h => h.1 rfl⟩

/-- Two texts with a line feed between have the lines of both, and a blank one at most. -/
theorem rawLines_append (text text' : Str) :
    rawLines (text ++ newline :: text') = text.splitOn newline ++ rawLines text' := by
  have hs : (text ++ newline :: text').splitOn newline = text.splitOn newline ++ text'.splitOn newline :=
    List.splitOnP_append_cons text text' (beq_self_eq_true newline)
  have hne : text'.splitOn newline ≠ [] := List.splitOnP_ne_nil _ _
  simp only [rawLines,hs,List.getLast?_append_of_ne_nil _ hne]
  split_ifs
  · exact List.dropLast_append_of_ne_nil hne
  · rfl

private theorem mem_parts_iff {raw : Str} (hr : raw ≠ []) : raw ∈ text.splitOn newline ↔ raw ∈ rawLines text := by
  simp only [rawLines]
  split_ifs with hl
  · have hd := List.dropLast_append_getLast? _ hl
    constructor
    · intro hm
      rw [← hd] at hm
      exact (List.mem_append.mp hm).resolve_right (fun he => hr (List.mem_singleton.mp he))
    · exact List.mem_of_mem_dropLast
  · rfl

private theorem mem_rawLines_append {raw : Str} (hr : raw ≠ []) :
    raw ∈ rawLines (text ++ newline :: text') ↔ raw ∈ rawLines text ∨ raw ∈ rawLines text' := by
  rw [rawLines_append,List.mem_append,mem_parts_iff hr]

private theorem entry_nonempty {raw : Str} (h : IsEntry (dropCR raw)) : raw ≠ [] := by
  rintro rfl
  rw [blank_line.1] at h
  exact blank_line.2 h

private theorem permits_append : Permits (text ++ newline :: text') identity key op ↔
    Permits text identity key op ∨ Permits text' identity key op := by
  constructor
  · rintro (hh | ⟨line,hl,pre,mode,hn,hc⟩)
    · exact .inl (.inl hh)
    · obtain ⟨raw,hm,rfl⟩ := List.mem_map.mp hl
      rcases (mem_rawLines_append (entry_nonempty hn.entry)).mp hm with hm | hm
      · exact .inl (.inr ⟨_,List.mem_map_of_mem hm,pre,mode,hn,hc⟩)
      · exact .inr (.inr ⟨_,List.mem_map_of_mem hm,pre,mode,hn,hc⟩)
  · have back : ∀ t, (∀ raw, raw ≠ [] → raw ∈ rawLines t → raw ∈ rawLines (text ++ newline :: text')) →
        Permits t identity key op → Permits (text ++ newline :: text') identity key op := by
      rintro t ht (hh | ⟨line,hl,pre,mode,hn,hc⟩)
      · exact .inl hh
      · obtain ⟨raw,hm,rfl⟩ := List.mem_map.mp hl
        exact .inr ⟨_,List.mem_map_of_mem (ht raw (entry_nonempty hn.entry) hm),pre,mode,hn,hc⟩
    rintro (hp | hp)
    · exact back text (fun raw hr hm => (mem_rawLines_append hr).mpr (.inl hm)) hp
    · exact back text' (fun raw hr hm => (mem_rawLines_append hr).mpr (.inr hm)) hp

private theorem append_accepted (h : loadFile path (some text) = .ok auth)
    (h' : loadFile path (some text') = .ok auth') : ∃ both, loadFile path (some (text ++ newline :: text')) = .ok both := by
  rw [loadFile_ok_iff]
  intro raw hm
  by_cases hr : raw = []
  · rw [hr,blank_line.1]
    exact ⟨by decide,fun he => (blank_line.2 he).elim⟩
  · rcases (mem_rawLines_append hr).mp hm with hm | hm
    · exact loadFile_ok_iff.mp ⟨auth,h⟩ raw hm
    · exact loadFile_ok_iff.mp ⟨auth',h'⟩ raw hm

/-- An ACL file denotes the union of its lines. An accepted text permits what its
lines say; reordering its lines changes nothing, putting another accepted text behind
it gives what either permits, and a text with more lines permits no less. A malformed
line is an error, and then there is no policy. -/
theorem aclFile_denotes_union (path text : Str) :
    (∀ auth, loadFile path (some text) = .ok auth →
      (∀ identity key op, auth identity key op = true ↔ Permits text identity key op) ∧
      (∀ text', (rawLines text').Perm (rawLines text) → loadFile path (some text') = .ok auth) ∧
      ∀ text' auth', loadFile path (some text') = .ok auth' →
        (∃ both, loadFile path (some (text ++ newline :: text')) = .ok both ∧
          ∀ identity key op, both identity key op = true ↔
            auth identity key op = true ∨ auth' identity key op = true) ∧
        (rawLines text ⊆ rawLines text' → ∀ identity key op, auth identity key op = true →
          auth' identity key op = true)) ∧
    ((∃ line ∈ scanLines text, ¬ LineForm line) → ∃ e, loadFile path (some text) = .error e) := by
  refine ⟨fun auth h => ⟨fun _ _ _ => loadFile_permits h,?_,fun text' auth' h' => ⟨?_,?_⟩⟩,?_⟩
  · intro text' hp
    obtain ⟨auth',h'⟩ : ∃ auth', loadFile path (some text') = .ok auth' :=
      loadFile_ok_iff.mpr (fun raw hm => loadFile_ok_iff.mp ⟨auth,h⟩ raw (hp.mem_iff.mp hm))
    have he : auth' = auth := by
      funext identity key op
      rw [Bool.eq_iff_iff,loadFile_permits h,loadFile_permits h']
      exact ⟨permits_mono hp.subset,permits_mono hp.symm.subset⟩
    rw [← he]
    exact h'
  · obtain ⟨both,hb⟩ := append_accepted h h'
    refine ⟨both,hb,fun identity key op => ?_⟩
    rw [loadFile_permits hb,loadFile_permits h,loadFile_permits h']
    exact permits_append
  · intro hsub identity key op ha
    rw [loadFile_permits h']
    exact permits_mono hsub ((loadFile_permits h).mp ha)
  · rintro ⟨line,hl,hbad⟩
    obtain ⟨raw,hm,rfl⟩ := List.mem_map.mp hl
    cases hload : loadFile path (some text) with
    | error e => exact ⟨e,rfl⟩
    | ok auth => exact (hbad (loadFile_ok_iff.mp ⟨auth,hload⟩ raw hm).2).elim

end Whole

/-- A read-only line before a read-write one for the same keys. -/
theorem aclFile_two_lines :
    let text := str "bob /a/ r" ++ newline :: str "bob /a/ rw"
    ∃ auth, loadFile (str "acl") (some text) = .ok auth ∧ auth (str "bob") (str "/a/x") .write = true ∧
      Permits text (str "bob") (str "/a/x") .write := by
  intro text
  have hl : ∃ auth, loadFile (str "acl") (some text) = .ok auth ∧ auth (str "bob") (str "/a/x") .write = true :=
    ⟨_,rfl,by decide⟩
  obtain ⟨auth,h,ha⟩ := hl
  exact ⟨auth,h,ha,(((aclFile_denotes_union (str "acl") text).1 auth h).1 _ _ _).mp ha⟩

end Zuul.Access
