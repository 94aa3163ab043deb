import Zuul.Fsm.Message
import Zuul.Lib.Utf8

/-! Resource paths: what a key has to look like and when it falls under a prefix. -/
namespace Zuul.Auth.Keypath
open Fsm (Str str)

/-- The byte of the path separator. -/
def slash : UInt8 := 47

def maxSegmentLen : Nat := 255
def maxPathLen : Nat := 1024

/-- Why a segment is not allowed. -/
inductive SegmentError where
  | empty
  | dots (seg : Str)
  | tooLong
  | invalid (seg : Str) (r : Nat)
  deriving DecidableEq, Repr

/-- Why a key is not a canonical path. -/
inductive KeyError where
  | empty
  | tooLong
  | noLeadingSlash (key : Str)
  | trailingSlash (key : Str)
  | oneSegment (key : Str)
  | segment (key : Str) (why : SegmentError)
  deriving DecidableEq, Repr

/-- Letters, digits and four marks. -/
def isSegmentRune (r : Nat) : Bool :=
  (97 ≤ r && r ≤ 122) || (65 ≤ r && r ≤ 90) || (48 ≤ r && r ≤ 57) || r == 46 || r == 95 || r == 64 || r == 45

def validateSegment (s : Str) : Except SegmentError Unit :=
  if s = [] then .error .empty
  else if s = str "." ∨ s = str ".." then .error (.dots s)
  else if s.length > maxSegmentLen then .error .tooLong
  else
    match (Lib.Utf8.runes s).find? (!isSegmentRune ·) with
    | some r => .error (.invalid s r)
    | none => .ok ()

/-- The first bad segment is reported. -/
def validateSegments (key : Str) (segs : List Str) : Except KeyError Unit :=
  segs.forM (fun s => (validateSegment s).mapError (KeyError.segment key))

def validate (key : Str) : Except KeyError Unit :=
  if key = [] then .error .empty
  else if key.length > maxPathLen then .error .tooLong
  else if key.head? ≠ some slash then .error (.noLeadingSlash key)
  else if key.getLast? = some slash then .error (.trailingSlash key)
  else
    let segs := key.tail.splitOn slash
    if segs.length < 2 then .error (.oneSegment key)
    else validateSegments key segs

/-- Drop one trailing separator. -/
def trimSlash (s : Str) : Str := if s.getLast? = some slash then s.dropLast else s

/-- Whether the key falls under the prefix on a path boundary; the empty prefix
covers every key. -/
def hasPrefix (pre key : Str) : Bool :=
  if pre = [] then true
  else key == trimSlash pre || (trimSlash pre ++ [slash]).isPrefixOf key

/-- The first segment of a canonical path. -/
def owner (key : Str) : Except KeyError Str := (validate key).map (fun _ => key.tail.takeWhile (· ≠ slash))

example : hasPrefix (str "/a/configs/") (str "/a/configs/x") = true ∧
    hasPrefix (str "/a/configs") (str "/a/configs-secret") = false := by decide

end Zuul.Auth.Keypath
