import HeaderMeta.Path
import HeaderMeta.Text.Blank
import HeaderMeta.Text.CaseFold

/-! Exclusion globs.

A glob excludes a path when it matches some contiguous part of it. Matching keeps, for every place of
the path, whether the parts read so far can end there; each part of the glob updates these marks in
one sweep.
-/

set_option autoImplicit false

namespace HeaderMeta

inductive GlobPart where
  /-- Any run of characters within a line: `**`. -/
  | anyRun
  /-- Any run of characters within a path segment: `*`. -/
  | segmentRun
  /-- One character other than a slash: `?`. -/
  | one
  | literal (c : Char)
  deriving DecidableEq, Repr

namespace Glob

def parts : List Char → List GlobPart
  | [] => []
  | '*' :: '*' :: cs => .anyRun :: parts cs
  | '*' :: cs => .segmentRun :: parts cs
  | '?' :: cs => .one :: parts cs
  | c :: cs => .literal c :: parts cs

def unquote (cs : List Char) : List Char :=
  ((cs.dropWhile (· == '"')).reverse.dropWhile (· == '"')).reverse

/-- The glob without surrounding blanks and then quotes, with forward slashes. -/
def normal (glob : String) : List Char :=
  (unquote (Text.trimChars glob.toList)).map fun c => if c = '\\' then '/' else c

def sweepOne (p : Char → Bool) : (text : List Char) → (marks : List Bool) → List Bool
  | c :: cs, m :: ms => (m && p c) :: sweepOne p cs ms
  | _, _ => []

/-- Spread each mark over any number of characters that satisfy `p`; `carry` comes from the left. -/
def sweepRun (p : Char → Bool) : (carry : Bool) → (text : List Char) → (marks : List Bool) →
    List Bool
  | carry, c :: cs, m :: ms => (m || carry) :: sweepRun p ((m || carry) && p c) cs ms
  | carry, [], m :: _ => [m || carry]
  | _, _, [] => []

def sweep (foldCase : Bool) (text : List Char) (marks : List Bool) : GlobPart → List Bool
  | .anyRun => sweepRun (· != '\n') false text marks
  | .segmentRun => sweepRun (· != '/') false text marks
  | .one => false :: sweepOne (· != '/') text marks
  | .literal c =>
    false :: sweepOne (fun d => if foldCase then Text.sameFolded c d else c == d) text marks

/-- Whether the parts match some contiguous stretch of the text. -/
def occurs (foldCase : Bool) (parts : List GlobPart) (text : List Char) : Bool :=
  (parts.foldl (sweep foldCase text) (List.replicate (text.length + 1) true)).contains true

def excludes (foldCase : Bool) (glob : String) (path : Path) : Bool :=
  occurs foldCase (parts (normal glob)) path.slashed.toList

end Glob

structure GlobSet where
  globs : List String := []
  foldCase : Bool := false
  deriving Repr

namespace GlobSet

def ofList (globs : List String) (foldCase : Bool) : GlobSet :=
  ⟨globs.filter fun g => Text.trim g != "", foldCase⟩

def matching? (s : GlobSet) (path : Path) : Option String :=
  s.globs.find? fun g => Glob.excludes s.foldCase g path

def excludes (s : GlobSet) (path : Path) : Bool :=
  (s.matching? path).isSome

end GlobSet

end HeaderMeta
