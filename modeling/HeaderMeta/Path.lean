import HeaderMeta.Text.Affix

/-! File paths as written, and their components.

A path keeps its text, which is Unicode: a path of other bytes, which a system may know too, is none
here. Two texts name the same path when their components agree: repeated slashes and inner `.` parts
carry no component.
-/

set_option autoImplicit false

namespace HeaderMeta

structure Path where
  text : String
  deriving DecidableEq, Repr, Inhabited

namespace Path

inductive Component where
  | root
  | current
  | parent
  | normal (name : String)
  deriving DecidableEq, Repr, Inhabited

namespace Component

def name : Component → String
  | root => "/"
  | current => "."
  | parent => ".."
  | normal name => name

def rank : Component → Nat
  | root => 0
  | current => 1
  | parent => 2
  | normal _ => 3

/-- Kinds compare first, names by code point. -/
def compare (a b : Component) : Ordering :=
  match a, b with
  | normal x, normal y => Ord.compare x y
  | a, b => Ord.compare a.rank b.rank

def ofPart? (part : String) : Option Component :=
  if part = "" || part = "." then none
  else if part = ".." then some parent
  else some (normal part)

end Component

def pieces (sep : Char) : List Char → List (List Char)
  | [] => [[]]
  | c :: cs =>
    match pieces sep cs with
    | [] => [[c]]
    | part :: parts => if c = sep then [] :: part :: parts else (c :: part) :: parts

/-- The parts between slashes, empty ones included. -/
def parts (p : Path) : List String :=
  (pieces '/' p.text.toList).map String.ofList

def isAbsolute (p : Path) : Bool :=
  Text.startsWith p.text "/"

def hasNull (p : Path) : Bool :=
  p.text.toList.contains '\x00'

/-- The first component, where a leading `.` counts. -/
def front (p : Path) : List Component :=
  if p.isAbsolute then [.root]
  else if p.parts.head? = some "." then [.current]
  else []

def components (p : Path) : List Component :=
  p.front ++ p.parts.filterMap Component.ofPart?

/-- The plainest text with the given components. -/
def ofComponents (cs : List Component) : Path :=
  match cs with
  | .root :: cs => ⟨"/" ++ Text.joinWith "/" (cs.map Component.name)⟩
  | cs => ⟨Text.joinWith "/" (cs.map Component.name)⟩

def same (p q : Path) : Bool :=
  p.components == q.components

def compareComponents : List Component → List Component → Ordering
  | [], [] => .eq
  | [], _ :: _ => .lt
  | _ :: _, [] => .gt
  | a :: as, b :: bs => (a.compare b).then (compareComponents as bs)

def compare (p q : Path) : Ordering :=
  compareComponents p.components q.components

def le (p q : Path) : Bool :=
  p.compare q != .gt

/-- Whether the path lies at or below `dir`, component by component. -/
def isUnder (p dir : Path) : Bool :=
  dir.components.isPrefixOf p.components

/-- `q` as seen from the directory `p`. An absolute `q` stands for itself. -/
def join (p q : Path) : Path :=
  if q.isAbsolute || p.text = "" then q
  else if Text.endsWith p.text "/" then ⟨p.text ++ q.text⟩
  else ⟨p.text ++ "/" ++ q.text⟩

def child (p : Path) (name : String) : Path :=
  p.join ⟨name⟩

def fileName? (p : Path) : Option String :=
  match p.components.getLast? with
  | some (.normal name) => some name
  | _ => none

/-- Split a name at its last dot. A dot at the front does not split. -/
def splitName (name : String) : String × Option String :=
  match (pieces '.' name.toList).reverse with
  | ext :: stem :: stems =>
    if stem.isEmpty && stems.isEmpty then (name, none)
    else
      (Text.joinWith "." ((stem :: stems).reverse.map String.ofList), some (String.ofList ext))
  | _ => (name, none)

def extension? (p : Path) : Option String :=
  p.fileName?.bind fun name => (splitName name).2

/-- Drop trailing parts that carry no component. The first part is kept: it may be a root or `.`. -/
def trimParts : List String → List String
  | [] => []
  | first :: rest =>
    first :: (rest.reverse.dropWhile fun part => part = "" || part = ".").reverse

/-- The text of parts between slashes. A single empty part is the root. -/
def ofParts (parts : List String) : Path :=
  if parts = [""] then ⟨"/"⟩ else ⟨Text.joinWith "/" parts⟩

def trimSlashes (p : Path) : Path :=
  ofParts (p.parts.reverse.dropWhile (· = "")).reverse

/-- Drop the last component, `none` when there is nothing to drop. The rest keeps its text. -/
def parent? (p : Path) : Option Path :=
  match p.components.getLast? with
  | none | some .root => none
  | _ => some (ofParts (trimParts (trimParts p.parts).dropLast))

def reduceStep (kept : List Component) (c : Component) : List Component :=
  match c, kept with
  | .current, kept => kept
  | .parent, .normal _ :: kept => kept
  | c, kept => c :: kept

/-- Components without `.`, and without a `..` that an earlier name cancels. -/
def reduce (cs : List Component) : List Component :=
  (cs.foldl reduceStep []).reverse

def normalize (p : Path) : Path :=
  ofComponents (reduce p.components)

def slashed (p : Path) : String :=
  Text.replaceChar '\\' '/' p.text

/-- Components that lead from the directory `base` to `target`. `started` tells whether the two
have parted already. A `..` of `base` after that point cannot be undone, so there is no answer. -/
def difference : (target base : List Component) → (started : Bool) → Option (List Component)
  | [], base, _ => some (base.map fun _ => .parent)
  | t :: target, [], _ => some (t :: target)
  | t :: target, b :: base, started =>
    if !started && t == b then difference target base false
    else if b = .current then (difference target base true).map (t :: ·)
    else if b = .parent then none
    else some (.parent :: (base.map fun _ => .parent) ++ t :: target)

/-- The path as seen from the directory `base`, or the path itself where there is no such view. -/
def relativeTo (p base : Path) : Path :=
  if p.isAbsolute != base.isAbsolute then p
  else
    match difference p.components base.components false with
    | some cs => ofComponents cs
    | none => p

end Path

end HeaderMeta
