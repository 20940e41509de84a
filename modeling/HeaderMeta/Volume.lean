import HeaderMeta.Path

/-! A file system as a value.

Nodes are kept by location, the names from a node up to the root, so a child's location is its name in
front of the location of its directory. Looking a path up walks its parts from the root or the current
directory and follows links, a bounded number of them.

Names are Unicode text: a name of other bytes has no location here. Whatever is there can be looked up,
read, made and removed. What may fail beside that is listing a directory, as a whole or at one of its
entries, and writing all of a content to a file (`Faults`).
-/

set_option autoImplicit false

namespace HeaderMeta

/-- Where a node is: its name, then the names of the directories around it, innermost first. -/
abbrev Location := List String

inductive Node where
  | dir
  | file (bytes : ByteArray)
  /-- A symbolic link, with its target as written. -/
  | link (target : Path)

namespace Node

def isDir : Node → Bool
  | dir => true
  | _ => false

def isFile : Node → Bool
  | file _ => true
  | _ => false

def same : Node → Node → Bool
  | dir, dir => true
  | file a, file b => a.toList == b.toList
  | link a, link b => a == b
  | _, _ => false

end Node

inductive FileError where
  | notFound
  | alreadyExists
  | notDirectory
  | isDirectory
  /-- A `.` or a link where a directory has to be named. -/
  | invalid
  | nameTooLong
  | tooManyLinks
  /-- A path with a null character, which no name can hold. -/
  | nullInPath
  /-- The bytes of a file are no text. -/
  | notText
  | denied
  | device
  | noSpace
  deriving DecidableEq, Repr

def FileError.message : FileError → String
  | notFound => "No such file or directory (os error 2)"
  | alreadyExists => "File exists (os error 17)"
  | notDirectory => "Not a directory (os error 20)"
  | isDirectory => "Is a directory (os error 21)"
  | invalid => "Invalid argument (os error 22)"
  | nameTooLong => "File name too long (os error 36)"
  | tooManyLinks => "Too many levels of symbolic links (os error 40)"
  | nullInPath => "file name contained an unexpected NUL byte"
  | notText => "stream did not contain valid UTF-8"
  | denied => "Permission denied (os error 13)"
  | device => "Input/output error (os error 5)"
  | noSpace => "No space left on device (os error 28)"

/-- What fails although the nodes are in order. -/
structure Faults where
  /-- Why the directory at a location cannot be listed. -/
  closed : Location → Option FileError := fun _ => none
  /-- Why the listing of the directory around a location fails there. -/
  broken : Location → Option FileError := fun _ => none
  /-- How many bytes of a content a file takes before it takes no more. -/
  room : Location → ByteArray → Option Nat := fun _ _ => none

structure Volume where
  nodes : List (Location × Node) := []
  /-- The current directory. -/
  here : Location := []
  faults : Faults := {}

namespace Volume

def get? (v : Volume) : Location → Option Node
  | [] => some .dir
  | loc => (v.nodes.find? (·.1 = loc)).map (·.2)

def isDirAt (v : Volume) (loc : Location) : Bool :=
  (v.get? loc).any Node.isDir

def maxName : Nat := 255

def maxPath : Nat := 4095

def maxLinks : Nat := 40

/-- What a path leads to. -/
inductive Spot where
  | node (loc : Location)
  /-- Nothing is there, in a directory that exists. `slash` tells that the path ends with one. -/
  | vacant (loc : Location) (slash : Bool)

/-- What a path is looked up for, which decides how its end is taken. -/
inductive Purpose where
  /-- To use what is there: links are followed. -/
  | use
  /-- To change the node itself: a link at the very end is not followed. -/
  | change
  /-- To write a file: links are followed, and a slash after the last name is refused. -/
  | write
  deriving DecidableEq, Repr

def walk (v : Volume) (purpose : Purpose) (links : Nat) (loc : Location) :
    (parts : List String) → Except FileError Spot
  | [] => .ok (.node loc)
  | part :: rest =>
    if !v.isDirAt loc then .error .notDirectory
    else if part = "" || part = "." then walk v purpose links loc rest
    else if part = ".." then walk v purpose links loc.tail rest
    else if purpose = .write && !rest.isEmpty && rest.all (· = "") then .error .isDirectory
    else if part.utf8ByteSize > maxName then .error .nameTooLong
    else
      match v.get? (part :: loc) with
      | none =>
        if rest.all (· = "") then .ok (.vacant (part :: loc) (!rest.isEmpty))
        else .error .notFound
      | some (.link target) =>
        if purpose = .change && rest.isEmpty then .ok (.node (part :: loc))
        else
          match links with
          | 0 => .error .tooManyLinks
          | links + 1 =>
            walk v purpose links (if target.isAbsolute then [] else loc) (target.parts ++ rest)
      | some _ => walk v purpose links (part :: loc) rest
termination_by parts => (links, parts.length)

def spot (v : Volume) (purpose : Purpose) (p : Path) : Except FileError Spot :=
  if p.hasNull then .error .nullInPath
  else if p.text = "" then .error .notFound
  else if p.text.utf8ByteSize > maxPath then .error .nameTooLong
  else walk v purpose maxLinks (if p.isAbsolute then [] else v.here) p.parts

def locate (v : Volume) (p : Path) : Except FileError Location :=
  match v.spot .use p with
  | .ok (.node loc) => .ok loc
  | .ok (.vacant _ _) => .error .notFound
  | .error e => .error e

def node? (v : Volume) (p : Path) : Option Node :=
  (v.locate p).toOption.bind v.get?

def isDir (v : Volume) (p : Path) : Bool :=
  (v.node? p).any Node.isDir

def isFile (v : Volume) (p : Path) : Bool :=
  (v.node? p).any Node.isFile

def read (v : Volume) (p : Path) : Except FileError ByteArray := do
  match v.get? (← v.locate p) with
  | some (.file bytes) => .ok bytes
  | some .dir => .error .isDirectory
  | _ => .error .notFound

def readText (v : Volume) (p : Path) : Except FileError String := do
  match String.fromUTF8? (← v.read p) with
  | some text => .ok text
  | none => .error .notText

def childName? (dir : Location) : Location → Option String
  | name :: loc => if loc = dir then some name else none
  | [] => none

def namesAt (v : Volume) (dir : Location) : List String :=
  v.nodes.filterMap fun n => childName? dir n.1

/-- Paths of what lies directly in a directory; there are none in anything else. -/
def entries (v : Volume) (p : Path) : List Path :=
  if v.isDir p then
    match v.locate p with
    | .ok loc => (v.namesAt loc).map p.child
    | .error _ => []
  else []

def list (v : Volume) (p : Path) : Except FileError (List (Except FileError Path)) := do
  let loc ← v.locate p
  if !v.isDirAt loc then .error .notDirectory
  else
    match v.faults.closed loc with
    | some e => .error e
    | none =>
      .ok ((v.namesAt loc).map fun name =>
        match v.faults.broken (name :: loc) with
        | some e => .error e
        | none => .ok (p.child name))

def pathOf (loc : Location) : Path :=
  ⟨"/" ++ Text.joinWith "/" loc.reverse⟩

def canonical? (v : Volume) (p : Path) : Option Path :=
  (v.locate p).toOption.map pathOf

/-- More than the number of steps from the root, or from any link, down to a node. -/
def depthBound (v : Volume) : Nat :=
  (maxLinks + 1) * (v.nodes.length + 1)

end Volume

end HeaderMeta
