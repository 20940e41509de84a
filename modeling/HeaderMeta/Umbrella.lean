import HeaderMeta.Artifact
import HeaderMeta.Log.Event
import HeaderMeta.SourceModule
import HeaderMeta.Volume.Edit

/-! The two umbrella files of a module, which include all its generated and hand-written files.

Both start with a seed; each recorded file adds one include line to the header or the implementation.
-/

set_option autoImplicit false

namespace HeaderMeta

def umbrellaHeader : String := "autogen.hpp"

inductive OutputError where
  /-- The directory could not be made or cleared. -/
  | prepare (path : Path) (cause : FileError)
  /-- The hand-written files could not be listed. -/
  | override (path : Path) (cause : FileError)
  /-- An umbrella file could not be written. -/
  | umbrella (path : Path) (cause : FileError)
  deriving DecidableEq, Repr

def OutputError.message : OutputError → String
  | prepare path cause =>
    "Failed to prepare output directory " ++ path.text ++ ": " ++ cause.message
  | override path cause =>
    "Failed to read override directory " ++ path.text ++ ": " ++ cause.message
  | umbrella path cause => "Failed to write umbrella file " ++ path.text ++ ": " ++ cause.message

structure Umbrella where
  moduleName : String
  outputDir : Path
  overrideDir : Path
  platformInclude : String
  implMode : ImplMode
  /-- What the header includes after its seed, as seen from the output directory. -/
  headers : List String := []
  /-- What the implementation includes after its seed. -/
  impls : List String := []
  /-- How many artifacts were recorded. -/
  recorded : Nat := 0

namespace Umbrella

def ofModule (m : SourceModule) (config : Config) : Umbrella where
  moduleName := m.name
  outputDir := m.outputDir.normalize
  overrideDir := m.overrideDir.normalize
  platformInclude := config.emit.platformInclude
  implMode := config.output.implMode

def headerPath (u : Umbrella) : Path :=
  u.outputDir.child umbrellaHeader

def implPath (u : Umbrella) : Path :=
  u.outputDir.child u.implMode.umbrellaName

def includeLine (target : String) : String :=
  "#include \"" ++ target ++ "\"\n"

/-- The header includes the platform first and chains to the next umbrella on the search path. -/
def headerSeed (platformInclude : String) : String :=
  let chained := outputDirName ++ "/" ++ umbrellaHeader
  "#pragma once\n#include <" ++ platformInclude ++ ">\n#if __has_include_next(<" ++ chained ++
    ">)\n#include_next <" ++ chained ++ ">\n#endif\n"

def implSeed : String :=
  includeLine umbrellaHeader

def headerText (u : Umbrella) : String :=
  headerSeed u.platformInclude ++ String.join (u.headers.map includeLine)

def implText (u : Umbrella) : String :=
  implSeed ++ String.join (u.impls.map includeLine)

def placeholder (u : Umbrella) (fileName : String) : String :=
  "#pragma once\n#error \"" ++ fileName ++ " of module '" ++ u.moduleName ++
    "' is being regenerated\"\n"

def isStale (v : Volume) (p : Path) : Bool :=
  (p.fileName?.any fun name => Text.startsWith name artifactLead) && v.isFile p

/-- Remove the files of an earlier run among the entries of the output directory. Returns how many
there were. -/
def clear (u : Umbrella) (v : Volume) :
    List (Except FileError Path) → Volume × Except OutputError Nat
  | [] => (v, .ok 0)
  | .error e :: _ => (v, .error (.prepare u.outputDir e))
  | .ok p :: rest =>
    if isStale v p then
      match v.unlink p with
      | .error e => (v, .error (.prepare p e))
      | .ok v =>
        let (v, removed) := clear u v rest
        (v, removed.map (· + 1))
    else clear u v rest

def put (v : Volume) (path : Path) (text : String) : Volume × Option OutputError :=
  match v.writeText path text with
  | (v, .ok ()) => (v, none)
  | (v, .error e) => (v, some (.umbrella path e))

def putBoth (u : Umbrella) (v : Volume) (header impl : String) : Volume × Option OutputError :=
  match put v u.headerPath header with
  | (v, none) => put v u.implPath impl
  | failed => failed

/-- Make the output directory, clear it of earlier output and put placeholders for the umbrella
files. Returns how many files were removed. -/
def prepare (u : Umbrella) (v : Volume) : Volume × Except OutputError Nat × Log :=
  match v.makeDirs u.outputDir with
  | (v, .error e) => (v, .error (.prepare u.outputDir e), [])
  | (v, .ok ()) =>
    match v.list u.outputDir with
    | .error e => (v, .error (.prepare u.outputDir e), [])
    | .ok entries =>
      match u.clear v entries with
      | (v, .error e) => (v, .error e, [])
      | (v, .ok removed) =>
        let log : Log := [.debug ("Removed " ++ toString removed ++ " stale file(s) from " ++
          u.outputDir.text)]
        match u.putBoth v (u.placeholder umbrellaHeader) (u.placeholder u.implMode.umbrellaName) with
        | (v, some e) => (v, .error e, log)
        | (v, none) => (v, .ok removed, log)

def collect (v : Volume) :
    (depth : Nat) → (dir : Path) → List (Except FileError Path) → Except OutputError (List Path)
  | _, _, [] => .ok []
  | _, dir, .error e :: _ => .error (.override dir e)
  | depth, dir, .ok p :: rest => do
    let files ←
      if v.isDir p then
        match depth with
        | 0 => .ok []
        | depth + 1 =>
          match v.list p with
          | .error e => .error (.override p e)
          | .ok entries => collect v depth p entries
      else .ok [p]
    let more ← collect v depth dir rest
    .ok (files ++ more)

def collected (u : Umbrella) (v : Volume) : Except OutputError (List Path) :=
  if !v.isDir u.overrideDir then .ok []
  else
    match v.list u.overrideDir with
    | .error e => .error (.override u.overrideDir e)
    | .ok entries => (collect v v.depthBound u.overrideDir entries).map (·.mergeSort Path.le)

def overrideSide? (p : Path) : Option Bool :=
  let ext := Text.asciiLower (p.extension?.getD "")
  if ["h", "hh", "hpp", "hxx"].contains ext then some true
  else if ["inl", "cpp", "cc", "cxx"].contains ext then some false
  else none

def add (u : Umbrella) (toHeader : Bool) (p : Path) : Umbrella :=
  let target := relativeInclude p u.outputDir
  if toHeader then { u with headers := u.headers ++ [target] }
  else { u with impls := u.impls ++ [target] }

def addOverride (u : Umbrella) (p : Path) : Umbrella :=
  match overrideSide? p with
  | some toHeader => u.add toHeader p
  | none => u

def mergeOverrides (u : Umbrella) (v : Volume) : Umbrella × Except OutputError Nat × Log :=
  match u.collected v with
  | .error e => (u, .error e, [])
  | .ok files =>
    let merged := files.countP fun p => (overrideSide? p).isSome
    let ignored : Log := (files.filter fun p => (overrideSide? p).isNone).map fun p =>
      .debug ("Ignoring override file " ++ p.text)
    let done : Log :=
      if merged = 0 then []
      else [.info ("Merged " ++ toString merged ++ " override file(s) for module '" ++ u.moduleName ++
        "'")]
    (files.foldl addOverride u, .ok merged, ignored ++ done)

def record (u : Umbrella) (a : Artifact) : Umbrella :=
  { u.add a.kind.isHeader a.path with recorded := u.recorded + 1 }

def finalize (u : Umbrella) (v : Volume) : Volume × Option OutputError × Log :=
  match u.putBoth v u.headerText u.implText with
  | (v, some e) => (v, some e, [])
  | (v, none) =>
    (v, none,
      if u.recorded = 0 then [.warn ("Module '" ++ u.moduleName ++ "' produced no artifacts")]
      else [])

end Umbrella

end HeaderMeta
