import HeaderMeta.Config
import HeaderMeta.Glob
import HeaderMeta.Volume

/-! Modules: a root directory, a name, and what to leave out. -/

set_option autoImplicit false

namespace HeaderMeta

def outputDirName : String := "autogen"

def overrideDirName : String := "override"

structure SourceModule where
  name : String
  root : Path
  /-- Where includes are looked for, the root first. -/
  includePaths : List Path
  /-- Known, never searched and never generated. -/
  systemIncludePaths : List Path := []
  exclusions : GlobSet
  deriving Repr

namespace SourceModule

/-- The path without slashes of either kind at its end, unless nothing else is there. -/
def trimRoot (p : Path) : Path :=
  match p.text.toList.reverse.dropWhile fun c => c == '/' || c == '\\' with
  | [] => p
  | cs => ⟨String.ofList cs.reverse⟩

/-- The name of a module at `root`: the last name of the path, or else of the directory it leads to.
A root without one is given back. -/
def nameAt (v : Volume) (root : Path) : Except Path String :=
  match root.fileName? with
  | some name => .ok name
  | none =>
    match v.canonical? root with
    | none => .error root
    | some found =>
      match found.fileName? with
      | some name => .ok name
      | none => .error found

def unnamedMessage (root : Path) : String :=
  "Cannot derive a module name from '" ++ root.text ++ "'"

/-- A module at `root`. Its own globs follow those of the configuration. -/
def create (v : Volume) (root : Path) (name : Option String) (exclude : List String)
    (config : Config) : Except Path SourceModule := do
  let root := trimRoot root
  let name ←
    match name with
    | some name => .ok name
    | none => nameAt v root
  return {
    name, root
    includePaths := [root]
    exclusions := GlobSet.ofList (config.scan.exclude ++ exclude) config.scan.caseRule.isInsensitive }

def sourceDir (m : SourceModule) : Path :=
  m.root.child m.name

def outputDir (m : SourceModule) : Path :=
  m.sourceDir.child outputDirName

def overrideDir (m : SourceModule) : Path :=
  m.outputDir.child overrideDirName

end SourceModule

end HeaderMeta
