import HeaderMeta.Log.Event
import HeaderMeta.SourceModule

/-! The headers of a module.

Directories are entered in the order of their names, next to the files among them, so the result is in
path order whatever order a directory lists its entries in. A directory that cannot be listed is passed
over with all that is below it, unless it is the one the sources are in.
-/

set_option autoImplicit false

namespace HeaderMeta

inductive ScanError where
  | missingDirectory (path : Path)
  | readDir (path : Path) (cause : FileError)
  deriving DecidableEq, Repr

def ScanError.message : ScanError → String
  | missingDirectory path => "Module directory " ++ path.text ++ " does not exist"
  | readDir path cause => "Failed to read directory " ++ path.text ++ ": " ++ cause.message

structure Scan where
  files : List Path := []
  /-- Headers left out by a glob. -/
  excluded : List Path := []
  /-- Names of headers without a file behind them. -/
  missing : List Path := []
  deriving Repr

namespace Scan

def append (a b : Scan) : Scan :=
  ⟨a.files ++ b.files, a.excluded ++ b.excluded, a.missing ++ b.missing⟩

def isHeader (extensions : List String) (p : Path) : Bool :=
  p.extension?.any fun ext => extensions.any fun wanted => Text.asciiLower wanted = Text.asciiLower ext

/-- Entries of a directory in path order, without those at which its listing fails. -/
def readSorted (v : Volume) (dir : Path) : Except FileError (List Path) :=
  (v.list dir).map fun entries => (entries.filterMap Except.toOption).mergeSort Path.le

def ofEntry (v : Volume) (m : SourceModule) (extensions : List String) (p : Path) : Scan × Log :=
  if !isHeader extensions p then ({}, [])
  else if !v.isFile p then
    ({ missing := [p] }, [.warn ("File " ++ p.text ++ " does not exist, skipping")])
  else
    match m.exclusions.matching? p with
    | some glob =>
      ({ excluded := [p] }, [.debug ("Excluded " ++ p.text ++ " (matches '" ++ glob ++ "')")])
    | none => ({ files := [p] }, [.trace ("Found " ++ p.text)])

/-- Scan directory entries, `depth` levels down at most. Output directories are passed over. -/
def scanEntries (v : Volume) (m : SourceModule) (extensions : List String) :
    (depth : Nat) → List Path → Scan × Log
  | _, [] => ({}, [])
  | depth, p :: rest =>
    let first : Scan × Log :=
      if v.isDir p then
        match depth with
        | 0 => ({}, [])
        | depth + 1 =>
          if p.fileName? = some outputDirName then ({}, [])
          else
            match readSorted v p with
            | .ok entries => scanEntries v m extensions depth entries
            | .error e =>
              ({}, [.warn ("Skipping unreadable directory " ++ p.text ++ ": " ++ e.message)])
      else ofEntry v m extensions p
    let more := scanEntries v m extensions depth rest
    (first.1.append more.1, first.2 ++ more.2)

def ofModule (v : Volume) (m : SourceModule) (extensions : List String) :
    Except ScanError (Scan × Log) :=
  if !v.isDir m.sourceDir then .error (.missingDirectory m.sourceDir)
  else
    match readSorted v m.sourceDir with
    | .error e => .error (.readDir m.sourceDir e)
    | .ok entries =>
      let (scan, log) := scanEntries v m extensions v.depthBound entries
      .ok (scan, log ++ [{
        level := .debug
        message := "Scanned module"
        fields := [("module", m.name), ("files", toString scan.files.length),
          ("excluded", toString scan.excluded.length)] }])

end Scan

end HeaderMeta
