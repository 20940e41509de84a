import HeaderMeta.Artifact.Generate
import HeaderMeta.Artifact.Stem
import HeaderMeta.HeaderTree
import HeaderMeta.Reflection.Cycle
import HeaderMeta.Reflection.Resolve
import HeaderMeta.Report
import HeaderMeta.Scan
import HeaderMeta.Umbrella

/-! One pass over a module: its headers are found and read, each type gets a verdict, and the files of
every type that has some are written before the umbrella files are finished.

A pass that stops while scanning or reading has changed nothing. The modules of a batch run one after
another, each on the volume the one before left behind.
-/

set_option autoImplicit false

namespace HeaderMeta

/-- Why a pass stops early. -/
inductive Abort where
  | scan (error : ScanError)
  | unreadable (failure : ReadFailure)
  | output (error : OutputError)

def Abort.message : Abort → String
  | scan error => error.message
  | unreadable failure => failure.message
  | output error => error.message

/-- What is known of a module before anything is written. -/
structure Survey where
  scan : Scan
  index : TypeIndex
  verdicts : Verdicts

namespace Survey

def candidatePaths (scan : Scan) : List Path :=
  scan.files.map Path.normalize

/-- Diagnostics of headers that were read go to the captured log only. -/
def diagnosticEvent (d : Diagnostic) : Event :=
  { level :=
      match d.severity with
      | .error => .error
      | .warning => .warn
      | .info => .info
    message := d.line
    hidden := true }

def request (m : SourceModule) (follow : Bool) (scan : Scan) : HeaderRequest where
  moduleName := m.name
  files := scan.files
  includePaths := m.includePaths
  followIncludes := follow

def ofScan (v : Volume) (config : Config) (m : SourceModule) (follow : Bool) (scan : Scan) :
    Except Abort Survey × Log :=
  let skipped : Log := scan.missing.map fun p => .warn ("Skipping unreadable entry " ++ p.text)
  match HeaderTree.read v (request m follow scan) with
  | (.error failure, log) =>
    (.error (.unreadable failure), skipped ++ log ++ [.error failure.rendered])
  | (.ok tree, log) =>
    let index := TypeIndex.ofRoot tree.root
    let candidates := candidatePaths scan
    let texts := HeaderTexts.ofFiles (fun p => (v.readText p).toOption) tree.files
    (.ok {
      scan, index
      verdicts := Verdicts.ofModule config.policy texts index candidates.contains },
    skipped ++ log ++ tree.diagnostics.map diagnosticEvent ++
      Verdicts.moduleLog config.policy texts index candidates.contains)

/-- The part of the report that is settled before anything is written. -/
def report (s : Survey) (m : SourceModule) : ModuleReport where
  module := m.name
  filesScanned := s.scan.files.length
  filesExcluded := s.scan.excluded.length
  typesDiscovered := (s.index.candidates (candidatePaths s.scan).contains).length
  reflectable := s.verdicts.count (· = .reflectable)
  dummy := s.verdicts.count (· = .dummyRequired)
  noReflect := s.verdicts.count Verdict.isNoReflect

end Survey

def Classification.skipLog (decl : TypeDecl) (c : Classification) : Log :=
  c.members.filterMap fun m =>
    match m.memberClass with
    | .skip .notPublic => some (.trace (decl.name ++ "::" ++ m.field.name ++ " skipped: not public"))
    | .skip reason =>
      some (.debug (decl.name ++ "::" ++ m.field.name ++ " (" ++ m.field.type.spelling ++
        ") skipped: " ++ reason.describe))
    | _ => none

/-- Output while it is generated. -/
structure Emission where
  volume : Volume
  umbrella : Umbrella
  stems : Stems
  artifactsWritten : Nat := 0
  writeFailures : Nat := 0
  typeFailures : Nat := 0
  log : Log := []

namespace Emission

def say (e : Emission) (log : Log) : Emission :=
  { e with log := e.log ++ log }

def writeMessage (path : Path) (cause : FileError) : String :=
  "Failed to write " ++ path.text ++ ": " ++ cause.message

/-- Write a file and record it; one that cannot be written is counted and not recorded. -/
def write (e : Emission) (a : Artifact) : Emission :=
  match e.volume.writeText a.path a.content with
  | (volume, .ok ()) =>
    { e with
      volume
      umbrella := e.umbrella.record a
      artifactsWritten := e.artifactsWritten + 1
      log := e.log ++ [.debug ("Wrote " ++ a.kind.label ++ " for '" ++ a.typeName ++ "'")] }
  | (volume, .error cause) =>
    { e with
      volume
      writeFailures := e.writeFailures + 1
      log := e.log ++ [.error (writeMessage a.path cause)] }

def emit (config : Config) (decl : TypeDecl) (verdict : Verdict) (c : Classification)
    (e : Emission) : Emission :=
  let (stem, stems) := e.stems.allocate decl
  (Artifact.generate config.emit e.umbrella.outputDir decl verdict c stem).foldl write
    { e with stems }

/-- One type with its verdict. A reflectable type whose nested members form a cycle is given up. -/
def addType (config : Config) (s : Survey) (e : Emission) (entry : String × Verdict) : Emission :=
  match entry.2.emits, s.index.decl? entry.1 with
  | true, some decl =>
    if entry.2 = .reflectable then
      match s.index.checkNestedCycles entry.1 with
      | .error failure =>
        { e.say [.error failure.message] with typeFailures := e.typeFailures + 1 }
      | .ok () =>
        let c := Classification.ofType decl s.verdicts
        (e.say (c.skipLog decl)).emit config decl entry.2 c
    else e.emit config decl entry.2 {}
  | _, _ => e

def all (config : Config) (s : Survey) (e : Emission) : Emission :=
  s.verdicts.entries.foldl (addType config s) e

end Emission

structure PassResult where
  volume : Volume
  report : ModuleReport
  abort : Option Abort := none
  log : Log := []

namespace Pass

def output (v : Volume) (config : Config) (m : SourceModule) (s : Survey) : PassResult :=
  let report := s.report m
  match (Umbrella.ofModule m config).prepare v with
  | (volume, .error e, log) => { volume, report, abort := some (.output e), log }
  | (volume, .ok _, prepared) =>
    match (Umbrella.ofModule m config).mergeOverrides volume with
    | (_, .error e, merged) => { volume, report, abort := some (.output e), log := prepared ++ merged }
    | (umbrella, .ok overrides, merged) =>
      let e := Emission.all config s
        { volume, umbrella, stems := { foldCase := config.scan.caseRule.isInsensitive } }
      let (volume, error, finished) := e.umbrella.finalize e.volume
      { volume
        report := { report with
          overrides
          artifactsWritten := e.artifactsWritten
          writeFailures := e.writeFailures
          typeFailures := e.typeFailures }
        abort := error.map .output
        log := prepared ++ merged ++ e.log ++ finished }

def steps (v : Volume) (config : Config) (follow : Bool) (m : SourceModule) : PassResult :=
  match Scan.ofModule v m config.scan.extensions with
  | .error e => { volume := v, report := { module := m.name }, abort := some (.scan e) }
  | .ok (scan, scanned) =>
    match Survey.ofScan v config m follow scan with
    | (.error abort, log) =>
      { volume := v
        report :=
          { module := m.name, filesScanned := scan.files.length
            filesExcluded := scan.excluded.length }
        abort := some abort
        log := scanned ++ log }
    | (.ok survey, log) =>
      let result := output v config m survey
      { result with log := scanned ++ log ++ result.log }

def finishedEvent (r : ModuleReport) : Event where
  level := .info
  message := "Finished module '" ++ r.module ++ "' in " ++ toString r.elapsedMs ++ "ms"
  fields := [("files", toString r.filesScanned), ("reflectable", toString r.reflectable),
    ("dummy", toString r.dummy), ("artifacts", toString r.artifactsWritten)]

/-- One pass over a module. Whatever stops it is part of its report. -/
def run (v : Volume) (config : Config) (follow : Bool) (m : SourceModule) : PassResult :=
  let result := steps v config follow m
  let report := { result.report with aborted := result.abort.map Abort.message }
  let stopped : Log := report.aborted.toList.map fun reason =>
    .error ("Aborting module '" ++ m.name ++ "': " ++ reason)
  { result with
    report
    log := (result.log ++ stopped ++ [finishedEvent report]).inModule m.name }

def runAll (v : Volume) (config : Config) (follow : Bool) :
    List SourceModule → Volume × RunSummary × Log
  | [] => (v, {}, [])
  | m :: ms =>
    let first := run v config follow m
    let (volume, summary, log) := runAll first.volume config follow ms
    (volume, ⟨first.report :: summary.modules⟩, first.log ++ log)

end Pass

end HeaderMeta
