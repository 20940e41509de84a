import HeaderMeta.Log.Calendar
import HeaderMeta.Tool
import HeaderMeta.Volume.Changes

/-! The command line.

What a run needs is read from disk into a volume, the run is a function of that volume, and what it
changed is written back. Links are read as what they lead to.
-/

set_option autoImplicit false

namespace HeaderMeta.Disk

def locationOf (v : Volume) (p : Path) : Location :=
  let cs := Path.reduce ((Volume.pathOf v.here).join p).components
  (cs.filterMap fun c => match c with | .normal name => some name | _ => none).reverse

def withDirs (v : Volume) : Location → Volume
  | [] => v
  | name :: loc => (withDirs v loc).put (name :: loc) .dir

def maxDepth : Nat := 64

/-- Read a node with the directories around it, and what is below it `depth` levels down. -/
def load (v : Volume) (depth : Nat) (loc : Location) : IO Volume := do
  let path := (Volume.pathOf loc).text
  try
    let real ← IO.FS.realPath path
    match (← real.metadata).type, depth with
    | .dir, 0 => return withDirs v loc
    | .dir, depth + 1 =>
      let mut v := withDirs v loc
      for entry in ← real.readDir do
        v ← load v depth (entry.fileName :: loc)
      return v
    | .file, _ => return (withDirs v loc.tail).put loc (.file (← IO.FS.readBinFile path))
    | _, _ => return v
  catch _ => return v

def loadAll (v : Volume) (ps : List Path) : IO Volume :=
  ps.foldlM (fun v p => load v 0 (locationOf v p)) v

/-- Read headers that includes lead to, until no new one turns up. -/
partial def loadIncludes (v : Volume) (request : HeaderRequest) : IO Volume := do
  let places := (Reading.ofRequest v request).consulted request
  let unknown := places.filter fun p => (v.get? (locationOf v p)).isNone
  let more ← loadAll v unknown
  if more.nodes.length = v.nodes.length then return v else loadIncludes more request

def loadModules (v : Volume) (config : Config) (modules : List SourceModule) : IO Volume :=
  modules.foldlM (fun v m => do
    let v ← load v maxDepth (locationOf v m.sourceDir)
    match Scan.ofModule v m config.scan.extensions with
    | .ok (scan, _) => loadIncludes v (Survey.request m true scan)
    | .error _ => return v) v

def snapshot (a : Arguments) : IO Volume := do
  let here := (Path.mk (← IO.currentDir).toString).parts.filter (· ≠ "")
  let v : Volume := { here := here.reverse }
  let root := a.moduleRoot.getD ⟨"."⟩
  let v ← loadAll v (root :: Config.fileAt root :: a.config.toList ++ a.logDir.toList)
  match a.settings v with
  | .error _ => return v
  | .ok s =>
    let roots := s.config.modules.map fun m => (s.dir.getD ⟨""⟩).join m.root
    let v ← loadAll v (roots ++ s.config.output.logDir.toList)
    match a.modules v s with
    | .error _ => return v
    | .ok modules => loadModules v s.config modules

def commit (before after : Volume) : IO Unit := do
  for p in Volume.gone before after [] do
    IO.FS.removeFile ("/" ++ p.text)
  for (p, node) in Volume.changed before after [] do
    match node with
    | .dir => IO.FS.createDirAll ("/" ++ p.text)
    | .file bytes => IO.FS.writeBinFile ("/" ++ p.text) bytes
    | .link _ => pure ()

def logName : IO String := do
  let (_, path) ← IO.FS.createTempFile
  let now := (← path.metadata).modified
  IO.FS.removeFile path
  return ((Moment.ofUnix? now.sec now.nsec.toNat).map Moment.logName).getD "tributary_.log"

def inColour : IO Bool := do
  let off := (← IO.getEnv "NO_COLOR").isSome || (← IO.getEnv "TERM").getD "dumb" == "dumb"
  return !off && (← (← IO.getStdout).isTty)

end HeaderMeta.Disk

namespace HeaderMeta.UsageError

def message : UsageError → String
  | unknownArgument => "unexpected argument"
  | invalidValue => "a value is missing or is none of the possible ones"
  | rejectedValue => "a value cannot be read"
  | unneededValue => "a flag takes no value"
  | conflict => "--case-insensitive cannot be used with --case-sensitive"
  | help | version => ""

end HeaderMeta.UsageError

namespace HeaderMeta

def usage : String :=
  "Generate reflection metadata for a C++ module\n\n" ++
  "Usage: tributary [OPTIONS]\n\n" ++
  "  --moduleroot <PATH>        Module root; headers are read from <root>/<module>\n" ++
  "  --include <PATH>           System include path, never generated (repeatable)\n" ++
  "  --module <NAME>            Module name (default: last segment of the module root)\n" ++
  "  --ex, --exclude <GLOB>     Exclusion glob (repeatable)\n" ++
  "  -v, --verbosity <LEVEL>    0=trace 1=debug 2=info 3=warn 4=error 5=fatal\n" ++
  "  -s, --silent               Silence console logging and the summary\n" ++
  "  --config <FILE>            Config file (default: <moduleroot>/tributary.toml when present)\n" ++
  "  --log-file <DIR>           Directory the run log is written to at exit\n" ++
  "  --struct-default <POLICY>  skip, dummy or reflect\n" ++
  "  --class-default <POLICY>   skip, dummy or reflect\n" ++
  "  --case-insensitive         Match exclusion patterns without regard to case\n" ++
  "  --case-sensitive           Match exclusion patterns case-sensitively\n" ++
  "  --impl-mode <MODE>         cpp or inl\n" ++
  "  --format <FORMAT>          text or json\n" ++
  "  -h, --help                 Print help\n" ++
  "  -V, --version              Print version\n"

end HeaderMeta

open HeaderMeta in
def main (args : List String) : IO UInt32 := do
  match CommandLine.parse (CommandLine.normalize ("tributary" :: args)) with
  | .error .help => do IO.print usage; return 0
  | .error .version => do IO.println "tributary 0.3.0"; return 0
  | .error e => do IO.eprintln ("error: " ++ e.message); return 2
  | .ok a =>
    let v ← Disk.snapshot a
    let result := Tool.run v a (← Disk.inColour) (← Disk.logName)
    Disk.commit v result.volume
    IO.print result.stdout
    IO.eprint result.stderr
    return result.code.toUInt32
