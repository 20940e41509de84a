import HeaderMeta.Diagnostic.Snippet
import HeaderMeta.Header.Scope
import HeaderMeta.Log.Event
import HeaderMeta.Symbol
import HeaderMeta.Volume

/-! The declarations of a set of headers and of all they include.

Requested headers are read first, in order, then the headers they include, breadth first. A header is
known by its lexically normalised path and read once. Faults of a header that was not requested are
lowered to warnings.
-/

set_option autoImplicit false

namespace HeaderMeta

structure HeaderRequest where
  moduleName : String := "core"
  files : List Path
  /-- Where includes are looked for. -/
  includePaths : List Path := []
  followIncludes : Bool := true

/-- Merged declarations with resolved names. -/
structure HeaderTree where
  root : Namespace := {}
  /-- The headers read, in order. -/
  files : List Path := []
  diagnostics : List Diagnostic := []

structure ReadFailure where
  moduleName : String
  /-- Every diagnostic, not only the errors. -/
  diagnostics : List Diagnostic
  /-- The errors with their source lines. -/
  rendered : String

namespace ReadFailure

def errorCount (f : ReadFailure) : Nat :=
  f.diagnostics.countP Diagnostic.isError

def message (f : ReadFailure) : String :=
  "Parsing module '" ++ f.moduleName ++ "' failed with " ++ toString f.errorCount ++ " error(s)"

end ReadFailure

structure Pending where
  path : Path
  /-- Requested, not only included. -/
  requested : Bool

/-- Errors count in requested headers only. -/
def Pending.weigh (p : Pending) (d : Diagnostic) : Diagnostic :=
  if p.requested then d else d.downgrade

/-- Headers on their way into a tree. -/
structure Reading where
  queue : List Pending := []
  /-- Paths that were queued at some time. -/
  seen : List Path := []
  root : Namespace := {}
  sources : List Source := []
  diagnostics : List Diagnostic := []
  log : Log := []

namespace Reading

def enqueue (r : Reading) (p : Pending) : Reading :=
  if r.seen.contains p.path then r
  else { r with queue := r.queue ++ [p], seen := p.path :: r.seen }

/-- Paths an include may stand for, the preferred one first: next to the including header when quoted,
then along the include paths. -/
def places (request : HeaderRequest) (includer : Path) (i : Include) : List Path :=
  let beside := if i.angled then [] else includer.parent?.toList
  (beside ++ request.includePaths).map fun dir => (dir.join ⟨i.target⟩).normalize

def target? (v : Volume) (request : HeaderRequest) (includer : Path) (i : Include) : Option Path :=
  (places request includer i).find? v.isFile

def follow (v : Volume) (request : HeaderRequest) (includer : Path) (r : Reading) (i : Include) :
    Reading :=
  match target? v request includer i with
  | none => r
  | some path =>
    if r.seen.contains path then r
    else
      let r := r.enqueue ⟨path, false⟩
      { r with
        log := r.log ++ [.debug ("Following include '" ++ i.target ++ "' from " ++ includer.text)] }

def unreadable (path : Path) (e : FileError) : Diagnostic :=
  { severity := .error, message := "Cannot read header: " ++ e.message, path, span := {} }

def duplicate (name : String) (path : Path) : Diagnostic :=
  { severity := .info, message := "Duplicate definition of '" ++ name ++ "' ignored", path, span := {} }

def take (v : Volume) (request : HeaderRequest) (p : Pending) (text : String) (r : Reading) :
    Reading :=
  let source : Source := ⟨p.path, text⟩
  let header := Header.read source
  let r := { r with
    diagnostics := r.diagnostics ++ header.diagnostics.map p.weigh
    log := r.log ++ [.trace ("Parsing " ++ p.path.text)] }
  let r := if request.followIncludes then header.includes.foldl (follow v request p.path) r else r
  let merged := r.root.merge header.root
  { r with
    root := merged.1
    diagnostics := r.diagnostics ++ merged.2.map fun d => duplicate d.1 d.2
    sources := r.sources ++ [source] }

def step (v : Volume) (request : HeaderRequest) (p : Pending) (r : Reading) : Reading :=
  match v.readText p.path with
  | .error e => { r with diagnostics := r.diagnostics ++ [p.weigh (unreadable p.path e)] }
  | .ok text => take v request p text r

def loop (v : Volume) (request : HeaderRequest) : (fuel : Nat) → Reading → Reading
  | 0, r => r
  | fuel + 1, r =>
    match r.queue with
    | [] => r
    | p :: queue => loop v request fuel (step v request p { r with queue })

def start (request : HeaderRequest) : Reading :=
  request.files.foldl (fun r path => r.enqueue ⟨path.normalize, true⟩) {}

/-- More headers than a request can reach. A normalised path is a run of `..` and then names, so one
node has fewer paths than a path has characters. -/
def bound (v : Volume) (request : HeaderRequest) : Nat :=
  request.files.length + Volume.maxPath * (v.nodes.length + 1)

def ofRequest (v : Volume) (request : HeaderRequest) : Reading :=
  loop v request (bound v request) (start request)

def consulted (request : HeaderRequest) (r : Reading) : List Path :=
  r.sources.flatMap fun s => (Header.read s).includes.flatMap (places request s.path)

end Reading

namespace HeaderTree

def read (v : Volume) (request : HeaderRequest) : Except ReadFailure HeaderTree × Log :=
  let r := Reading.ofRequest v request
  let errors := r.diagnostics.filter Diagnostic.isError
  if errors.isEmpty then
    (.ok {
      root := r.root.resolved
      files := r.sources.map (·.path)
      diagnostics := r.diagnostics }, r.log)
  else
    (.error {
      moduleName := request.moduleName
      diagnostics := r.diagnostics
      rendered := Snippet.render errors r.sources }, r.log)

end HeaderTree

end HeaderMeta
