/-! What a pass over a module did, in numbers. -/

set_option autoImplicit false

namespace HeaderMeta

structure ModuleReport where
  module : String
  filesScanned : Nat := 0
  filesExcluded : Nat := 0
  /-- Types declared in the headers of the module. -/
  typesDiscovered : Nat := 0
  reflectable : Nat := 0
  dummy : Nat := 0
  noReflect : Nat := 0
  overrides : Nat := 0
  artifactsWritten : Nat := 0
  writeFailures : Nat := 0
  /-- Types given up before any of their files was written. -/
  typeFailures : Nat := 0
  /-- Why the pass stopped early. -/
  aborted : Option String := none
  elapsedMs : Nat := 0
  deriving DecidableEq, Repr

namespace ModuleReport

def isAborted (r : ModuleReport) : Bool :=
  r.aborted.isSome

/-- Stopped early, or lost a type or a file. -/
def hasFailures (r : ModuleReport) : Bool :=
  r.isAborted || r.writeFailures > 0 || r.typeFailures > 0

end ModuleReport

structure RunSummary where
  modules : List ModuleReport := []
  deriving DecidableEq, Repr

namespace RunSummary

def filesScanned (s : RunSummary) : Nat :=
  s.modules.foldr (fun r n => r.filesScanned + n) 0

def artifactsWritten (s : RunSummary) : Nat :=
  s.modules.foldr (fun r n => r.artifactsWritten + n) 0

def aborted (s : RunSummary) : Nat :=
  s.modules.countP (·.isAborted)

def hasFailures (s : RunSummary) : Bool :=
  s.modules.any (·.hasFailures)

end RunSummary

end HeaderMeta
