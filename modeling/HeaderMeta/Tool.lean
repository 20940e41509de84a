import HeaderMeta.CommandLine
import HeaderMeta.Config.File
import HeaderMeta.Log.File
import HeaderMeta.Pass
import HeaderMeta.Report.Json
import HeaderMeta.Report.Styled

/-! A run of the tool: settings, modules, passes, summary and log file. -/

set_option autoImplicit false

namespace HeaderMeta

structure Settings where
  config : Config
  dir : Option Path

structure ToolResult where
  volume : Volume
  code : Nat
  stdout : String := ""
  stderr : String := ""

namespace Arguments

def level (a : Arguments) : Verbosity :=
  if a.silent then .silent
  else
    match a.verbosity with
    | some n => .ofNumber n
    | none => .error

def caseRule (a : Arguments) (given : CaseRule) : CaseRule :=
  if a.caseInsensitive then .insensitive else if a.caseSensitive then .sensitive else given

/-- Arguments win over a configuration; exclusion globs add up. -/
def override (a : Arguments) (c : Config) : Config :=
  { c with
    policy := { c.policy with
      structDefault := a.structDefault.getD c.policy.structDefault
      classDefault := a.classDefault.getD c.policy.classDefault }
    scan := { c.scan with
      caseRule := a.caseRule c.scan.caseRule
      exclude := c.scan.exclude ++ a.exclude }
    output := { c.output with implMode := a.implMode.getD c.output.implMode } }

def settings (a : Arguments) (v : Volume) : Except String Settings :=
  let invalid (path : Path) := "Invalid config file " ++ path.text
  match a.config with
  | some path =>
    match Config.load v path with
    | .ok c => .ok ⟨a.override c, path.parent?⟩
    | .error _ => .error (invalid path)
  | none =>
    let root := a.moduleRoot.getD ⟨"."⟩
    let path := Config.fileAt root
    match Config.discover v root with
    | .ok c => .ok ⟨a.override c, if v.isFile path then path.parent? else none⟩
    | .error _ => .error (invalid path)

/-- A module of the configuration; its root is seen from the directory of the configuration file. -/
def entryModule (v : Volume) (s : Settings) (entry : ModuleEntry) : Except String SourceModule :=
  let root := (s.dir.map fun dir => dir.join entry.root).getD entry.root
  match SourceModule.create v root entry.name entry.exclude s.config with
  | .ok m => .ok m
  | .error _ => .error ("Invalid module entry " ++ entry.root.text)

def rootModule (a : Arguments) (v : Volume) (s : Settings) (root : Path) :
    Except String SourceModule :=
  match SourceModule.create v root a.moduleName [] s.config with
  | .ok m => .ok m
  | .error _ => .error ("Invalid module root " ++ root.text)

/-- The module of the given root, or else those of the configuration, or else the one of the current
directory. -/
def modules (a : Arguments) (v : Volume) (s : Settings) : Except String (List SourceModule) := do
  let modules ←
    match a.moduleRoot with
    | some root => do pure [← a.rootModule v s root]
    | none =>
      if s.config.modules.isEmpty then do pure [← a.rootModule v s (Volume.pathOf v.here)]
      else s.config.modules.mapM (entryModule v s)
  return modules.map fun m => { m with systemIncludePaths := m.systemIncludePaths ++ a.includes }

/-- The summary as the arguments want it. A silent run has none for people to read. -/
def summaryText (a : Arguments) (inColour : Bool) (s : RunSummary) : String :=
  match a.format with
  | .json => s.json.render 0 ++ "\n"
  | .text => if a.silent then "" else s.text inColour

end Arguments

namespace Tool

/-- Run on settings that hold. The log goes into a file named `logName` when a directory for it is
known. -/
def runModules (v : Volume) (a : Arguments) (inColour : Bool) (logName : String) (s : Settings)
    (modules : List SourceModule) : ToolResult :=
  let (volume, summary, log) := Pass.runAll v s.config true modules
  let stdout := log.toStdout a.level ++ a.summaryText inColour summary
  let stderr := log.toStderr a.level
  match a.logDir.or s.config.output.logDir with
  | none => { volume, code := 0, stdout, stderr }
  | some dir =>
    match Log.flush volume dir logName (log.captured a.level) with
    | (volume, .ok none) => { volume, code := 0, stdout, stderr }
    | (volume, .ok (some path)) =>
      let written : Log := [.debug ("Log written to " ++ path.text)]
      { volume, code := 0, stdout := stdout ++ written.toStdout a.level, stderr }
    | (volume, .error e) =>
      { volume, code := 0, stdout
        stderr := stderr ++ "Error: failed to write log to " ++ dir.text ++ ": " ++ e.message ++ "\n" }

/-- A run with the given arguments. Settings that do not hold end it before anything is read. -/
def run (v : Volume) (a : Arguments) (inColour : Bool) (logName : String) : ToolResult :=
  let found : Except String (Settings × List SourceModule) := do
    let s ← a.settings v
    return (s, ← a.modules v s)
  match found with
  | .ok (s, modules) => runModules v a inColour logName s modules
  | .error reason => { volume := v, code := 1, stderr := "Error: " ++ reason }

end Tool

end HeaderMeta
