import HeaderMeta.Path
import HeaderMeta.Text.Affix

/-! Settings of a run: which types are reflected, what generated text looks like, which headers are
read and where output goes. -/

set_option autoImplicit false

namespace HeaderMeta

/-- What becomes of a type that is neither opted in nor out. -/
inductive DefaultPolicy where
  | skip | dummy | reflect
  deriving DecidableEq, Repr, Inhabited

namespace DefaultPolicy

def name : DefaultPolicy → String
  | skip => "skip"
  | dummy => "dummy"
  | reflect => "reflect"

def ofName? (s : String) : Option DefaultPolicy :=
  if s = "skip" then some skip
  else if s = "dummy" then some dummy
  else if s = "reflect" then some reflect
  else none

end DefaultPolicy

/-- Whether exclusion globs tell upper from lower case. -/
inductive CaseRule where
  /-- As the file system does, which tells them apart. -/
  | host
  | sensitive
  | insensitive
  deriving DecidableEq, Repr, Inhabited

namespace CaseRule

def name : CaseRule → String
  | host => "host"
  | sensitive => "sensitive"
  | insensitive => "insensitive"

def ofName? (s : String) : Option CaseRule :=
  if s = "host" then some host
  else if s = "sensitive" then some sensitive
  else if s = "insensitive" then some insensitive
  else none

def isInsensitive : CaseRule → Bool
  | insensitive => true
  | host | sensitive => false

end CaseRule

/-- How the umbrella implementation is built: by itself, or included by hand-written code. -/
inductive ImplMode where
  | cpp | inl
  deriving DecidableEq, Repr, Inhabited

namespace ImplMode

def name : ImplMode → String
  | cpp => "cpp"
  | inl => "inl"

def ofName? (s : String) : Option ImplMode :=
  if s = "cpp" then some cpp else if s = "inl" then some inl else none

def umbrellaName : ImplMode → String
  | cpp => "autogen.cpp"
  | inl => "autogen.inl"

end ImplMode

structure InvalidValue where
  key : String
  value : String
  deriving DecidableEq, Repr

def InvalidValue.message (e : InvalidValue) : String :=
  "Invalid value '" ++ e.value ++ "' for " ++ e.key

def DefaultPolicy.parse (s : String) : Except InvalidValue DefaultPolicy :=
  match ofName? (Text.asciiLower s) with
  | some policy => .ok policy
  | none => .error ⟨"unannotated policy", s⟩

def ImplMode.parse (s : String) : Except InvalidValue ImplMode :=
  match ofName? (Text.asciiLower s) with
  | some mode => .ok mode
  | none => .error ⟨"impl mode", s⟩

structure PolicyConfig where
  structDefault : DefaultPolicy := .dummy
  classDefault : DefaultPolicy := .skip
  reflectAttribute : String := "reflectable"
  noReflectAttribute : String := "no_reflect"
  /-- Scopes an attribute may have; an empty list accepts any. -/
  attributeScopes : List String := []
  deriving DecidableEq, Repr, Inhabited

def PolicyConfig.acceptsScope (p : PolicyConfig) (scope : Option String) : Bool :=
  p.attributeScopes.isEmpty || scope.any p.attributeScopes.contains

structure EmitConfig where
  targetNamespace : String := "legion::core"
  reflectorInclude : String := "core/types/reflector.hpp"
  prototypeInclude : String := "core/types/prototype.hpp"
  platformInclude : String := "core/platform/platform.hpp"
  nodiscardMacro : String := "L_NODISCARD"
  deriving DecidableEq, Repr, Inhabited

structure ScanConfig where
  extensions : List String := ["h", "hpp"]
  exclude : List String := []
  caseRule : CaseRule := .host
  deriving DecidableEq, Repr, Inhabited

structure OutputConfig where
  implMode : ImplMode := .cpp
  logDir : Option Path := none
  deriving DecidableEq, Repr, Inhabited

structure ModuleEntry where
  root : Path
  name : Option String := none
  exclude : List String := []
  deriving DecidableEq, Repr, Inhabited

structure Config where
  policy : PolicyConfig := {}
  emit : EmitConfig := {}
  scan : ScanConfig := {}
  output : OutputConfig := {}
  modules : List ModuleEntry := []
  deriving DecidableEq, Repr, Inhabited

end HeaderMeta
