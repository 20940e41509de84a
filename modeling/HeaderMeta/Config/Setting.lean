import HeaderMeta.Config

/-! Settings as written in a document, and the configuration they give.

Parts that are not given keep their defaults and unknown keys are ignored, but a part of the wrong
shape spoils the whole document. A group of settings may also be written as a list in field order.
-/

set_option autoImplicit false

namespace HeaderMeta

/-- A value of a settings document. -/
inductive Setting where
  | null
  | bool (b : Bool)
  | integer (n : Int)
  /-- A number with a fraction or exponent: nothing here takes one. -/
  | fraction
  /-- A date or a time of day. -/
  | date
  | text (s : String)
  | list (items : List Setting)
  | table (entries : List (String × Setting))
  deriving Repr, Inhabited

/-- How settings are read. Documents are read leniently, settings that come as data strictly. -/
inductive Strictness where
  | lenient | strict
  deriving DecidableEq, Repr

namespace Setting

def find? (entries : List (String × Setting)) (key : String) : Option Setting :=
  (entries.find? (·.1 = key)).map (·.2)

/-- The values of the named parts of a group, in order. A date is a group of parts that nothing asks
for. Surplus items of a list are refused only by a strict reading. -/
def parts? (how : Strictness) (names : List String) : Setting → Option (List (Option Setting))
  | table entries => some (names.map (find? entries))
  | date => some (names.map fun _ => none)
  | list items =>
    if how = .strict && names.length < items.length then none
    else some ((List.range names.length).map (items[·]?))
  | _ => none

def readD {α : Type} (read : Setting → Option α) (fallback : α) : Option Setting → Option α
  | none => some fallback
  | some s => read s

def text? : Setting → Option String
  | text s => some s
  | _ => none

def texts? : Setting → Option (List String)
  | list items => items.mapM text?
  | _ => none

def optionalText? : Setting → Option (Option String)
  | null => some none
  | text s => some (some s)
  | _ => none

def isEmptyGroup : Setting → Bool
  | list [] | table [] => true
  | _ => false

/-- One of several names, as a text or as the single key of a table. The key carries nothing: an
empty group, or null in a strict reading. -/
def choice? {α : Type} (how : Strictness) (ofName? : String → Option α) : Setting → Option α
  | text s => ofName? s
  | table [(s, inner)] => if carriesNothing inner then ofName? s else none
  | _ => none
where
  carriesNothing (inner : Setting) : Bool :=
    match how, inner with
    | .strict, null => true
    | .strict, _ => false
    | .lenient, inner => inner.isEmptyGroup

end Setting

open Setting

def PolicyConfig.ofSetting? (how : Strictness) (s : Setting) : Option PolicyConfig := do
  let fallback : PolicyConfig := {}
  let parts ← s.parts? how ["struct_default", "class_default", "reflect_attribute",
    "no_reflect_attribute", "attribute_scopes"]
  match parts with
  | [a, b, c, d, e] =>
    some
      { structDefault := ← readD (choice? how DefaultPolicy.ofName?) fallback.structDefault a
        classDefault := ← readD (choice? how DefaultPolicy.ofName?) fallback.classDefault b
        reflectAttribute := ← readD text? fallback.reflectAttribute c
        noReflectAttribute := ← readD text? fallback.noReflectAttribute d
        attributeScopes := ← readD texts? fallback.attributeScopes e }
  | _ => none

def EmitConfig.ofSetting? (how : Strictness) (s : Setting) : Option EmitConfig := do
  let fallback : EmitConfig := {}
  let parts ← s.parts? how ["target_namespace", "reflector_include", "prototype_include",
    "platform_include", "nodiscard_macro"]
  match parts with
  | [a, b, c, d, e] =>
    some
      { targetNamespace := ← readD text? fallback.targetNamespace a
        reflectorInclude := ← readD text? fallback.reflectorInclude b
        prototypeInclude := ← readD text? fallback.prototypeInclude c
        platformInclude := ← readD text? fallback.platformInclude d
        nodiscardMacro := ← readD text? fallback.nodiscardMacro e }
  | _ => none

def ScanConfig.ofSetting? (how : Strictness) (s : Setting) : Option ScanConfig := do
  let fallback : ScanConfig := {}
  let parts ← s.parts? how ["extensions", "exclude", "case_sensitivity"]
  match parts with
  | [a, b, c] =>
    some
      { extensions := ← readD texts? fallback.extensions a
        exclude := ← readD texts? fallback.exclude b
        caseRule := ← readD (choice? how CaseRule.ofName?) fallback.caseRule c }
  | _ => none

def OutputConfig.ofSetting? (how : Strictness) (s : Setting) : Option OutputConfig := do
  let fallback : OutputConfig := {}
  let parts ← s.parts? how ["impl_mode", "log_dir"]
  match parts with
  | [a, b] =>
    some
      { implMode := ← readD (choice? how ImplMode.ofName?) fallback.implMode a
        logDir := (← readD optionalText? none b).map Path.mk }
  | _ => none

def ModuleEntry.ofSetting? (how : Strictness) (s : Setting) : Option ModuleEntry := do
  let parts ← s.parts? how ["root", "name", "exclude"]
  match parts with
  | [some a, b, c] =>
    some
      { root := ⟨← text? a⟩
        name := ← readD optionalText? none b
        exclude := ← readD texts? [] c }
  | _ => none

def ModuleEntry.listOfSetting? (how : Strictness) : Setting → Option (List ModuleEntry)
  | .list items => items.mapM (ModuleEntry.ofSetting? how)
  | _ => none

def Config.ofSetting? (how : Strictness) (s : Setting) : Option Config := do
  let parts ← s.parts? how ["policy", "emit", "scan", "output", "modules"]
  match parts with
  | [a, b, c, d, e] =>
    some
      { policy := ← readD (PolicyConfig.ofSetting? how) {} a
        emit := ← readD (EmitConfig.ofSetting? how) {} b
        scan := ← readD (ScanConfig.ofSetting? how) {} c
        output := ← readD (OutputConfig.ofSetting? how) {} d
        modules := ← readD (ModuleEntry.listOfSetting? how) [] e }
  | _ => none

end HeaderMeta
