import HeaderMeta.Artifact

/-! Reflectors: live views of an object.

Primitive members point into the object, nested members are reflectors of its parts. The overload
for constant objects takes the address as an integer before any member is touched.
-/

set_option autoImplicit false

namespace HeaderMeta.Reflector

/-- Whether the object may be changed through the reflector. -/
inductive Access where
  | mutable | constant
  deriving DecidableEq, Repr

def Access.qualifier : Access → String
  | mutable => ""
  | constant => "const "

def signature (access : Access) (qualified : String) : String :=
  let c := access.qualifier
  c ++ "reflector make_reflector<" ++ c ++ qualified ++ ">(" ++ c ++ qualified ++ "& obj)"

def header (t : EmitTarget) (emit : EmitConfig) : Code :=
  [.line "#pragma once", .line ("#include <" ++ emit.reflectorInclude ++ ">")] ++
    t.forwardDeclaration ++
    Code.block ("namespace " ++ emit.targetNamespace)
      ([Access.mutable, .constant].flatMap fun access =>
        [.line "template<>",
          .line (emit.nodiscardMacro ++ " extern " ++ signature access t.qualifiedName ++ ";")])

def memberLine (m : Member) : Code :=
  let name := m.field.name
  let entry (value : String) : Code :=
    [.line ("refl.members.emplace(\"" ++ name ++ "\", member_reference(\"" ++ name ++ "\", " ++
      value ++ "));")]
  match m.memberClass with
  | .primitive =>
    entry ("primitive_reference\x7btypeHash(obj." ++ name ++ "), &obj." ++ name ++ "\x7d")
  | .nested _ => entry ("make_reflector(obj." ++ name ++ ")")
  | .skip _ => []

def dataHandle : Access → String
  | .mutable => "std::addressof(obj)"
  | .constant => "reinterpret_cast<void*>(address)"

def baseLine (access : Access) (b : BaseLink) : CodeStep :=
  let entry :=
    match b with
    | .delegate name =>
      "make_reflector(*static_cast<" ++ access.qualifier ++ name ++ "*>(std::addressof(obj)))"
    | .placeholder name =>
      "reflector(typeHash<" ++ name ++ ">(), nameOfType<" ++ name ++
        ">(), reflector::member_container(), " ++ dataHandle access ++ ")"
  .line ("refl.baseclasses.push_back(" ++ entry ++ ");")

def contents (t : EmitTarget) (access : Access) : Code :=
  if t.isFull then
    t.classification.emitted.flatMap memberLine ++ t.attributeSections "refl" ++
      t.classification.bases.map (baseLine access)
  else []

def function (t : EmitTarget) (emit : EmitConfig) (access : Access) : Code :=
  let address : Code :=
    match access with
    | .mutable => []
    | .constant =>
      [.line "ptr_type address = reinterpret_cast<ptr_type>(std::addressof(obj));"]
  .line "template<>" ::
    Code.block (emit.nodiscardMacro ++ " " ++ signature access t.qualifiedName)
      (address ++ [.line "reflector refl;"] ++ typeIdentity "refl" t.qualifiedName ++
        contents t access ++
        [.line ("refl.data = " ++ dataHandle access ++ ";"), .line "return refl;"])

def implementation (t : EmitTarget) (emit : EmitConfig) : Code :=
  [.line ("#include \"" ++ ArtifactKind.reflectorHeader.fileName t.stem ++ "\""),
      .line ("#include \"" ++ t.sourceInclude ++ "\"")] ++
    namespacePrelude emit.targetNamespace ++
    Code.block ("namespace " ++ emit.targetNamespace)
      (function t emit .mutable ++ function t emit .constant)

end HeaderMeta.Reflector
