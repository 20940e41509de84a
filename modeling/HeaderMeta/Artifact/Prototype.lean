import HeaderMeta.Artifact

/-! Prototypes: copies that stand apart from the object they were made from. -/

set_option autoImplicit false

namespace HeaderMeta.Prototype

def signature (qualified : String) : String :=
  "prototype make_prototype<" ++ qualified ++ ">(const " ++ qualified ++ "& obj)"

def header (t : EmitTarget) (emit : EmitConfig) : Code :=
  [.line "#pragma once", .line ("#include <" ++ emit.prototypeInclude ++ ">")] ++
    t.forwardDeclaration ++
    Code.block ("namespace " ++ emit.targetNamespace)
      [.line "template<>",
        .line (emit.nodiscardMacro ++ " extern " ++ signature t.qualifiedName ++ ";")]

def memberLine (m : Member) : Code :=
  let name := m.field.name
  let entry (value : String) : Code :=
    [.line ("prot.members.emplace(\"" ++ name ++ "\", member_value(\"" ++ name ++ "\", " ++
      value ++ "));")]
  match m.memberClass with
  | .primitive =>
    entry ("primitive_value\x7btypeHash(obj." ++ name ++ "), std::any(obj." ++ name ++ ")\x7d")
  | .nested _ => entry ("make_prototype(obj." ++ name ++ ")")
  | .skip _ => []

def baseLine (b : BaseLink) : CodeStep :=
  let entry :=
    match b with
    | .delegate name =>
      "make_prototype(*static_cast<const " ++ name ++ "*>(std::addressof(obj)))"
    | .placeholder name =>
      "prototype(typeHash<" ++ name ++ ">(), nameOfType<" ++ name ++
        ">(), prototype::member_container())"
  .line ("prot.baseclasses.push_back(" ++ entry ++ ");")

def contents (t : EmitTarget) : Code :=
  if t.isFull then
    t.classification.emitted.flatMap memberLine ++ t.attributeSections "prot" ++
      t.classification.bases.map baseLine
  else []

def implementation (t : EmitTarget) (emit : EmitConfig) : Code :=
  [.line ("#include \"" ++ ArtifactKind.prototypeHeader.fileName t.stem ++ "\""),
      .line ("#include \"" ++ t.sourceInclude ++ "\"")] ++
    namespacePrelude emit.targetNamespace ++
    Code.block ("namespace " ++ emit.targetNamespace)
      (.line "template<>" ::
        Code.block (emit.nodiscardMacro ++ " " ++ signature t.qualifiedName)
          ([.line "prototype prot;"] ++ typeIdentity "prot" t.qualifiedName ++ contents t ++
            [.line "return prot;"]))

end HeaderMeta.Prototype
