import HeaderMeta.Code.Writer
import HeaderMeta.Config
import HeaderMeta.Declaration
import HeaderMeta.Reflection.Member
import HeaderMeta.Text.Blank

/-! Files generated for one type, and the parts of their text that reflectors and prototypes share. -/

set_option autoImplicit false

namespace HeaderMeta

/-- Every generated file name starts with this word. -/
def artifactLead : String := "autogen"

inductive ArtifactKind where
  | reflectorHeader | reflectorImpl | prototypeHeader | prototypeImpl
  deriving DecidableEq, Repr, Inhabited

namespace ArtifactKind

def all : List ArtifactKind :=
  [reflectorHeader, reflectorImpl, prototypeHeader, prototypeImpl]

def family : ArtifactKind → String
  | reflectorHeader | reflectorImpl => "reflector"
  | prototypeHeader | prototypeImpl => "prototype"

def isHeader : ArtifactKind → Bool
  | reflectorHeader | prototypeHeader => true
  | reflectorImpl | prototypeImpl => false

def extension (k : ArtifactKind) : String :=
  if k.isHeader then "hpp" else "inl"

def fileName (k : ArtifactKind) (stem : String) : String :=
  artifactLead ++ "_" ++ k.family ++ "_" ++ stem ++ "." ++ k.extension

def label (k : ArtifactKind) : String :=
  k.family ++ (if k.isHeader then " header" else " implementation")

end ArtifactKind

/-- A generated file that is not written yet. -/
structure Artifact where
  kind : ArtifactKind
  typeName : String
  path : Path
  content : String
  deriving Repr

def Artifact.fileName (a : Artifact) : String :=
  a.path.fileName?.getD ""

/-- The path of a header as an include directive in `base` gives it. -/
def relativeInclude (path base : Path) : String :=
  (path.relativeTo base).slashed

/-- Attributes of the language itself; they carry no metadata. -/
def standardAttributes : List String :=
  ["nodiscard", "deprecated", "maybe_unused", "no_unique_address", "likely", "unlikely",
    "noreturn", "fallthrough", "carries_dependency"]

def Attribute.isEmitted (a : Attribute) : Bool :=
  a.scope.isSome || !standardAttributes.contains a.name

/-- What the text of one type's files is made from. -/
structure EmitTarget where
  decl : TypeDecl
  verdict : Verdict
  /-- Empty unless the verdict is `reflectable`. -/
  classification : Classification
  stem : String
  /-- The declaring header as seen from the output directory. -/
  sourceInclude : String

namespace EmitTarget

/-- Dummy artifacts carry the identity of the type only. -/
def isFull (t : EmitTarget) : Bool :=
  t.verdict = .reflectable

def qualifiedName (t : EmitTarget) : String :=
  t.decl.qualifiedName

/-- Declare the type in its namespace. A nested type cannot be declared ahead, so its header is
included instead. -/
def forwardDeclaration (t : EmitTarget) : Code :=
  let declaration : CodeStep := .line (t.decl.key.word ++ " " ++ t.decl.name ++ ";")
  if t.decl.isNested then [.line ("#include \"" ++ t.sourceInclude ++ "\"")]
  else if t.decl.namespaces.isEmpty then [declaration]
  else Code.block ("namespace " ++ joinScope t.decl.namespaces) [declaration]

end EmitTarget

/-- Split a reversed text at the first `::` met, giving the parts in reading order. -/
def splitScopeReversed (seen : List Char) : List Char → Option (List Char × List Char)
  | ':' :: ':' :: rest => some (rest.reverse, seen)
  | c :: rest => splitScopeReversed (c :: seen) rest
  | [] => none

/-- Make the inner part of a nested target namespace visible in the outer one. -/
def namespacePrelude (target : String) : Code :=
  match splitScopeReversed [] target.toList.reverse with
  | some (outer, inner) =>
    [.line ("namespace " ++ String.ofList outer ++ " \x7b using namespace " ++
      String.ofList inner ++ "; \x7d")]
  | none => []

def typeIdentity (var qualified : String) : Code :=
  [.line (var ++ ".typeId = typeHash<" ++ qualified ++ ">();"),
    .line (var ++ ".typeName = \"" ++ qualified ++ "\";")]

/-- The variable of an attribute whose name occurred `repeats` times before. -/
def attributeVariable (name : String) (repeats : Nat) : String :=
  if repeats = 0 then name ++ "_attr" else name ++ "_attr_" ++ toString repeats

def attributeLines (list : String) (seen : List String) : List Attribute → Code
  | [] => []
  | a :: attributes =>
    let var := attributeVariable a.name (seen.count a.name)
    let args := Text.trim (a.arguments.getD "")
    .line ("static const " ++ a.qualifiedName ++ "_attribute " ++ var ++ "\x7b" ++ args ++ "\x7d;")
      :: .line (list ++ ".push_back(std::cref(" ++ var ++ "));")
      :: attributeLines list (a.name :: seen) attributes

def attributeBlock (preamble : Code) (list : String) (attributes : List Attribute) : Code :=
  match attributes.filter (·.isEmitted) with
  | [] => []
  | emitted => Code.braces (preamble ++ attributeLines list [] emitted)

def EmitTarget.attributeSections (t : EmitTarget) (var : String) : Code :=
  attributeBlock [] (var ++ ".attributes") t.decl.attributes ++
    t.classification.attributed.flatMap fun f =>
      attributeBlock [.line ("auto& member = " ++ var ++ ".members.at(\"" ++ f.name ++ "\");")]
        "member.attributes" f.attributes

end HeaderMeta
