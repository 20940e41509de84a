import HeaderMeta.Declaration
import HeaderMeta.Reflection.Verdict

/-! How the fields and bases of a type appear in generated code. -/

set_option autoImplicit false

namespace HeaderMeta

/-- Why a field is left out. -/
inductive SkipReason where
  | notPublic
  /-- A template parameter, or an instance of a template outside the standard library. -/
  | templated
  /-- A pointer, reference, array or bitfield. -/
  | indirection
  | unresolved
  deriving DecidableEq, Repr

def SkipReason.describe : SkipReason → String
  | notPublic => "not public"
  | templated => "templated type"
  | indirection => "pointer, reference, array or bitfield"
  | unresolved => "unresolved type"

inductive MemberClass where
  | primitive
  /-- A record with artifacts of its own, by qualified name. -/
  | nested (name : String)
  | skip (reason : SkipReason)
  deriving DecidableEq, Repr

def MemberClass.isEmitted : MemberClass → Bool
  | skip _ => false
  | _ => true

/-- Classify a type by what it stands for under all aliases. -/
def TypeKind.memberClass (kind : TypeKind) : MemberClass :=
  match kind.canonical with
  | .primitive _ | .enumeration _ => .primitive
  | .record name args =>
    if isStdName name then .primitive
    else if args.isSome then .skip .templated
    else .nested name
  | .templated => .skip .templated
  | .pointer | .reference | .array | .bitfield => .skip .indirection
  | .unresolved | .synonym _ _ => .skip .unresolved

def Field.memberClass (f : Field) : MemberClass :=
  if f.visibility = .pub then f.type.kind.memberClass else .skip .notPublic

structure Member where
  field : Field
  memberClass : MemberClass
  deriving Repr

def Member.isEmitted (m : Member) : Bool :=
  m.memberClass.isEmitted

inductive BaseLink where
  /-- The base's own artifact is called. -/
  | delegate (name : String)
  /-- An entry that carries the identity only. -/
  | placeholder (name : String)
  deriving DecidableEq, Repr

def BaseLink.name : BaseLink → String
  | delegate name | placeholder name => name

/-- A base is delegated to when it is public and reflectable. -/
def Base.link (verdicts : Verdicts) (b : Base) : BaseLink :=
  if b.resolved.bind verdicts.get? = some .reflectable && b.access = .pub then
    .delegate b.displayName
  else .placeholder b.displayName

/-- The fields of a type with their classes, and its bases. -/
structure Classification where
  members : List Member := []
  bases : List BaseLink := []
  deriving Repr

namespace Classification

def ofType (decl : TypeDecl) (verdicts : Verdicts) : Classification :=
  { members := decl.fields.map fun f => ⟨f, f.memberClass⟩
    bases := decl.bases.map (Base.link verdicts) }

def emitted (c : Classification) : List Member :=
  c.members.filter (·.isEmitted)

def attributed (c : Classification) : List Field :=
  (c.emitted.map (·.field)).filter fun f => !f.attributes.isEmpty

def nestedTypes (c : Classification) : List String :=
  c.members.filterMap fun m =>
    match m.memberClass with
    | .nested name => some name
    | _ => none

end Classification

end HeaderMeta
