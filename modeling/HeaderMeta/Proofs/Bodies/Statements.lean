import HeaderMeta.Artifact.Generate
import HeaderMeta.Proofs.Bodies.Forms
import HeaderMeta.Proofs.Bodies.Layout

/-! What the bodies of generated functions do, line by line.

Reflectors of mutable and of constant objects and prototypes each have their own spelling of the same
statements. `Maker.read` reads a body by the spellings of its maker, and the three bodies of a type
say the same, `EmitTarget.statements` (`Maker.says_body`).
-/

set_option autoImplicit false

namespace HeaderMeta

/-- How a member is entered. -/
inductive EntryKind where
  | primitive | nested
  deriving DecidableEq, Repr

inductive Statement where
  | typeId (name : String)
  | typeName (name : String)
  | member (name : String) (kind : EntryKind)
  /-- The entry of a member is looked up. -/
  | memberAt (name : String)
  /-- A metadata object is defined. -/
  | define (definition : String)
  /-- A metadata object is appended to those of the type, or of the member that was looked up. -/
  | append (toMember : Bool) (var : String)
  | base (link : BaseLink)
  | opened
  | closed
  deriving DecidableEq, Repr

inductive Maker where
  | reflector (access : Reflector.Access)
  | prototype
  deriving DecidableEq, Repr

namespace Maker

def var : Maker → String
  | reflector _ => "refl"
  | prototype => "prot"

def list (m : Maker) (toMember : Bool) : String :=
  if toMember then "member.attributes" else m.var ++ ".attributes"

def primitiveForm : Maker → Form
  | reflector _ =>
    ["refl.members.emplace(\"", "\", member_reference(\"",
      "\", " ++ "primitive_reference\x7btypeHash(obj.", "), &obj.", "\x7d" ++ "));"]
  | prototype =>
    ["prot.members.emplace(\"", "\", member_value(\"",
      "\", " ++ "primitive_value\x7btypeHash(obj.", "), std::any(obj.", ")\x7d" ++ "));"]

def nestedForm : Maker → Form
  | reflector _ =>
    ["refl.members.emplace(\"", "\", member_reference(\"", "\", " ++ "make_reflector(obj.",
      ")" ++ "));"]
  | prototype =>
    ["prot.members.emplace(\"", "\", member_value(\"", "\", " ++ "make_prototype(obj.", ")" ++ "));"]

def delegateForm : Maker → Form
  | reflector .mutable =>
    ["refl.baseclasses.push_back(" ++ "make_reflector(*static_cast<",
      "*>(std::addressof(obj)))" ++ ");"]
  | reflector .constant =>
    ["refl.baseclasses.push_back(" ++ "make_reflector(*static_cast<" ++ "const ",
      "*>(std::addressof(obj)))" ++ ");"]
  | prototype =>
    ["prot.baseclasses.push_back(" ++ "make_prototype(*static_cast<const ",
      "*>(std::addressof(obj)))" ++ ");"]

def placeholderForm : Maker → Form
  | reflector .mutable =>
    ["refl.baseclasses.push_back(" ++ "reflector(typeHash<", ">(), nameOfType<",
      ">(), reflector::member_container(), " ++ "std::addressof(obj)" ++ ")" ++ ");"]
  | reflector .constant =>
    ["refl.baseclasses.push_back(" ++ "reflector(typeHash<", ">(), nameOfType<",
      ">(), reflector::member_container(), " ++ "reinterpret_cast<void*>(address)" ++ ")" ++ ");"]
  | prototype =>
    ["prot.baseclasses.push_back(" ++ "prototype(typeHash<", ">(), nameOfType<",
      ">(), prototype::member_container())" ++ ");"]

/-- The statements of a body, each with the form of its line. -/
def forms (m : Maker) : List (Form × (String → Statement)) :=
  [([m.var ++ ".typeId = typeHash<", ">();"], .typeId),
    ([m.var ++ ".typeName = \"", "\";"], .typeName),
    (m.primitiveForm, fun name => .member name .primitive),
    (m.nestedForm, fun name => .member name .nested),
    (["auto& member = " ++ m.var ++ ".members.at(\"", "\");"], .memberAt),
    (["static const ", ";"], .define),
    ([m.list false ++ ".push_back(std::cref(", "));"], .append false),
    ([m.list true ++ ".push_back(std::cref(", "));"], .append true),
    (m.delegateForm, fun name => .base (.delegate name)),
    (m.placeholderForm, fun name => .base (.placeholder name))]

def opening : Maker → List String
  | reflector .mutable => ["reflector refl;"]
  | reflector .constant =>
    ["ptr_type address = reinterpret_cast<ptr_type>(std::addressof(obj));", "reflector refl;"]
  | prototype => ["prototype prot;"]

def closing : Maker → List String
  | reflector access => ["refl.data = " ++ Reflector.dataHandle access ++ ";", "return refl;"]
  | prototype => ["return prot;"]

theorem distinct_forms (m : Maker) : Form.Distinct m.forms := by
  -- every two forms start or end otherwise, so their bytes decide it
  rcases m with (_ | _) | _ <;> constructor <;> decide +kernel

theorem apart_fixed (m : Maker) :
    ∀ text ∈ m.opening ++ m.closing, ∀ entry ∈ m.forms, Form.Apart [text] entry.1 := by
  rcases m with (_ | _) | _ <;> decide +kernel

def readStep? (m : Maker) : CodeStep → Option Statement
  | .line text => Form.read? m.forms text
  | .openBlock => some .opened
  | .closeBlock => some .closed

/-- The statements of a body in order. Lines that are none, such as the declaration of the variable
and its return, are passed over. -/
def read (m : Maker) (code : Code) : List Statement :=
  code.filterMap m.readStep?

/-- A fixed line of a body, or one of its statements. -/
def IsLine (m : Maker) (text : String) : Prop :=
  text ∈ m.opening ++ m.closing ∨ ∃ entry ∈ m.forms, ∃ name, text = entry.1.fill name

/-- Code of a body that says some statements: it closes its blocks and has no line of another
spelling. -/
structure Says (m : Maker) (code : Code) (said : List Statement) : Prop where
  read : m.read code = said
  closed : code.Closed
  lines : ∀ text, .line text ∈ code → m.IsLine text

section Says
variable {m : Maker} {a b : Code} {said more : List Statement}

theorem says_nil : m.Says [] [] := ⟨rfl, Code.closed_nil, nofun⟩

theorem says_fill {form : Form} {make : String → Statement} (mem : (form, make) ∈ m.forms)
    (name : String) : m.Says [.line (form.fill name)] [make name] where
  read := by
    have read : m.readStep? (.line (form.fill name)) = some (make name) :=
      Form.read?_fill m.distinct_forms mem name
    simp only [Maker.read, List.filterMap_cons, read, List.filterMap_nil]
  closed := Code.closed_line _
  lines := by
    intro text isLine
    cases List.mem_singleton.mp isLine
    exact .inr ⟨_, mem, name, rfl⟩

theorem says_fixed {text : String} (fixed : text ∈ m.opening ++ m.closing) :
    m.Says [.line text] [] where
  read := by
    have none : m.readStep? (.line text) = none := Form.read?_eq_none (m.apart_fixed text fixed)
    simp only [Maker.read, List.filterMap_cons, none, List.filterMap_nil]
  closed := Code.closed_line text
  lines := by
    intro other isLine
    cases List.mem_singleton.mp isLine
    exact .inl fixed

theorem Says.append (first : m.Says a said) (second : m.Says b more) :
    m.Says (a ++ b) (said ++ more) where
  read := by
    rw [Maker.read, List.filterMap_append, ← first.read, ← second.read]
    rfl
  closed := first.closed.append second.closed
  lines := by
    intro text isLine
    rcases List.mem_append.mp isLine with isLine | isLine
    · exact first.lines text isLine
    · exact second.lines text isLine

theorem Says.braces (body : m.Says a said) :
    m.Says (Code.braces a) (.opened :: said ++ [.closed]) where
  read := by
    rw [Maker.read, Code.braces, List.filterMap_append, List.filterMap_cons, ← body.read]
    rfl
  closed := body.closed.braces
  lines := fun text isLine => body.lines text (by simpa [Code.braces] using isLine)

theorem says_flatMap {α : Type} {f : α → Code} {g : α → List Statement} {xs : List α}
    (each : ∀ x ∈ xs, m.Says (f x) (g x)) : m.Says (xs.flatMap f) (xs.flatMap g) := by
  induction xs with
  | nil => exact says_nil
  | cons x xs ih =>
    exact (each x List.mem_cons_self).append (ih fun y mem => each y (List.mem_cons_of_mem _ mem))

theorem says_lines {texts : List String} (fixed : texts ⊆ m.opening ++ m.closing) :
    m.Says (texts.map .line) [] := by
  induction texts with
  | nil => exact says_nil
  | cons text texts ih =>
    rw [List.cons_subset] at fixed
    exact (says_fixed fixed.1).append (ih fixed.2)

theorem says_typeIdentity (m : Maker) (name : String) :
    m.Says (typeIdentity m.var name) [.typeId name, .typeName name] := by
  have id : ([m.var ++ ".typeId = typeHash<", ">();"], .typeId) ∈ m.forms := by simp [forms]
  have spelled : ([m.var ++ ".typeName = \"", "\";"], .typeName) ∈ m.forms := by simp [forms]
  exact (says_fill id name).append (says_fill spelled name)

end Says

end Maker

/-! The attributes of a type or field, each with the variable of its metadata. -/

structure MetadataEntry where
  type : String
  var : String
  arguments : String
  deriving DecidableEq, Repr

namespace MetadataEntry

def definition (e : MetadataEntry) : String :=
  e.type ++ " " ++ e.var ++ "\x7b" ++ e.arguments ++ "\x7d"

def statements (toMember : Bool) (e : MetadataEntry) : List Statement :=
  [.define e.definition, .append toMember e.var]

def ofAttribute (repeats : Nat) (a : Attribute) : MetadataEntry :=
  ⟨a.qualifiedName ++ "_attribute", attributeVariable a.name repeats,
    Text.trim (a.arguments.getD "")⟩

end MetadataEntry

/-- The metadata of the emitted attributes in order, each numbered by those of its name before it. -/
def metadata (attributes : List Attribute) : List MetadataEntry :=
  let emitted := attributes.filter (·.isEmitted)
  emitted.mapIdx fun i a => .ofAttribute (((emitted.take i).map (·.name)).count a.name) a

structure MetadataBlock (α : Type) where
  member : Option String
  entries : List α
  deriving DecidableEq, Repr

def MetadataBlock.statements (b : MetadataBlock MetadataEntry) : List Statement :=
  .opened :: (b.member.toList.map .memberAt ++
    b.entries.flatMap (·.statements b.member.isSome)) ++ [.closed]

namespace Maker
variable {m : Maker}

theorem says_attribute (toMember : Bool) (repeats : Nat) (a : Attribute) :
    m.Says
      [.line ("static const " ++ a.qualifiedName ++ "_attribute " ++
          attributeVariable a.name repeats ++ "\x7b" ++ Text.trim (a.arguments.getD "") ++ "\x7d;"),
        .line (m.list toMember ++ ".push_back(std::cref(" ++ attributeVariable a.name repeats ++
          "));")]
      ((MetadataEntry.ofAttribute repeats a).statements toMember) := by
  have defined : (["static const ", ";"], .define) ∈ m.forms := by simp [forms]
  have pushed : ([m.list toMember ++ ".push_back(std::cref(", "));"], .append toMember) ∈
      m.forms := by
    cases toMember <;> simp [forms]
  have line : "static const " ++ a.qualifiedName ++ "_attribute " ++
      attributeVariable a.name repeats ++ "\x7b" ++ Text.trim (a.arguments.getD "") ++ "\x7d;" =
        Form.fill ["static const ", ";"] (MetadataEntry.ofAttribute repeats a).definition := by
    simp [Form.fill, Text.joinWith, MetadataEntry.definition, MetadataEntry.ofAttribute,
      ← String.toList_inj]
  rw [line]
  exact (says_fill defined _).append (says_fill pushed _)

theorem says_attributeLines (toMember : Bool) (seen : List String) (attributes : List Attribute) :
    m.Says (attributeLines (m.list toMember) seen attributes)
      ((attributes.mapIdx fun i a => MetadataEntry.ofAttribute
        (seen.count a.name + ((attributes.take i).map (·.name)).count a.name) a).flatMap
          (·.statements toMember)) := by
  induction attributes generalizing seen with
  | nil => exact says_nil
  | cons a attributes ih =>
    -- an attribute that is passed joins the names that later ones are counted against
    have shifted (b : Attribute) (i : Nat) :
        (a.name :: seen).count b.name + ((attributes.take i).map (·.name)).count b.name =
          seen.count b.name + (((a :: attributes).take (i + 1)).map (·.name)).count b.name := by
      simp only [List.take_succ_cons, List.map_cons, List.count_cons]
      omega
    have later := ih (a.name :: seen)
    simp only [shifted] at later
    rw [List.mapIdx_cons, List.flatMap_cons]
    exact (says_attribute toMember (seen.count a.name) a).append later

theorem says_attributeBlock (m : Maker) (member : Option String) (attributes : List Attribute) :
    m.Says
      (attributeBlock
        (member.toList.map fun name =>
          .line ("auto& member = " ++ m.var ++ ".members.at(\"" ++ name ++ "\");"))
        (m.list member.isSome) attributes)
      (if metadata attributes = [] then []
        else MetadataBlock.statements ⟨member, metadata attributes⟩) := by
  have entries : metadata attributes = (attributes.filter (·.isEmitted)).mapIdx fun i a =>
      .ofAttribute ((((attributes.filter (·.isEmitted)).take i).map (·.name)).count a.name) a := rfl
  -- a block for a member looks it up first
  have looked : m.Says
      (member.toList.map fun name =>
        .line ("auto& member = " ++ m.var ++ ".members.at(\"" ++ name ++ "\");"))
      (member.toList.map .memberAt) := by
    cases member with
    | none => exact says_nil
    | some name =>
      have mem : (["auto& member = " ++ m.var ++ ".members.at(\"", "\");"], .memberAt) ∈
          m.forms := by
        simp [forms]
      exact says_fill mem name
  unfold attributeBlock
  split
  next none =>
    rw [if_pos (by simp [entries, none])]
    exact says_nil
  next emitted some =>
    have lines := says_attributeLines (m := m) member.isSome [] (attributes.filter (·.isEmitted))
    simp only [List.count_nil, Nat.zero_add] at lines
    rw [if_neg (by simpa [entries] using some), MetadataBlock.statements]
    exact (looked.append lines).braces

end Maker

/-! Members, metadata and bases of a type. -/

def MemberClass.entryKind : MemberClass → EntryKind
  | nested _ => .nested
  | primitive | skip _ => .primitive

namespace EmitTarget

/-- The attributes of the type, then those of each emitted field. -/
def attributeOwners (t : EmitTarget) : List (Option String × List Attribute) :=
  (none, t.decl.attributes) ::
    t.classification.emitted.map fun m => (some m.field.name, m.field.attributes)

def metadataBlocks (t : EmitTarget) : List (MetadataBlock MetadataEntry) :=
  (t.attributeOwners.map fun owner => ⟨owner.1, metadata owner.2⟩).filter (!·.entries.isEmpty)

def statements (t : EmitTarget) : List Statement :=
  [.typeId t.qualifiedName, .typeName t.qualifiedName] ++
    if t.isFull then
      t.classification.emitted.map (fun m => Statement.member m.field.name m.memberClass.entryKind) ++
        t.metadataBlocks.flatMap (·.statements) ++ t.classification.bases.map .base
    else []

end EmitTarget

namespace Maker

def memberLine : Maker → Member → Code
  | reflector _ => Reflector.memberLine
  | prototype => Prototype.memberLine

def baseLine : Maker → BaseLink → CodeStep
  | reflector access => Reflector.baseLine access
  | prototype => Prototype.baseLine

def contents : Maker → EmitTarget → Code
  | reflector access, t => Reflector.contents t access
  | prototype, t => Prototype.contents t

def body (m : Maker) (t : EmitTarget) : Code :=
  m.opening.map .line ++ typeIdentity m.var t.qualifiedName ++ m.contents t ++
    m.closing.map .line

variable (m : Maker)

theorem contents_eq (t : EmitTarget) :
    m.contents t = if t.isFull then
        t.classification.emitted.flatMap m.memberLine ++ t.attributeSections m.var ++
          t.classification.bases.map m.baseLine
      else [] := by
  cases m <;> rfl

theorem memberLine_eq (x : Member) :
    m.memberLine x =
      match x.memberClass with
      | .primitive => [.line (m.primitiveForm.fill x.field.name)]
      | .nested _ => [.line (m.nestedForm.fill x.field.name)]
      | .skip _ => [] := by
  cases m <;> cases same : x.memberClass <;>
    simp only [-String.reduceAppend, memberLine, Reflector.memberLine, Prototype.memberLine, same,
      primitiveForm, nestedForm, Form.fill, Text.joinWith, String.append_assoc]

theorem baseLine_eq (b : BaseLink) :
    m.baseLine b =
      match b with
      | .delegate name => .line (m.delegateForm.fill name)
      | .placeholder name => .line (m.placeholderForm.fill name) := by
  rcases m with (_ | _) | _ <;> cases b <;>
    simp only [-String.reduceAppend, baseLine, Reflector.baseLine, Prototype.baseLine, delegateForm,
      placeholderForm, Reflector.Access.qualifier, Reflector.dataHandle, Form.fill, Text.joinWith,
      String.append_assoc, String.empty_append]

theorem says_memberLine {x : Member} (emitted : x.isEmitted = true) :
    m.Says (m.memberLine x) [.member x.field.name x.memberClass.entryKind] := by
  rw [memberLine_eq]
  cases same : x.memberClass with
  | primitive =>
    have mem : (m.primitiveForm, fun name => .member name .primitive) ∈ m.forms := by simp [forms]
    exact says_fill mem x.field.name
  | nested name =>
    have mem : (m.nestedForm, fun name => .member name .nested) ∈ m.forms := by simp [forms]
    exact says_fill mem x.field.name
  | skip reason => simp [Member.isEmitted, same, MemberClass.isEmitted] at emitted

theorem says_baseLine (b : BaseLink) : m.Says [m.baseLine b] [.base b] := by
  rw [baseLine_eq]
  cases b with
  | delegate name =>
    have mem : (m.delegateForm, fun name => .base (.delegate name)) ∈ m.forms := by simp [forms]
    exact says_fill mem name
  | placeholder name =>
    have mem : (m.placeholderForm, fun name => .base (.placeholder name)) ∈ m.forms := by
      simp [forms]
    exact says_fill mem name

theorem says_attributeSections (t : EmitTarget) :
    m.Says (t.attributeSections m.var) (t.metadataBlocks.flatMap (·.statements)) := by
  let block (owner : Option String × List Attribute) : List Statement :=
    if metadata owner.2 = [] then [] else MetadataBlock.statements ⟨owner.1, metadata owner.2⟩
  have blocks : t.metadataBlocks.flatMap (·.statements) = t.attributeOwners.flatMap block := by
    unfold EmitTarget.metadataBlocks
    induction t.attributeOwners with
    | nil => rfl
    | cons owner owners ih =>
      by_cases none : metadata owner.2 = [] <;> simp [block, none] at ih ⊢ <;> exact ih
  -- a field without attributes is not looked at, and has no metadata
  have fields : (t.classification.emitted.map fun x =>
      (some x.field.name, x.field.attributes)).flatMap block =
        t.classification.attributed.flatMap fun f => block (some f.name, f.attributes) := by
    unfold Classification.attributed
    induction t.classification.emitted with
    | nil => rfl
    | cons x members ih =>
      by_cases bare : x.field.attributes = [] <;> simp [block, bare, metadata] at ih ⊢ <;> exact ih
  rw [blocks, EmitTarget.attributeOwners, List.flatMap_cons, fields]
  exact (m.says_attributeBlock none t.decl.attributes).append
    (says_flatMap fun f _ => m.says_attributeBlock (some f.name) f.attributes)

theorem says_contents (t : EmitTarget) :
    m.Says (m.contents t)
      (if t.isFull then
        t.classification.emitted.map (fun m => Statement.member m.field.name m.memberClass.entryKind) ++
          t.metadataBlocks.flatMap (·.statements) ++ t.classification.bases.map Statement.base
      else []) := by
  rw [contents_eq]
  split
  · rw [List.map_eq_flatMap, List.map_eq_flatMap, List.map_eq_flatMap]
    have members := says_flatMap (m := m) fun x (mem : x ∈ t.classification.emitted) =>
      m.says_memberLine (List.mem_filter.mp mem).2
    have bases := says_flatMap (m := m) fun b (_ : b ∈ t.classification.bases) => m.says_baseLine b
    exact (members.append (m.says_attributeSections t)).append bases
  · exact says_nil

/-- The body of every maker says the same. -/
theorem says_body (t : EmitTarget) : m.Says (m.body t) t.statements := by
  have opening : m.Says (m.opening.map .line) [] := says_lines (by simp)
  have closing : m.Says (m.closing.map .line) [] := says_lines (by simp)
  have body := ((opening.append (m.says_typeIdentity t.qualifiedName)).append
    (m.says_contents t)).append closing
  rwa [List.nil_append, List.append_nil] at body

end Maker

end HeaderMeta
