import HeaderMeta.Config
import HeaderMeta.Declaration.Index
import HeaderMeta.Log.Event
import HeaderMeta.Reflection.Annotated
import HeaderMeta.Reflection.Verdict

/-! Verdicts of a module.

An attribute that opts in counts only when the comment-free text of the declaring header shows it on
the definition. An attribute that opts out comes next, then the policy for the record key. At last each
opted-out base of a reflectable type becomes a dummy.
-/

set_option autoImplicit false

namespace HeaderMeta

/-- The comment-free texts of the headers that can be read. -/
structure HeaderTexts where
  entries : List (Path × String)

namespace HeaderTexts

def ofFiles (read? : Path → Option String) (files : List Path) : HeaderTexts :=
  ⟨files.filterMap fun path => (read? path).map fun text => (path, Text.stripComments text)⟩

def get? (texts : HeaderTexts) (path : Path) : Option String :=
  (texts.entries.find? (·.1 = path)).map (·.2)

end HeaderTexts

def TypeDecl.shows (texts : HeaderTexts) (decl : TypeDecl) (a : Attribute) : Bool :=
  (texts.get? decl.path).any fun text => Annotated.shownIn decl.key.word decl.name a text

namespace PolicyConfig

def claims (policy : PolicyConfig) (decl : TypeDecl) (name : String) : List Attribute :=
  decl.attributes.filter fun a => a.name = name && policy.acceptsScope a.scope

def defaultVerdict (policy : PolicyConfig) (decl : TypeDecl) : Verdict :=
  let default := if decl.key = .cls then policy.classDefault else policy.structDefault
  match default with
  | .skip => .noReflectDefault
  | .dummy => .dummyRequired
  | .reflect => .reflectable

def verdict (policy : PolicyConfig) (texts : HeaderTexts) (decl : TypeDecl) : Verdict :=
  if (policy.claims decl policy.reflectAttribute).any (decl.shows texts) then .reflectable
  else if !(policy.claims decl policy.noReflectAttribute).isEmpty then .noReflectExplicit
  else policy.defaultVerdict decl

/-- Opting-in attributes that were looked for in vain, up to the first that was found. -/
def unshown (policy : PolicyConfig) (texts : HeaderTexts) (decl : TypeDecl) : List Attribute :=
  (policy.claims decl policy.reflectAttribute).takeWhile fun a => !decl.shows texts a

def verdictLog (policy : PolicyConfig) (texts : HeaderTexts) (decl : TypeDecl) : Log :=
  (policy.unshown texts decl).map (fun a =>
    .trace ("Attribute '" ++ a.qualifiedName ++ "' on '" ++ decl.qualifiedName ++
      "' has no matching annotation in " ++ decl.path.text)) ++
  [.debug ("'" ++ decl.qualifiedName ++ "' resolved to " ++ (policy.verdict texts decl).label)]

end PolicyConfig

namespace TypeIndex

def candidates (index : TypeIndex) (isCandidate : Path → Bool) : List IndexedType :=
  index.entries.filter fun t => isCandidate t.decl.path

/-- Candidates that get a verdict: public and no templates. -/
def eligible (index : TypeIndex) (isCandidate : Path → Bool) : List IndexedType :=
  (index.candidates isCandidate).filter fun t => !t.templated && t.accessible

/-- Resolved bases of the reflectable types that are opted out, in order. -/
def basesToPromote (index : TypeIndex) (verdicts : Verdicts) : List String :=
  verdicts.entries.flatMap fun e =>
    if e.2 = .reflectable then
      ((index.decl? e.1).map (·.bases)).getD [] |>.filterMap fun b =>
        b.resolved.filter fun name => (verdicts.get? name).any Verdict.isNoReflect
    else []

end TypeIndex

namespace Verdicts

def plain (policy : PolicyConfig) (texts : HeaderTexts) (index : TypeIndex)
    (isCandidate : Path → Bool) : Verdicts :=
  (index.eligible isCandidate).foldl
    (fun vs t => vs.insert t.name (policy.verdict texts t.decl)) {}

def promote (verdicts : Verdicts) (names : List String) : Verdicts :=
  names.foldl (fun vs name => vs.insert name .dummyRequired) verdicts

def ofModule (policy : PolicyConfig) (texts : HeaderTexts) (index : TypeIndex)
    (isCandidate : Path → Bool) : Verdicts :=
  let verdicts := plain policy texts index isCandidate
  verdicts.promote (index.basesToPromote verdicts)

def candidateLog (policy : PolicyConfig) (texts : HeaderTexts) (t : IndexedType) : Log :=
  if t.templated then [.debug ("Skipping template '" ++ t.name ++ "'")]
  else if !t.accessible then [.debug ("Skipping non-public nested type '" ++ t.name ++ "'")]
  else policy.verdictLog texts t.decl

def moduleLog (policy : PolicyConfig) (texts : HeaderTexts) (index : TypeIndex)
    (isCandidate : Path → Bool) : Log :=
  (index.candidates isCandidate).flatMap (candidateLog policy texts) ++
    (index.basesToPromote (plain policy texts index isCandidate)).map fun name =>
      .debug ("'" ++ name ++ "' promoted to dummy as a base of a reflectable type")

end Verdicts

end HeaderMeta
