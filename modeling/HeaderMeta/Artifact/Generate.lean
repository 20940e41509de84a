import HeaderMeta.Artifact.Prototype
import HeaderMeta.Artifact.Reflector

/-! The four files of a type. -/

set_option autoImplicit false

namespace HeaderMeta

def EmitTarget.code (t : EmitTarget) (emit : EmitConfig) : ArtifactKind → Code
  | .reflectorHeader => Reflector.header t emit
  | .reflectorImpl => Reflector.implementation t emit
  | .prototypeHeader => Prototype.header t emit
  | .prototypeImpl => Prototype.implementation t emit

def Artifact.generate (emit : EmitConfig) (outputDir : Path) (decl : TypeDecl) (verdict : Verdict)
    (classification : Classification) (stem : String) : List Artifact :=
  let target : EmitTarget :=
    { decl, verdict, classification, stem
      sourceInclude := relativeInclude decl.path outputDir }
  ArtifactKind.all.map fun kind =>
    { kind, typeName := decl.qualifiedName, path := outputDir.child (kind.fileName stem)
      content := (target.code emit kind).text }

end HeaderMeta
