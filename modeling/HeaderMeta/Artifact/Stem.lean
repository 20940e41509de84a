import HeaderMeta.Declaration

/-! File name stems, distinct within one pass over a module.

A type takes its plain name while that is free, then its name with all scopes, then that name with
the first free number from two on.
-/

set_option autoImplicit false

namespace HeaderMeta

/-- Stems in use. With `foldCase` two stems that differ only in ASCII case are the same. -/
structure Stems where
  used : List String := []
  foldCase : Bool

namespace Stems

def key (s : Stems) (stem : String) : String :=
  if s.foldCase then Text.asciiLower stem else stem

def isFree (s : Stems) (stem : String) : Bool :=
  !s.used.contains (s.key stem)

def claim (s : Stems) (stem : String) : Stems :=
  { s with used := s.key stem :: s.used }

def mangled (decl : TypeDecl) : String :=
  Text.joinWith "_" decl.scope

/-- Numbered stems in order, one more than there are stems in use. -/
def numbered (s : Stems) (decl : TypeDecl) : List String :=
  (List.range (s.used.length + 1)).map fun n => mangled decl ++ "_" ++ toString (n + 2)

def choose (s : Stems) (decl : TypeDecl) : String :=
  ((decl.name :: mangled decl :: s.numbered decl).find? s.isFree).getD ""

def allocate (s : Stems) (decl : TypeDecl) : String × Stems :=
  (s.choose decl, s.claim (s.choose decl))

end Stems

end HeaderMeta
