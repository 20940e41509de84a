/-! What becomes of a type: full artifacts, a dummy, or nothing. -/

set_option autoImplicit false

namespace HeaderMeta

inductive Verdict where
  | reflectable
  /-- Opted out by an attribute. -/
  | noReflectExplicit
  /-- Opted out by the policy for its record key. -/
  | noReflectDefault
  /-- Artifacts that carry the identity only. -/
  | dummyRequired
  deriving DecidableEq, Repr, Inhabited

namespace Verdict

def emits : Verdict → Bool
  | reflectable | dummyRequired => true
  | _ => false

def isNoReflect : Verdict → Bool
  | noReflectExplicit | noReflectDefault => true
  | _ => false

def label : Verdict → String
  | reflectable => "reflectable"
  | noReflectExplicit => "no_reflect (explicit)"
  | noReflectDefault => "no_reflect (default)"
  | dummyRequired => "dummy"

end Verdict

/-- Verdicts by qualified name, in the order in which the names were first entered. -/
structure Verdicts where
  entries : List (String × Verdict) := []
  deriving Repr

namespace Verdicts

def get? (vs : Verdicts) (name : String) : Option Verdict :=
  (vs.entries.find? (·.1 = name)).map (·.2)

def insertIn (name : String) (v : Verdict) : List (String × Verdict) → List (String × Verdict)
  | [] => [(name, v)]
  | e :: es => if e.1 = name then (name, v) :: es else e :: insertIn name v es

/-- Enter a verdict; a name that is there already keeps its place. -/
def insert (vs : Verdicts) (name : String) (v : Verdict) : Verdicts :=
  ⟨insertIn name v vs.entries⟩

def count (vs : Verdicts) (p : Verdict → Bool) : Nat :=
  vs.entries.countP fun e => p e.2

end Verdicts

end HeaderMeta
