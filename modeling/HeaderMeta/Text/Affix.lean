/-! Leading and trailing parts of a text, and joining with a separator. -/

set_option autoImplicit false

namespace HeaderMeta.Text

def after? : (lead cs : List Char) → Option (List Char)
  | [], cs => some cs
  | _ :: _, [] => none
  | l :: ls, c :: cs => if l = c then after? ls cs else none

theorem after?_eq_some {lead cs rest : List Char} (h : after? lead cs = some rest) :
    cs = lead ++ rest := by
  fun_induction after? lead cs with
  | case1 cs => simpa using h
  | case2 => simp at h
  | case3 l ls cs ih => simpa using ih h
  | case4 => simp at h

/-- Drop every repetition of `lead` at the front. An empty `lead` drops nothing. -/
def dropLeads (lead cs : List Char) : List Char :=
  match lead with
  | [] => cs
  | l :: ls =>
    match _h : after? (l :: ls) cs with
    | some rest => dropLeads (l :: ls) rest
    | none => cs
termination_by cs.length
decreasing_by
  rw [after?_eq_some _h]
  simp only [List.cons_append, List.length_cons, List.length_append]
  omega

def trimLeads (lead s : String) : String :=
  String.ofList (dropLeads lead.toList s.toList)

def dropLead? (lead s : String) : Option String :=
  (after? lead.toList s.toList).map String.ofList

def startsWith (s lead : String) : Bool :=
  (after? lead.toList s.toList).isSome

def endsWith (s tail : String) : Bool :=
  (after? tail.toList.reverse s.toList.reverse).isSome

def occursIn (part : List Char) : List Char → Bool
  | [] => part.isEmpty
  | c :: cs => (after? part (c :: cs)).isSome || occursIn part cs

def contains (s part : String) : Bool :=
  occursIn part.toList s.toList

def joinWith (sep : String) : List String → String
  | [] => ""
  | [part] => part
  | part :: parts => part ++ sep ++ joinWith sep parts

def replaceChar (old new : Char) (s : String) : String :=
  s.map fun c => if c = old then new else c

def asciiLower (s : String) : String :=
  s.map Char.toLower

end HeaderMeta.Text
