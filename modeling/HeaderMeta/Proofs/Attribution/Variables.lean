import HeaderMeta.Proofs.Attribution.Emitted
import Mathlib.Data.List.DropRight

/-! Variables of attributes in generated code.

A block has one variable for each attribute it emits, made of the attribute's name and, from the second
of a name on, a number. Headers choose the names, and these may end the way such variables do. The digits
at the end of a variable still give its number and the text before them the name
(`attributeVariable_inj`), so a block declares no variable twice.
-/

set_option autoImplicit false

namespace HeaderMeta

open Grammar (isIdentifier)

section Encoding
variable {a b : String} {m n : Nat}

theorem toString_nat_inj (same : toString m = toString n) : m = n := by
  have digits : Nat.toDigits 10 m = Nat.toDigits 10 n := by
    simpa [Nat.toString_eq_repr, Nat.toList_repr] using congrArg String.toList same
  have read := congrArg (Nat.ofDigitChars 10 · 0) digits
  simpa [Nat.ofDigitChars_toDigits] using read

def variableEnd (repeats : Nat) : List Char :=
  if repeats = 0 then "_attr".toList else "_attr_".toList ++ (toString repeats).toList

theorem toList_attributeVariable (name : String) (repeats : Nat) :
    (attributeVariable name repeats).toList = name.toList ++ variableEnd repeats := by
  unfold attributeVariable variableEnd
  split <;> simp

theorem digits_attributeVariable (name : String) (repeats : Nat) :
    (attributeVariable name repeats).toList.rtakeWhile Char.isDigit =
      if repeats = 0 then [] else (toString repeats).toList := by
  rw [toList_attributeVariable, variableEnd]
  split
  next =>
    have ends : name.toList ++ "_attr".toList = (name.toList ++ "_att".toList) ++ ['r'] := by simp
    rw [ends, List.rtakeWhile_concat_neg _ _ _ (by decide)]
  next =>
    have digits : ∀ c ∈ (toString repeats).toList.reverse, c.isDigit = true := by
      intro c mem
      obtain ⟨d, ds, spelled, first, others⟩ := Lexeme.toString_digits repeats
      rw [List.mem_reverse, spelled] at mem
      rcases List.mem_cons.mp mem with rfl | later
      · exact first
      · exact List.all_eq_true.mp others c later
    -- the underscore before them is none
    have stop : ("_attr_".toList.reverse ++ name.toList.reverse).takeWhile Char.isDigit = [] := rfl
    rw [List.rtakeWhile, List.reverse_append, List.reverse_append, List.append_assoc,
      List.takeWhile_append_of_pos digits, stop, List.append_nil, List.reverse_reverse]

/-- A variable tells the name of its attribute and how often this occurred before, whatever the name ends
with. -/
theorem attributeVariable_inj :
    attributeVariable a m = attributeVariable b n ↔ a = b ∧ m = n := by
  constructor
  · intro same
    -- the digits at the end are the same, and once the numbers are, so is the text before them
    have numbers := (digits_attributeVariable a m).symm.trans
      ((congrArg (·.toList.rtakeWhile Char.isDigit) same).trans (digits_attributeVariable b n))
    have some (k : Nat) : (toString k).toList ≠ [] := by
      obtain ⟨d, ds, spelled, -⟩ := Lexeme.toString_digits k
      rw [spelled]
      exact List.cons_ne_nil d ds
    have equal : m = n := by
      by_cases zero : m = 0 <;> by_cases zero' : n = 0
      · exact zero.trans zero'.symm
      · rw [if_pos zero, if_neg zero'] at numbers
        exact absurd numbers.symm (some n)
      · rw [if_neg zero, if_pos zero'] at numbers
        exact absurd numbers (some m)
      · rw [if_neg zero, if_neg zero'] at numbers
        exact toString_nat_inj (String.toList_inj.mp numbers)
    subst equal
    have texts := congrArg String.toList same
    rw [toList_attributeVariable, toList_attributeVariable] at texts
    exact ⟨String.toList_inj.mp (List.append_cancel_right texts), rfl⟩
  · rintro ⟨rfl, rfl⟩
    rfl

/-- The other names that a generated body declares. -/
def localNames : List String :=
  ["member", "obj", "refl", "prot", "address"]

theorem attributeVariable_not_mem_localNames (name : String) (repeats : Nat) :
    attributeVariable name repeats ∉ localNames := by
  have underscore : '_' ∈ (attributeVariable name repeats).toList := by
    rw [toList_attributeVariable, variableEnd]
    split <;> simp
  have none : ∀ own ∈ localNames, '_' ∉ own.toList := by decide
  exact fun mem => none _ mem underscore

end Encoding

def Attribute.declares (a : Attribute) (var : String) : CodeStep :=
  .line ("static const " ++ a.qualifiedName ++ "_attribute " ++ var ++ "\x7b" ++
    Text.trim (a.arguments.getD "") ++ "\x7d;")

def attributeDeclarations (list : String) (attributes : List Attribute) (vars : List String) :
    Code :=
  (attributes.zip vars).flatMap fun (a, var) =>
    [a.declares var, .line (list ++ ".push_back(std::cref(" ++ var ++ "));")]

/-- The code is a block that declares `vars`, in order one for each emitted attribute; without any it is
nothing. -/
structure DeclaresVariables (preamble : Code) (list : String) (attributes : List Attribute)
    (vars : List String) (code : Code) : Prop where
  one : vars.length = (attributes.filter (·.isEmitted)).length
  lines : code =
    if vars = [] then [] else
      Code.braces (preamble ++ attributeDeclarations list (attributes.filter (·.isEmitted)) vars)

def attributeVariables (seen : List String) : List Attribute → List String
  | [] => []
  | a :: attributes =>
    attributeVariable a.name (seen.count a.name) :: attributeVariables (a.name :: seen) attributes

section Blocks
variable {preamble : Code} {list var : String} {seen vars others : List String}
  {attributes : List Attribute} {code : Code}

theorem length_attributeVariables (seen : List String) (attributes : List Attribute) :
    (attributeVariables seen attributes).length = attributes.length := by
  induction attributes generalizing seen with
  | nil => rfl
  | cons a attributes ih => rw [attributeVariables, List.length_cons, ih, List.length_cons]

theorem attributeLines_eq (list : String) (seen : List String) (attributes : List Attribute) :
    attributeLines list seen attributes =
      attributeDeclarations list attributes (attributeVariables seen attributes) := by
  induction attributes generalizing seen with
  | nil => rfl
  | cons a attributes ih =>
    rw [attributeLines, ih, attributeVariables]
    rfl

/-- Later variables have a number that counts the names before them. -/
theorem exists_of_mem_attributeVariables (mem : var ∈ attributeVariables seen attributes) :
    ∃ a ∈ attributes, ∃ repeats, seen.count a.name ≤ repeats ∧
      var = attributeVariable a.name repeats := by
  induction attributes generalizing seen with
  | nil => cases mem
  | cons a attributes ih =>
    rcases List.mem_cons.mp mem with here | later
    · exact ⟨a, List.mem_cons_self, _, Nat.le_refl _, here⟩
    · obtain ⟨b, among, repeats, enough, same⟩ := ih later
      have counted : seen.count b.name ≤ (a.name :: seen).count b.name :=
        List.count_le_count_cons
      exact ⟨b, List.mem_cons_of_mem _ among, repeats, counted.trans enough, same⟩

theorem nodup_attributeVariables (seen : List String) (attributes : List Attribute) :
    (attributeVariables seen attributes).Nodup := by
  induction attributes generalizing seen with
  | nil => exact List.nodup_nil
  | cons a attributes ih =>
    refine List.nodup_cons.mpr ⟨fun again => ?_, ih (a.name :: seen)⟩
    obtain ⟨b, -, repeats, enough, same⟩ := exists_of_mem_attributeVariables again
    obtain ⟨name, number⟩ := attributeVariable_inj.mp same
    -- the name counts itself from then on
    rw [← name, List.count_cons_self] at enough
    omega

theorem attributeDeclarations_inj (first : vars.length = attributes.length)
    (second : others.length = attributes.length)
    (same : attributeDeclarations list attributes vars =
      attributeDeclarations list attributes others) :
    vars = others := by
  induction attributes generalizing vars others with
  | nil => rw [List.eq_nil_of_length_eq_zero first, List.eq_nil_of_length_eq_zero second]
  | cons a attributes ih =>
    cases vars with
    | nil => cases first
    | cons var vars =>
      cases others with
      | nil => cases second
      | cons other others =>
        have here : a.declares var = a.declares other ∧
            attributeDeclarations list attributes vars =
              attributeDeclarations list attributes others := by
          obtain ⟨line, rest⟩ := List.cons.inj same
          exact ⟨line, (List.cons.inj rest).2⟩
        have texts := congrArg String.toList (CodeStep.line.inj here.1)
        simp only [String.toList_append, List.append_assoc, List.append_cancel_left_eq,
          List.append_cancel_right_eq] at texts
        rw [String.toList_inj.mp texts, ih (Nat.succ.inj first) (Nat.succ.inj second) here.2]

theorem DeclaresVariables.unique (first : DeclaresVariables preamble list attributes vars code)
    (second : DeclaresVariables preamble list attributes others code) : vars = others := by
  have same := first.lines.symm.trans second.lines
  have length : vars.length = others.length := first.one.trans second.one.symm
  by_cases none : vars = []
  · rw [none] at length ⊢
    exact (List.eq_nil_of_length_eq_zero length.symm).symm
  · have some : others ≠ [] := by
      rintro rfl
      exact none (List.eq_nil_of_length_eq_zero length)
    rw [if_neg none, if_neg some] at same
    have lines := List.append_cancel_left (List.append_cancel_right (List.cons.inj same).2)
    exact attributeDeclarations_inj first.one second.one lines

theorem declares_attributeBlock (preamble : Code) (list : String) (attributes : List Attribute) :
    DeclaresVariables preamble list attributes
      (attributeVariables [] (attributes.filter (·.isEmitted)))
      (attributeBlock preamble list attributes) where
  one := length_attributeVariables _ _
  lines := by
    unfold attributeBlock
    split
    next none => rw [none, attributeVariables, if_pos rfl]
    next some =>
      have filled : attributeVariables [] (attributes.filter (·.isEmitted)) ≠ [] := by
        intro none
        have size := congrArg List.length none
        rw [length_attributeVariables] at size
        exact some (List.eq_nil_of_length_eq_zero size)
      rw [if_neg filled, attributeLines_eq]

end Blocks

/-- The variables that the block of some attributes declares, one for each emitted attribute in order, are
identifiers, all different, and none of them is a name that the body around the block declares. -/
theorem attributeBlock_variables_distinct (preamble : Code) (list : String)
    {attributes : List Attribute} (names : ∀ a ∈ attributes, isIdentifier a.name = true) :
    ∃ vars : List String,
      (∀ others, DeclaresVariables preamble list attributes others
        (attributeBlock preamble list attributes) ↔ others = vars) ∧
      vars.Nodup ∧ ∀ var ∈ vars, isIdentifier var = true ∧ var ∉ localNames := by
  have declares := declares_attributeBlock preamble list attributes
  refine ⟨attributeVariables [] (attributes.filter (·.isEmitted)), fun others => ⟨?_, ?_⟩,
    nodup_attributeVariables _ _, fun var mem => ?_⟩
  · exact fun other => other.unique declares
  · rintro rfl
    exact declares
  · obtain ⟨a, among, repeats, -, rfl⟩ := exists_of_mem_attributeVariables mem
    have identifier := names a (List.mem_of_mem_filter among)
    exact ⟨isIdentifier_attributeVariable identifier repeats,
      attributeVariable_not_mem_localNames a.name repeats⟩

def imitating : List Attribute :=
  ["x", "x_attr", "x", "nodiscard", "x_attr_1", "x_attr"].map fun name => { scope := none, name }

theorem attributeBlock_variables_distinct_imitating :
    (∀ a ∈ imitating, isIdentifier a.name = true) ∧
      DeclaresVariables [] "list" imitating
        ["x_attr", "x_attr_attr", "x_attr_1", "x_attr_1_attr", "x_attr_attr_1"]
        (attributeBlock [] "list" imitating) ∧
      ["x_attr", "x_attr_attr", "x_attr_1", "x_attr_1_attr", "x_attr_attr_1"].Nodup := by
  have names : ∀ a ∈ imitating, isIdentifier a.name = true := by decide
  obtain ⟨vars, declared, distinct, -⟩ := attributeBlock_variables_distinct [] "list" names
  have same : vars = ["x_attr", "x_attr_attr", "x_attr_1", "x_attr_1_attr", "x_attr_attr_1"] := by
    refine ((declared _).mp (declares_attributeBlock [] "list" imitating)).symm.trans ?_
    decide +kernel
  rw [same] at declared distinct
  exact ⟨names, (declared _).mpr rfl, distinct⟩

end HeaderMeta
