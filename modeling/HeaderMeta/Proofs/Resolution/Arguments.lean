import HeaderMeta.Proofs.Grammar.Parts
import HeaderMeta.Symbol

/-! Names with template arguments.

The arguments of a spelling play no part in what its name is looked up as. They are put back behind the
name that is found, so a base is named as without them, with the arguments behind.
-/

set_option autoImplicit false

namespace HeaderMeta

namespace Text
variable {lead cs ds : List Char} {x : Char}

theorem after?_append (foreign : x ∉ lead) :
    after? lead (cs ++ x :: ds) = (after? lead cs).map (· ++ x :: ds) := by
  induction lead generalizing cs with
  | nil => rfl
  | cons l ls ih =>
    obtain ⟨notFirst, notLater⟩ := not_or.mp (List.mem_cons.not.mp foreign)
    cases cs with
    | nil => simp [after?, Ne.symm notFirst]
    | cons c cs =>
      rw [List.cons_append, after?, after?]
      split
      · exact ih notLater
      · rfl

theorem dropLeads_append (foreign : x ∉ lead) :
    dropLeads lead (cs ++ x :: ds) = dropLeads lead cs ++ x :: ds := by
  fun_induction dropLeads lead cs with
  | case1 => rw [dropLeads]
  | case2 cs l ls rest found ih =>
    rw [dropLeads]
    split
    next more read =>
      rw [after?_append foreign, found] at read
      cases read
      exact ih foreign
    next read => simp [after?_append foreign, found] at read
  | case3 cs l ls none =>
    rw [dropLeads]
    split
    next more read => simp [after?_append foreign, none] at read
    next => rfl

theorem dropLeads_suffix (lead cs : List Char) : dropLeads lead cs <:+ cs := by
  fun_induction dropLeads lead cs with
  | case1 | case3 => exact List.suffix_rfl
  | case2 cs l ls rest found ih =>
    exact ih.trans ⟨l :: ls, (after?_eq_some found).symm⟩

theorem mem_go (solid : isBlank x = false) {word : List Char} (mem : x ∈ cs ∨ x ∈ word) :
    ∃ w ∈ blankSeparated.go cs word, x ∈ w.toList := by
  have closed {word : List Char} (mem : x ∈ word) : ∃ w ∈ blankSeparated.close word, x ∈ w.toList := by
    refine ⟨String.ofList word.reverse, ?_, by simpa using mem⟩
    have some : word ≠ [] := List.ne_nil_of_mem mem
    simp [blankSeparated.close, some]
  induction cs generalizing word with
  | nil => exact closed (mem.resolve_left List.not_mem_nil)
  | cons c cs ih =>
    rw [blankSeparated.go]
    split
    next blank =>
      simp only [List.mem_append]
      rcases mem with inner | before
      · rcases List.mem_cons.mp inner with rfl | later
        · simp [blank] at solid
        · obtain ⟨w, among, own⟩ : ∃ w ∈ blankSeparated.go cs [], x ∈ w.toList := ih (.inl later)
          exact ⟨w, .inr among, own⟩
      · obtain ⟨w, among, own⟩ := closed before
        exact ⟨w, .inl among, own⟩
    next =>
      refine ih ?_
      rcases mem with inner | before
      · rcases List.mem_cons.mp inner with rfl | later
        · exact .inr List.mem_cons_self
        · exact .inl later
      · exact .inr (List.mem_cons_of_mem c before)

end Text

structure IsBareName (name : String) : Prop where
  some : name ≠ ""
  solid : ∀ c ∈ name.toList, Text.isBlank c = false
  noAngle : ∀ c ∈ name.toList, (c != '<') = true

structure IsAngled (args : String) : Prop where
  first : args.toList.head? = some '<'
  last : args.toList.getLast? = some '>'

section Names
variable {name args : String}

theorem IsBareName.trimEndChars (bare : IsBareName name) :
    Text.trimEndChars name.toList = name.toList := by
  have stays : name.toList.reverse.dropWhile Text.isBlank = name.toList.reverse := by
    cases ends : name.toList.reverse with
    | nil => rfl
    | cons c cs =>
      have among : c ∈ name.toList := List.mem_reverse.mp (ends ▸ List.mem_cons_self)
      exact List.dropWhile_cons_of_neg (by simp [bare.solid c among])
  rw [Text.trimEndChars, stays, List.reverse_reverse]

theorem IsBareName.trim (bare : IsBareName name) : Text.trim name = name := by
  have whole : Text.trimChars ([] ++ name.toList ++ []) = name.toList :=
    Grammar.trimChars_append nofun nofun
    (fun c mem => bare.solid c (List.mem_of_mem_head? mem))
    (fun c mem => bare.solid c (List.mem_of_getLast? mem))
  rw [List.nil_append, List.append_nil] at whole
  rw [Text.trim, whole, String.ofList_toList]

theorem IsBareName.trim_append (bare : IsBareName name) (angled : IsAngled args) :
    Text.trim (name ++ args) = name ++ args := by
  have first : ∀ c ∈ (name ++ args).toList.head?, Text.isBlank c = false := by
    cases own : name.toList with
    | nil => exact absurd (String.toList_eq_nil_iff.mp own) bare.some
    | cons c cs =>
      rintro d mem
      rw [String.toList_append, own] at mem
      obtain rfl := Option.some.inj mem
      exact bare.solid c (by simp [own])
  have last : ∀ c ∈ (name ++ args).toList.getLast?, Text.isBlank c = false := by
    rw [String.toList_append, List.getLast?_append, angled.last]
    rintro c ⟨⟩
    decide
  have whole : Text.trimChars ([] ++ (name ++ args).toList ++ []) = (name ++ args).toList :=
    Grammar.trimChars_append nofun nofun first last
  rw [List.nil_append, List.append_nil] at whole
  rw [Text.trim, whole, String.ofList_toList]

end Names

namespace Grammar

theorem Name.isWordPart (n : Name) : ∀ c ∈ n.text.toList, Lexeme.isWordPart c = true :=
  Lexeme.isWordPart_of_isIdentifier n.identifier

theorem ScopedName.isWordPart_or_colon (n : ScopedName) :
    ∀ c ∈ n.text.toList, Lexeme.isWordPart c = true ∨ c = ':' := by
  obtain ⟨outer, last⟩ := n
  induction outer with
  | nil => exact fun c mem => .inl (last.isWordPart c mem)
  | cons o outer ih =>
    intro c mem
    rw [text_cons] at mem
    simp only [String.toList_append, List.mem_append] at mem
    rcases mem with (own | colons) | later
    · exact .inl (o.isWordPart c own)
    · exact .inr (by simpa using colons)
    · exact ih c later

theorem isBareName_of_isWordPart {name : String} (some : name ≠ "")
    (within : ∀ c ∈ name.toList, Lexeme.isWordPart c = true ∨ c = ':') : IsBareName name := by
  refine ⟨some, fun c mem => ?_, fun c mem => ?_⟩
  · rcases within c mem with part | rfl
    · exact isBlank_eq_false_of_isWordPart part
    · decide
  · rw [bne_iff_ne]
    rintro rfl
    exact absurd (within _ mem) (by decide)

theorem ScopedName.isBareName (n : ScopedName) : IsBareName n.text :=
  isBareName_of_isWordPart n.text_ne_empty n.isWordPart_or_colon

theorem ScopedName.isBareName_absolute (n : ScopedName) : IsBareName ("::" ++ n.text) :=
  isBareName_of_isWordPart (by simp) (by simpa using n.isWordPart_or_colon)

end Grammar

namespace SymbolTable
variable {name args : String} {scope : List String}

theorem splitArgs_append (bare : IsBareName name) (angled : IsAngled args) :
    splitArgs (name ++ args) = (name, some args) := by
  obtain ⟨ds, own⟩ := List.head?_eq_some_iff.mp angled.first
  have rest : (name ++ args).toList.dropWhile (· != '<') = '<' :: ds := by
    rw [String.toList_append, List.dropWhile_append_of_pos bare.noAngle, own]
    rfl
  have before : (name ++ args).toList.takeWhile (· != '<') = name.toList := by
    rw [String.toList_append, List.takeWhile_append_of_pos bare.noAngle, own]
    simp
  have back : String.ofList ('<' :: ds) = args := by rw [← own, String.ofList_toList]
  simp only [splitArgs, rest, before, bare.trimEndChars, back, String.ofList_toList]

theorem splitArgs_bare (bare : IsBareName name) : splitArgs name = (name, none) := by
  have all : name.toList.dropWhile (· != '<') = [] := List.dropWhile_eq_nil_iff.mpr bare.noAngle
  simp only [splitArgs, all]

theorem isBuiltin_append (angled : IsAngled args) : isBuiltin (name ++ args) = false := by
  have last : (name ++ args).toList.getLast? = some '>' := by
    rw [String.toList_append, List.getLast?_append, angled.last]
    rfl
  have among : '>' ∈ (name ++ args).toList := List.mem_of_getLast? last
  have notFixed : fixedWidth.contains (Text.trimLeads "std::" (Text.trimLeads "::" (name ++ args))) =
      false := by
    have none : ∀ w ∈ fixedWidth, w.toList ≠ [] ∧ w.toList.getLast? ≠ some '>' := by decide
    rw [List.contains_eq_mem, decide_eq_false_iff_not]
    intro mem
    obtain ⟨filled, ends⟩ := none _ mem
    have behind : (Text.trimLeads "std::" (Text.trimLeads "::" (name ++ args))).toList <:+
        (name ++ args).toList := by
      simp only [Text.trimLeads, String.toList_ofList]
      exact (Text.dropLeads_suffix _ _).trans (Text.dropLeads_suffix _ _)
    obtain ⟨before, whole⟩ := behind
    rw [← whole, List.getLast?_append_of_ne_nil _ filled] at last
    exact ends last
  have notWords : (Text.blankSeparated (name ++ args)).all builtinWords.contains = false := by
    obtain ⟨w, mem, own⟩ : ∃ w ∈ Text.blankSeparated (name ++ args), '>' ∈ w.toList :=
      Text.mem_go (by decide) (.inl among)
    have none : ∀ w ∈ builtinWords, '>' ∉ w.toList := by decide
    rw [List.all_eq_false]
    refine ⟨w, mem, ?_⟩
    rw [List.contains_eq_mem, decide_eq_true_iff]
    exact fun known => none w known own
  unfold isBuiltin
  dsimp only
  rw [notFixed, notWords, Bool.and_false, Bool.or_false]

theorem resolve_of_kind {table : SymbolTable} {spelling : String} {kind : TypeKind}
    (meant : table.meaning (Text.trim spelling) scope = .kind kind) :
    table.resolve spelling scope = kind := by
  rw [resolve, follow]
  split
  next found =>
    rw [meant] at found
    cases found
    rfl
  next found =>
    rw [meant] at found
    cases found

/-- An undeclared name stands for a standard library record with the arguments that it is written
with, or for nothing. -/
theorem undeclared_eq (table : SymbolTable) (base : String) (scope : List String) :
    (∃ q, ∀ args, table.undeclared base args scope = .record q args) ∨
      ∀ args, table.undeclared base args scope = .unresolved := by
  unfold undeclared
  dsimp only
  split
  · exact .inl ⟨_, fun _ => rfl⟩
  · split
    · exact .inl ⟨_, fun _ => rfl⟩
    · exact .inr fun _ => rfl

/-- A base that is no alias is looked up as without its arguments, and named with them. -/
theorem resolveBase_append (table : SymbolTable) (bare : IsBareName name) (angled : IsAngled args)
    (declared : isBuiltin name = false)
    (noAlias : ∀ entry inner target, table.lookup name scope ≠ some (entry, .synonym inner target)) :
    table.resolveBase (name ++ args) scope = (table.resolveBase name scope).map (· ++ args) := by
  -- the arguments are split off before the name is looked up, so both names mean the same entry
  have long : table.meaning (Text.trim (name ++ args)) scope = (table.lookup name scope).elim
      (.kind (table.undeclared name (some args) scope)) (.ofEntry (some args)) := by
    rw [bare.trim_append angled, meaning, isBuiltin_append angled, splitArgs_append bare angled,
      if_neg Bool.false_ne_true]
    dsimp only
    cases table.lookup name scope <;> rfl
  have short : table.meaning (Text.trim name) scope = (table.lookup name scope).elim
      (.kind (table.undeclared name none scope)) (.ofEntry none) := by
    rw [bare.trim, meaning, declared, splitArgs_bare bare, if_neg Bool.false_ne_true]
    dsimp only
    cases table.lookup name scope <;> rfl
  cases found : table.lookup name scope with
  | none =>
    rw [found, Option.elim_none] at long short
    rw [resolveBase, resolve_of_kind long, resolveBase, resolve_of_kind short]
    rcases table.undeclared_eq name scope with ⟨q, standard⟩ | nothing
    · simp [standard, TypeKind.canonical]
    · simp [nothing, TypeKind.canonical]
  | some entry =>
    rw [found, Option.elim_some] at long short
    obtain ⟨q, symbol⟩ := entry
    cases symbol with
    | record | enumeration =>
      rw [resolveBase, resolve_of_kind long, resolveBase, resolve_of_kind short]
      simp [TypeKind.canonical]
    | synonym inner target => exact absurd found (noAlias q inner target)

end SymbolTable

/-- The name of a base in generated code ends with the arguments it was written with. -/
theorem Base.displayName_append (table : SymbolTable) {scope : List String} {name args : String}
    (bare : IsBareName name) (angled : IsAngled args) (declared : SymbolTable.isBuiltin name = false)
    (noAlias : ∀ entry inner target, table.lookup name scope ≠ some (entry, .synonym inner target))
    (access : Visibility) (isVirtual : Bool) :
    Base.displayName ⟨name ++ args, table.resolveBase (name ++ args) scope, access, isVirtual⟩ =
      Base.displayName ⟨name, table.resolveBase name scope, access, isVirtual⟩ ++ args := by
  obtain ⟨ds, own⟩ := List.head?_eq_some_iff.mp angled.first
  have plain : Text.trimLeads "::" (name ++ args) = Text.trimLeads "::" name ++ args := by
    rw [Text.trimLeads, String.toList_append, own, Text.dropLeads_append (by decide), String.ofList_append,
      ← own, String.ofList_toList]
    rfl
  rw [Base.displayName, Base.displayName, table.resolveBase_append bare angled declared noAlias, plain]
  cases table.resolveBase name scope <;> rfl

end HeaderMeta
