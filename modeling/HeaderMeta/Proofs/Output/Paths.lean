import HeaderMeta.SourceModule
import HeaderMeta.Umbrella

/-! Names put behind a directory, as text, as parts and as components. -/

set_option autoImplicit false

namespace HeaderMeta

namespace Text

theorem startsWith_iff {s lead : String} :
    startsWith s lead = true ↔ ∃ rest, s.toList = lead.toList ++ rest := by
  have after (lead cs : List Char) : (after? lead cs).isSome ↔ ∃ rest, cs = lead ++ rest := by
    constructor
    · intro some
      obtain ⟨rest, found⟩ := Option.isSome_iff_exists.mp some
      exact ⟨rest, after?_eq_some found⟩
    · rintro ⟨rest, rfl⟩
      induction lead with
      | nil => rfl
      | cons c lead ih => simpa [after?] using ih
  exact after lead.toList s.toList

theorem joinWith_concat (sep : String) (parts : List String) (last : String) :
    joinWith sep (parts ++ [last]) =
      if parts = [] then last else joinWith sep parts ++ sep ++ last := by
  induction parts with
  | nil => rfl
  | cons part parts ih =>
    cases parts with
    | nil => rfl
    | cons next rest =>
      simp only [List.cons_append, joinWith] at ih ⊢
      rw [ih]
      simp [String.append_assoc]

end Text

namespace Path

structure IsName (name : String) : Prop where
  ne_empty : name ≠ ""
  ne_dot : name ≠ "."
  ne_dots : name ≠ ".."
  noSlash : '/' ∉ name.toList
  noNull : '\x00' ∉ name.toList

section Pieces

theorem pieces_ne_nil (sep : Char) (cs : List Char) : pieces sep cs ≠ [] := by
  cases cs with
  | nil => simp [pieces]
  | cons c cs =>
    rw [pieces]
    split
    · simp
    · split <;> simp

theorem pieces_append (sep : Char) (cs ds : List Char) :
    pieces sep (cs ++ sep :: ds) = pieces sep cs ++ pieces sep ds := by
  induction cs with
  | nil =>
    cases rest : pieces sep ds with
    | nil => exact absurd rest (pieces_ne_nil sep ds)
    | cons part parts => simp [pieces, rest]
  | cons c cs ih =>
    rw [List.cons_append, pieces, ih, pieces]
    cases first : pieces sep cs with
    | nil => exact absurd first (pieces_ne_nil sep cs)
    | cons part parts => by_cases same : c = sep <;> simp [same]

theorem pieces_of_not_mem {sep : Char} {cs : List Char} (absent : sep ∉ cs) :
    pieces sep cs = [cs] := by
  induction cs with
  | nil => rfl
  | cons c cs ih =>
    rw [List.mem_cons, not_or] at absent
    rw [pieces, ih absent.2]
    simp [Ne.symm absent.1]

end Pieces

section Join
variable {p q : Path}

theorem endsWith_iff {s tail : String} :
    Text.endsWith s tail = true ↔ ∃ before, s = before ++ tail := by
  unfold Text.endsWith
  constructor
  · intro ends
    obtain ⟨rest, found⟩ := Option.isSome_iff_exists.mp ends
    refine ⟨String.ofList rest.reverse, String.toList_injective ?_⟩
    have reversed := congrArg List.reverse (Text.after?_eq_some found)
    simpa using reversed
  · rintro ⟨before, rfl⟩
    have starts : Text.startsWith (String.ofList (before ++ tail).toList.reverse)
        (String.ofList tail.toList.reverse) = true :=
      Text.startsWith_iff.mpr ⟨before.toList.reverse, by simp⟩
    simpa [Text.startsWith] using starts

theorem not_isAbsolute {name : String} (isName : IsName name) : isAbsolute ⟨name⟩ = false := by
  rw [Bool.eq_false_iff]
  intro absolute
  obtain ⟨rest, spelled⟩ := Text.startsWith_iff.mp absolute
  exact isName.noSlash (by simp [spelled])

theorem exists_text_join (written : p.text ≠ "") (relative : q.isAbsolute = false) :
    ∃ before, (p.join q).text = before ++ "/" ++ q.text ∧
      (p.text = before ∨ p.text = before ++ "/") := by
  unfold join
  rw [relative]
  by_cases slash : Text.endsWith p.text "/" = true
  · obtain ⟨before, same⟩ := endsWith_iff.mp slash
    exact ⟨before, by simp only [written, slash]; simp [same], .inr same⟩
  · exact ⟨p.text, by simp [written, slash], .inl rfl⟩

theorem parts_join (written : p.text ≠ "") (relative : q.isAbsolute = false) :
    ∃ before, (p.join q).parts = before ++ q.parts ∧ before ≠ [] ∧
      (p.parts = before ∨ p.parts = before ++ [""]) := by
  obtain ⟨before, text, own⟩ := exists_text_join written relative
  refine ⟨(pieces '/' before.toList).map String.ofList, ?_, by simp [pieces_ne_nil], ?_⟩
  · rw [parts, text, String.append_assoc]
    simp [parts, pieces_append]
  · rcases own with same | same
    · exact .inl (by rw [parts, same])
    · exact .inr (by simp [parts, same, pieces_append, pieces])

theorem isAbsolute_join (written : p.text ≠ "") (relative : q.isAbsolute = false) :
    (p.join q).isAbsolute = p.isAbsolute := by
  obtain ⟨before, text, own⟩ := exists_text_join written relative
  obtain ⟨c, cs, spelled⟩ := List.exists_cons_of_ne_nil (mt String.toList_eq_nil_iff.mp written)
  have more : ∃ more, (p.join q).text.toList = c :: more := by
    rw [text]
    rcases own with same | same
    · exact ⟨_, by rw [← same, String.toList_append, String.toList_append, spelled]; rfl⟩
    · exact ⟨_, by rw [← same, String.toList_append, spelled]; rfl⟩
  obtain ⟨more, spelled'⟩ := more
  simp only [isAbsolute, Text.startsWith, spelled, spelled', String.reduceToList, Text.after?]
  split <;> rfl

/-- What a path that starts with neither a slash nor a `.` adds to the one it is put behind. -/
theorem components_join (p : Path) (bare : q.front = []) :
    (p.join q).components = p.components ++ q.components := by
  have relative : q.isAbsolute = false := by
    rw [Bool.eq_false_iff]
    intro absolute
    simp [front, absolute] at bare
  by_cases written : p.text = ""
  · obtain rfl : p = ⟨""⟩ := by cases p; simpa using written
    rw [join, relative]
    rfl
  obtain ⟨before, split, some, own⟩ := parts_join written relative
  have same : (p.join q).front = p.front := by
    obtain ⟨first, rest, rfl⟩ := List.exists_cons_of_ne_nil some
    rw [front, front, isAbsolute_join written relative, split]
    rcases own with own | own <;> simp [own]
  have kept : p.parts.filterMap Component.ofPart? = before.filterMap Component.ofPart? := by
    rcases own with own | own
    · rw [own]
    · rw [own, List.filterMap_append]
      simp [Component.ofPart?]
  rw [components, components, components, same, split, bare, kept]
  simp

theorem components_name {name : String} (isName : IsName name) :
    front ⟨name⟩ = [] ∧ components ⟨name⟩ = [.normal name] := by
  have parts : parts ⟨name⟩ = [name] := by
    simp [Path.parts, pieces_of_not_mem isName.noSlash]
  have bare : front ⟨name⟩ = [] := by
    simp [front, not_isAbsolute isName, parts, isName.ne_dot]
  refine ⟨bare, ?_⟩
  rw [components, bare, parts]
  simp [Component.ofPart?, isName.ne_empty, isName.ne_dot, isName.ne_dots]

/-- Whatever the directory, a name put behind it is one more component. -/
theorem components_child (p : Path) {name : String} (isName : IsName name) :
    (p.child name).components = p.components ++ [Component.normal name] := by
  obtain ⟨bare, own⟩ := components_name isName
  rw [child, components_join p bare, own]

theorem isAbsolute_child (p : Path) {name : String} (isName : IsName name) :
    (p.child name).isAbsolute = p.isAbsolute := by
  by_cases written : p.text = ""
  · have whole : p.child name = ⟨name⟩ := by simp [child, join, written]
    have relative : p.isAbsolute = false := by
      rw [isAbsolute, written]
      rfl
    rw [whole, relative, not_isAbsolute isName]
  · exact isAbsolute_join written (not_isAbsolute isName)

end Join

section Child
variable {p : Path} {name : String}

/-- A text that ends with a name, the whole of it or what follows its last slash. -/
def EndsIn (p : Path) (name : String) : Prop :=
  p.text = name ∨ ∃ before, p.text = before ++ "/" ++ name

theorem parts_of_endsIn (isName : IsName name) (ends : p.EndsIn name) :
    ∃ before, p.parts = before ++ [name] := by
  have last : (pieces '/' name.toList).map String.ofList = [name] := by
    simp [pieces_of_not_mem isName.noSlash]
  rcases ends with whole | ⟨before, tail⟩
  · exact ⟨[], by rw [parts, whole, last]; rfl⟩
  · refine ⟨(pieces '/' before.toList).map String.ofList, ?_⟩
    have split : p.text.toList = before.toList ++ '/' :: name.toList := by simp [tail]
    rw [parts, split, pieces_append, List.map_append, last]

theorem text_ne_empty (isName : IsName name) (ends : p.EndsIn name) : p.text ≠ "" := by
  rcases ends with whole | ⟨before, tail⟩
  · exact whole ▸ isName.ne_empty
  · simp [tail]

theorem endsWith_slash (isName : IsName name) (ends : p.EndsIn name) :
    Text.endsWith p.text "/" = false := by
  obtain ⟨init, last, spelled⟩ : ∃ init last, name.toList = init ++ [last] := by
    rcases List.eq_nil_or_concat name.toList with none | ⟨init, last, concat⟩
    · exact absurd (String.toList_eq_nil_iff.mp none) isName.ne_empty
    · exact ⟨init, last, by simpa using concat⟩
  have notSlash : '/' ≠ last := by
    rintro rfl
    exact isName.noSlash (by simp [spelled])
  have reversed : ∃ more, p.text.toList.reverse = last :: more := by
    rcases ends with whole | ⟨before, tail⟩
    · exact ⟨init.reverse, by simp [whole, spelled]⟩
    · exact ⟨init.reverse ++ '/' :: before.toList.reverse, by simp [tail, spelled]⟩
  obtain ⟨more, reversed⟩ := reversed
  simp [Text.endsWith, reversed, Text.after?, notSlash]

variable {dir : String} (isDir : IsName dir) (ends : p.EndsIn dir) (isName : IsName name)
include isDir ends isName

theorem text_child : (p.child name).text = p.text ++ "/" ++ name := by
  rw [child, join, not_isAbsolute isName]
  simp [text_ne_empty isDir ends, endsWith_slash isDir ends]

theorem child_endsIn : (p.child name).EndsIn name :=
  .inr ⟨p.text, text_child isDir ends isName⟩

end Child

section Difference

theorem difference_append (cs more : List Component) :
    difference (cs ++ more) cs false = some more := by
  induction cs with
  | nil => cases more <;> rfl
  | cons d cs ih => simpa [difference] using ih

/-- From a directory a file in it is seen by its name. -/
theorem relativeTo_child (p : Path) {name : String} (isName : IsName name) :
    (p.child name).relativeTo p = ⟨name⟩ := by
  rw [relativeTo, isAbsolute_child p isName, components_child p isName,
    difference_append]
  simp [ofComponents, Text.joinWith, Component.name]

theorem slashed_of_not_mem {p : Path} (plain : '\\' ∉ p.text.toList) : p.slashed = p.text := by
  apply String.toList_injective
  rw [slashed, Text.replaceChar, String.toList_map]
  refine (List.map_congr_left fun c mem => ?_).trans (List.map_id _)
  rw [if_neg]
  · rfl
  · rintro rfl
    exact plain mem

end Difference

section Output

theorem endsIn_child (p : Path) {name : String} (isName : IsName name) :
    (p.child name).EndsIn name := by
  by_cases written : p.text = ""
  · exact .inl (by simp [child, join, written])
  · obtain ⟨before, text, -⟩ := exists_text_join written (not_isAbsolute isName)
    exact .inr ⟨before, text⟩

theorem components_of_endsIn {p : Path} {name : String} (isName : IsName name)
    (ends : p.EndsIn name) : ∃ before, p.components = before ++ [Component.normal name] := by
  obtain ⟨before, split⟩ := parts_of_endsIn isName ends
  have own : Component.ofPart? name = some (.normal name) := by
    simp [Component.ofPart?, isName.ne_empty, isName.ne_dot, isName.ne_dots]
  exact ⟨p.front ++ before.filterMap Component.ofPart?, by simp [components, split, own]⟩

theorem fileName?_child (p : Path) {name : String} (isName : IsName name) :
    (p.child name).fileName? = some name := by
  obtain ⟨before, split⟩ := components_of_endsIn isName (p.endsIn_child isName)
  simp [fileName?, split]

theorem reduce_concat (cs : List Component) (name : String) :
    reduce (cs ++ [Component.normal name]) = reduce cs ++ [Component.normal name] := by
  simp [reduce, reduceStep]

theorem ofComponents_endsIn (cs : List Component) (name : String) :
    (ofComponents (cs ++ [Component.normal name])).EndsIn name := by
  have joined (cs : List Component) :
      Text.joinWith "/" ((cs ++ [Component.normal name]).map Component.name) =
        if cs = [] then name else Text.joinWith "/" (cs.map Component.name) ++ "/" ++ name := by
    simp [Text.joinWith_concat, Component.name]
  cases cs with
  | nil => exact .inl rfl
  | cons c cs =>
    by_cases root : c = .root
    · subst root
      rw [List.cons_append, ofComponents, joined]
      by_cases none : cs = []
      · exact .inr ⟨"", by simp [none]⟩
      · exact .inr ⟨"/" ++ Text.joinWith "/" (cs.map Component.name), by simp [none, String.append_assoc]⟩
    · have plain : ofComponents (c :: cs ++ [.normal name]) =
          ⟨Text.joinWith "/" ((c :: cs ++ [Component.normal name]).map Component.name)⟩ := by
        cases c <;> first | rfl | exact absurd rfl root
      rw [plain, joined, if_neg (List.cons_ne_nil c cs)]
      exact .inr ⟨_, rfl⟩

theorem isName_outputDirName : IsName outputDirName := by
  constructor <;> decide

theorem outputDir_endsIn (m : SourceModule) : m.outputDir.normalize.EndsIn outputDirName := by
  obtain ⟨before, split⟩ := components_of_endsIn isName_outputDirName
    (endsIn_child m.sourceDir isName_outputDirName)
  rw [normalize, SourceModule.outputDir, split, reduce_concat]
  exact ofComponents_endsIn _ _

end Output

end Path

end HeaderMeta
