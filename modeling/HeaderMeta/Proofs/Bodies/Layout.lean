import HeaderMeta.Code.Writer
import HeaderMeta.Proofs.Output.Paths

/-! Generated text read back: its lines, its blocks and the functions it defines.

Indentation and lone braces say which step wrote a line, and a definition of metadata goes on until a
line ends it, so `Code.ofText` gives back the code of a text (`Code.ofText_text`). A name that holds a
line feed, or an argument text with a line that looks like the end of its definition, can not be told
from several lines; such code is not legible. A function is a block under a template head; its body is
what stands before the brace that closes the block (`Code.functions`).
-/

set_option autoImplicit false

namespace HeaderMeta

namespace CodeWriter

def margin (depth : Nat) : List Char :=
  List.replicate (4 * depth) ' '

def depthAfter (depth : Nat) : CodeStep → Nat
  | .line _ => depth
  | .openBlock => depth + 1
  | .closeBlock => depth - 1

def written (depth : Nat) : CodeStep → List Char
  | .line text => if text = "" then [] else margin depth ++ text.toList
  | .openBlock => margin depth ++ ['\x7b']
  | .closeBlock => margin (depth - 1) ++ ['\x7d']

theorem toList_line (w : CodeWriter) (text : String) :
    (w.line text).text.toList = w.text.toList ++ written w.depth (.line text) ++ ['\n'] := by
  by_cases empty : text = "" <;> simp [line, written, empty, indentation, margin]

theorem toList_write (w : CodeWriter) (step : CodeStep) :
    (w.write step).text.toList = w.text.toList ++ written w.depth step ++ ['\n'] := by
  cases step with
  | line text => exact toList_line w text
  | openBlock => exact toList_line w "\x7b"
  | closeBlock => exact toList_line { w with depth := w.depth - 1 } "\x7d"

theorem depth_write (w : CodeWriter) (step : CodeStep) :
    (w.write step).depth = depthAfter w.depth step := by
  cases step <;> rfl

end CodeWriter

namespace Code

open CodeWriter

def linesFrom (depth : Nat) : Code → List (List Char)
  | [] => []
  | step :: code => written depth step :: linesFrom (depthAfter depth step) code

theorem toList_foldl_write (code : Code) (w : CodeWriter) :
    (code.foldl CodeWriter.write w).text.toList =
      w.text.toList ++ (linesFrom w.depth code).flatMap (· ++ ['\n']) := by
  induction code generalizing w with
  | nil => simp [linesFrom]
  | cons step code ih =>
    rw [List.foldl_cons, ih, toList_write, depth_write, linesFrom]
    simp

def stepsFrom (depth : Nat) : List (List Char) → Code
  | [] => []
  | line :: lines =>
    if line = margin (depth - 1) ++ ['\x7d'] then .closeBlock :: stepsFrom (depth - 1) lines
    else if line = margin depth ++ ['\x7b'] then .openBlock :: stepsFrom (depth + 1) lines
    else .line (String.ofList (line.drop (4 * depth))) :: stepsFrom depth lines

/-- A definition of metadata that goes on in the next line: its arguments may hold line feeds. -/
def unfinished (line : List Char) : Bool :=
  let shown := line.dropWhile (· = ' ')
  "static const ".toList.isPrefixOf shown && !"\x7d;".toList.isSuffixOf shown

def joinLines : List (List Char) → List (List Char)
  | line :: next :: lines =>
    if unfinished line then joinLines ((line ++ '\n' :: next) :: lines)
    else line :: joinLines (next :: lines)
  | [line] => [line]
  | [] => []
termination_by lines => lines.length

def ofText (text : String) : Code :=
  stepsFrom 0 (joinLines (Path.pieces '\n' text.toList).dropLast)

/-- What a step writes can be told from what is written behind it. -/
def IsLegible : CodeStep → Prop
  | .line text =>
    joinLines (Path.pieces '\n' text.toList) = [text.toList] ∧ unfinished text.toList = false
  | .openBlock | .closeBlock => True

instance : DecidablePred IsLegible
  | .line _ => inferInstanceAs (Decidable (_ ∧ _))
  | .openBlock | .closeBlock => .isTrue trivial

def Legible (code : Code) : Prop :=
  ∀ step ∈ code, IsLegible step

instance (code : Code) : Decidable code.Legible :=
  inferInstanceAs (Decidable (∀ step ∈ code, IsLegible step))

def IsBrace (text : String) : Prop :=
  text = "\x7b" ∨ text = "\x7d"

def Braceless (code : Code) : Prop :=
  ∀ text, .line text ∈ code → ¬ IsBrace text

section OfText
variable {code : Code}

theorem joinLines_ne_nil (line : List Char) (lines : List (List Char)) :
    joinLines (line :: lines) ≠ [] := by
  induction lines generalizing line with
  | nil => simp [joinLines]
  | cons next lines ih =>
    rw [joinLines]
    split
    · exact ih _
    · exact List.cons_ne_nil _ _

theorem joinLines_cons {line next whole : List Char} {lines : List (List Char)}
    (joined : joinLines (line :: next :: lines) = [whole]) :
    unfinished line = true ∧ joinLines ((line ++ '\n' :: next) :: lines) = [whole] := by
  rw [joinLines] at joined
  split at joined
  next goesOn => exact ⟨goesOn, joined⟩
  next => exact absurd (List.cons.inj joined).2 (joinLines_ne_nil next lines)

theorem joinLines_append {whole line : List Char} {lines : List (List Char)}
    (joined : joinLines (line :: lines) = [whole]) (finished : unfinished whole = false)
    (rest : List (List Char)) : joinLines (line :: lines ++ rest) = whole :: joinLines rest := by
  induction lines generalizing line with
  | nil =>
    obtain rfl : line = whole := by simpa [joinLines] using joined
    cases rest with
    | nil => simp [joinLines]
    | cons next rest => simp [joinLines, finished]
  | cons next lines ih =>
    obtain ⟨goesOn, joined⟩ := joinLines_cons joined
    rw [List.cons_append, List.cons_append, joinLines, if_pos goesOn]
    exact ih joined

theorem unfinished_margin (depth : Nat) (line : List Char) :
    unfinished (margin depth ++ line) = unfinished line := by
  unfold unfinished
  rw [List.dropWhile_append_of_pos]
  intro c mem
  simp [List.eq_of_mem_replicate mem]

theorem joinLines_margin (depth : Nat) {whole line : List Char} {lines : List (List Char)}
    (joined : joinLines (line :: lines) = [whole]) :
    joinLines ((margin depth ++ line) :: lines) = [margin depth ++ whole] := by
  induction lines generalizing line with
  | nil =>
    obtain rfl : line = whole := by simpa [joinLines] using joined
    simp [joinLines]
  | cons next lines ih =>
    -- only the first line is indented; those joined to it are part of an argument text
    obtain ⟨goesOn, joined⟩ := joinLines_cons joined
    rw [joinLines, unfinished_margin, if_pos goesOn, List.append_assoc]
    exact ih joined

theorem pieces_margin (depth : Nat) (text : List Char) {first : List Char}
    {others : List (List Char)} (split : Path.pieces '\n' text = first :: others) :
    Path.pieces '\n' (margin depth ++ text) = (margin depth ++ first) :: others := by
  unfold margin
  induction 4 * depth with
  | zero => exact split
  | succ n ih => simp [List.replicate_succ, Path.pieces, ih]

/-- The lines of a legible step are joined to what it wrote. -/
theorem joinLines_written {step : CodeStep} (legible : IsLegible step) (depth : Nat)
    (rest : List (List Char)) :
    joinLines (Path.pieces '\n' (written depth step) ++ rest) =
      written depth step :: joinLines rest := by
  have brace (depth : Nat) {c : Char} (line : c ≠ '\n') (finished : unfinished [c] = false) :
      joinLines (Path.pieces '\n' (margin depth ++ [c]) ++ rest) =
        (margin depth ++ [c]) :: joinLines rest := by
    rw [Path.pieces_of_not_mem (by simp [margin, line.symm])]
    exact joinLines_append (by simp [joinLines]) (by rw [unfinished_margin, finished]) rest
  cases step with
  | line text =>
    obtain ⟨joined, finished⟩ := legible
    cases split : Path.pieces '\n' text.toList with
    | nil => exact absurd split (Path.pieces_ne_nil _ _)
    | cons first others =>
      rw [split] at joined
      by_cases empty : text = ""
      · subst empty
        rw [written, if_pos rfl]
        exact joinLines_append (by simp [joinLines]) (by decide) rest
      · rw [written, if_neg empty, pieces_margin depth _ split]
        exact joinLines_append (joinLines_margin depth joined)
          (by rw [unfinished_margin, finished]) rest
  | openBlock => exact brace depth (by decide) (by decide)
  | closeBlock => exact brace (depth - 1) (by decide) (by decide)

theorem joinLines_linesFrom (legible : code.Legible) (depth : Nat) :
    joinLines ((linesFrom depth code).flatMap (Path.pieces '\n')) = linesFrom depth code := by
  induction code generalizing depth with
  | nil => simp [linesFrom, joinLines]
  | cons step code ih =>
    have rest := ih (fun later mem => legible later (List.mem_cons_of_mem _ mem))
      (depthAfter depth step)
    rw [linesFrom, List.flatMap_cons, joinLines_written (legible step List.mem_cons_self), rest]

theorem pieces_lines (lines : List (List Char)) :
    Path.pieces '\n' (lines.flatMap (· ++ ['\n'])) = lines.flatMap (Path.pieces '\n') ++ [[]] := by
  induction lines with
  | nil => rfl
  | cons line lines ih =>
    rw [List.flatMap_cons, List.append_assoc, List.singleton_append, Path.pieces_append, ih,
      List.flatMap_cons, List.append_assoc]

theorem written_line (depth : Nat) {text : String} (some : text ≠ "") :
    written depth (.line text) = margin depth ++ text.toList := if_neg some

theorem written_ne_close {text : String} (worded : text ≠ "\x7d") (depth : Nat) :
    written depth (.line text) ≠ margin (depth - 1) ++ ['\x7d'] := by
  intro same
  by_cases empty : text = ""
  · simp [written, empty] at same
  · rw [written_line depth empty] at same
    cases depth with
    | zero =>
      apply worded
      simpa [margin, ← String.toList_inj] using same
    | succ depth =>
      -- below the top the brace stands less deep than the line
      have lengths := congrArg List.length same
      simp [margin] at lengths
      omega

theorem written_ne_open {text : String} (worded : text ≠ "\x7b") (depth : Nat) :
    written depth (.line text) ≠ margin depth ++ ['\x7b'] := by
  intro same
  by_cases empty : text = ""
  · simp [written, empty] at same
  · rw [written_line depth empty] at same
    apply worded
    simpa [← String.toList_inj] using same

theorem stepsFrom_linesFrom (worded : code.Braceless) (depth : Nat) :
    stepsFrom depth (linesFrom depth code) = code := by
  induction code generalizing depth with
  | nil => rfl
  | cons step code ih =>
    have rest := ih fun text mem => worded text (List.mem_cons_of_mem _ mem)
    rw [linesFrom, stepsFrom]
    cases step with
    | line text =>
      obtain ⟨notOpen, notClose⟩ := not_or.mp (worded text List.mem_cons_self)
      have shown : String.ofList ((written depth (.line text)).drop (4 * depth)) = text := by
        by_cases empty : text = "" <;> simp [written, margin, empty]
      rw [if_neg (written_ne_close notClose depth), if_neg (written_ne_open notOpen depth), shown,
        depthAfter, rest]
    | openBlock =>
      have notClose : margin depth ++ ['\x7b'] ≠ margin (depth - 1) ++ ['\x7d'] := by
        intro same
        have last := congrArg List.getLast? same
        simp at last
      rw [written, if_neg notClose, if_pos rfl, depthAfter, rest]
    | closeBlock => rw [written, if_pos rfl, depthAfter, rest]

/-- The text of legible code gives back the code. -/
theorem ofText_text (legible : code.Legible) (worded : code.Braceless) : ofText code.text = code := by
  have chars : code.text.toList = (linesFrom 0 code).flatMap (· ++ ['\n']) := by
    simpa [Code.text] using toList_foldl_write code {}
  rw [ofText, chars, pieces_lines, List.dropLast_concat, joinLines_linesFrom legible,
    stepsFrom_linesFrom worded]

end OfText

section Braceless
variable {a b : Code}

@[simp] theorem braceless_nil : Braceless [] := nofun

@[simp] theorem braceless_append : Braceless (a ++ b) ↔ Braceless a ∧ Braceless b := by
  simp only [Braceless, List.mem_append, or_imp, forall_and]

@[simp] theorem braceless_line {text : String} :
    Braceless (.line text :: a) ↔ ¬ IsBrace text ∧ Braceless a := by
  simp only [Braceless, List.mem_cons, CodeStep.line.injEq, or_imp, forall_and, forall_eq]

@[simp] theorem braceless_block {head : String} :
    Braceless (Code.block head a) ↔ ¬ IsBrace head ∧ Braceless a := by
  simp [Code.block, Braceless, or_imp, forall_and]

end Braceless

section Functions

/-- The steps before the brace that closes a block, `depth` inner blocks being open, and those
after it. -/
def inside : (depth : Nat) → Code → Code × Code
  | _, [] => ([], [])
  | 0, .closeBlock :: code => ([], code)
  | depth + 1, .closeBlock :: code =>
    (.closeBlock :: (inside depth code).1, (inside depth code).2)
  | depth, .openBlock :: code =>
    (.openBlock :: (inside (depth + 1) code).1, (inside (depth + 1) code).2)
  | depth, .line text :: code => (.line text :: (inside depth code).1, (inside depth code).2)

theorem length_inside_le (depth : Nat) (code : Code) :
    (inside depth code).2.length ≤ code.length := by
  fun_induction inside depth code <;> simp_all <;> omega

def functions : Code → List (String × Code)
  | .line lead :: .line head :: .openBlock :: code =>
    if lead = "template<>" then (head, (inside 0 code).1) :: functions (inside 0 code).2
    else functions (.line head :: .openBlock :: code)
  | _ :: code => functions code
  | [] => []
termination_by code => code.length
decreasing_by
  · have := length_inside_le 0 code
    simp only [List.length_cons]
    omega
  all_goals simp

def Closed (code : Code) : Prop :=
  ∀ depth rest, inside depth (code ++ rest) = (code ++ (inside depth rest).1, (inside depth rest).2)

variable {a b : Code}

theorem closed_nil : Closed [] := fun _ _ => rfl

theorem closed_line (text : String) : Closed [.line text] := by
  intro depth rest
  cases depth <;> rfl

theorem Closed.append (first : Closed a) (second : Closed b) : Closed (a ++ b) := by
  intro depth rest
  rw [List.append_assoc, first, second, List.append_assoc]

theorem Closed.braces (body : Closed a) : Closed (Code.braces a) := by
  intro depth rest
  have opened : Code.braces a ++ rest = .openBlock :: (a ++ .closeBlock :: rest) := by
    simp [Code.braces]
  have inner : inside depth (.openBlock :: (a ++ .closeBlock :: rest)) =
      (.openBlock :: (inside (depth + 1) (a ++ .closeBlock :: rest)).1,
        (inside (depth + 1) (a ++ .closeBlock :: rest)).2) := by
    cases depth <;> rfl
  rw [opened, inner, body, inside]
  simp [Code.braces]

theorem functions_line {text : String} (other : text ≠ "template<>") (code : Code) :
    functions (.line text :: code) = functions code := by
  rw [functions.eq_def]
  split
  next same =>
    cases same
    exact if_neg other
  next same =>
    cases same
    rfl
  next same => cases same

theorem functions_brace {step : CodeStep} (brace : step = .openBlock ∨ step = .closeBlock)
    (code : Code) : functions (step :: code) = functions code := by
  rcases brace with rfl | rfl <;> rw [functions] <;> exact nofun

/-- A closed block under a template head is one function, whatever follows it. -/
theorem functions_template (closed : Closed a) (head : String) (rest : Code) :
    functions (.line "template<>" :: Code.block head a ++ rest) = (head, a) :: functions rest := by
  have shape : .line "template<>" :: Code.block head a ++ rest =
      .line "template<>" :: .line head :: .openBlock :: (a ++ .closeBlock :: rest) := by
    simp [Code.block]
  rw [shape, functions, if_pos rfl, closed]
  simp [inside]

end Functions

end Code

end HeaderMeta
