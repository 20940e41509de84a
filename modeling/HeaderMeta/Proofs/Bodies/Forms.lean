import HeaderMeta.Proofs.Output.Paths
import Mathlib.Data.List.Infix

/-! Lines with one text in several places.

A form is the fixed pieces of such a line. The length of the line gives the length of the text between
the pieces, so the text can be read off whatever it contains (`Form.hole?_fill`). Two forms whose
first or whose last pieces disagree have no line in common, so a line is read as the one form of a
table it was written with (`Form.read?_fill`).
-/

set_option autoImplicit false

namespace HeaderMeta

abbrev Form := List String

namespace Form

/-- The line with `name` in every place. -/
def fill (form : Form) (name : String) : String :=
  Text.joinWith name form

def width : Form → Nat
  | [] => 0
  | piece :: form => piece.length + width form

def hole? (form : Form) (line : String) : Option String :=
  let length := (line.length - form.width) / (form.length - 1)
  let name := String.ofList ((line.toList.drop (form.headD "").length).take length)
  if form.fill name = line then some name else none

variable {f g : Form}

theorem fill_of_hole? {line name : String} (found : f.hole? line = some name) :
    f.fill name = line := by
  unfold hole? at found
  dsimp only at found
  split at found
  next same =>
    cases found
    exact same
  next => cases found

theorem length_fill (form : Form) (name : String) :
    (form.fill name).length = form.width + (form.length - 1) * name.length := by
  induction form with
  | nil => simp [fill, Text.joinWith, width]
  | cons piece form ih =>
    cases form with
    | nil => simp [fill, Text.joinWith, width]
    | cons next rest =>
      simp only [fill, Text.joinWith, String.length_append, width, List.length_cons,
        Nat.add_sub_cancel] at ih ⊢
      rw [ih, Nat.succ_mul]
      omega

theorem hole?_fill (places : 2 ≤ f.length) (name : String) : f.hole? (f.fill name) = some name := by
  match f, places with
  | first :: second :: rest, _ =>
    have length : ((fill (first :: second :: rest) name).length - width (first :: second :: rest)) /
        ((first :: second :: rest).length - 1) = name.length := by
      rw [length_fill, Nat.add_sub_cancel_left]
      exact Nat.mul_div_cancel_left _ (by simp)
    have text : ((fill (first :: second :: rest) name).toList.drop first.length).take name.length =
        name.toList := by
      simp [fill, Text.joinWith, ← String.length_toList]
    unfold hole?
    dsimp only
    rw [length, List.headD_cons, text, String.ofList_toList, if_pos rfl]

def bytes (text : String) : List UInt8 :=
  text.toByteArray.data.toList

theorem bytes_append (a b : String) : bytes (a ++ b) = bytes a ++ bytes b := by
  simp [bytes]

/-- Neither text starts with the other. -/
def Disagree (a b : List UInt8) : Prop :=
  ¬ a <+: b ∧ ¬ b <+: a

instance (a b : List UInt8) : Decidable (Disagree a b) :=
  inferInstanceAs (Decidable (_ ∧ _))

/-- The first pieces disagree, or the last ones read from the end. -/
def Apart (f g : Form) : Prop :=
  Disagree (bytes (f.headD "")) (bytes (g.headD "")) ∨
    Disagree (bytes (f.getLastD "")).reverse (bytes (g.getLastD "")).reverse

instance (f g : Form) : Decidable (Apart f g) :=
  inferInstanceAs (Decidable (_ ∨ _))

theorem bytes_head_prefix_fill (form : Form) (name : String) :
    bytes (form.headD "") <+: bytes (form.fill name) := by
  match form with
  | [] => exact List.prefix_rfl
  | [piece] => exact List.prefix_rfl
  | piece :: next :: rest =>
    have shape : fill (piece :: next :: rest) name =
        piece ++ (name ++ Text.joinWith name (next :: rest)) := String.append_assoc ..
    rw [shape, bytes_append]
    exact List.prefix_append _ _

theorem bytes_last_suffix_fill (form : Form) (name : String) :
    bytes (form.getLastD "") <:+ bytes (form.fill name) := by
  induction form using List.reverseRecOn with
  | nil => exact List.suffix_rfl
  | append_singleton form last =>
    rw [fill, Text.joinWith_concat, List.getLastD_concat]
    split
    · exact List.suffix_rfl
    · rw [bytes_append]
      exact List.suffix_append _ _

theorem not_prefix_of_disagree {a b whole : List UInt8} (disagree : Disagree a b)
    (first : a <+: whole) : ¬ b <+: whole := by
  intro second
  rcases List.prefix_or_prefix_of_prefix first second with shorter | longer
  · exact disagree.1 shorter
  · exact disagree.2 longer

theorem fill_ne (apart : Apart f g) (a b : String) : f.fill a ≠ g.fill b := by
  intro same
  rcases apart with heads | lasts
  · have second := bytes_head_prefix_fill g b
    rw [← same] at second
    exact not_prefix_of_disagree heads (bytes_head_prefix_fill f a) second
  · have second := List.reverse_prefix.mpr (bytes_last_suffix_fill g b)
    rw [← same] at second
    exact not_prefix_of_disagree lasts (List.reverse_prefix.mpr (bytes_last_suffix_fill f a)) second

theorem append_ne {lead text : String} (disagree : Disagree (bytes lead) (bytes text))
    (rest : String) : lead ++ rest ≠ text := by
  rintro rfl
  apply disagree.1
  rw [bytes_append]
  exact List.prefix_append _ _

theorem hole?_of_apart (apart : Apart f g) (name : String) : g.hole? (f.fill name) = none := by
  cases found : g.hole? (f.fill name) with
  | none => rfl
  | some other => exact absurd (fill_of_hole? found).symm (fill_ne apart name other)

section Table
variable {α : Type} {table : List (Form × (String → α))}

def read? (table : List (Form × (String → α))) (line : String) : Option α :=
  table.findSome? fun entry => (entry.1.hole? line).map entry.2

/-- Forms with some place each, no two with a line in common. -/
structure Distinct (table : List (Form × (String → α))) : Prop where
  places : ∀ entry ∈ table, 2 ≤ entry.1.length
  apart : table.Pairwise fun a b => Apart b.1 a.1

theorem read?_fill (distinct : Distinct table) {form : Form} {make : String → α}
    (mem : (form, make) ∈ table) (name : String) :
    read? table (form.fill name) = some (make name) := by
  have whole := hole?_fill (distinct.places _ mem) name
  obtain ⟨-, apart⟩ := distinct
  induction apart with
  | nil => cases mem
  | cons earlier later ih =>
    next entry rest =>
    -- the forms before its own are apart from it and pass the line on
    rcases List.mem_cons.mp mem with rfl | mem
    · simp only [read?, List.findSome?_cons, whole, Option.map_some]
    · have missed := hole?_of_apart (earlier _ mem) name
      simp only [read?, List.findSome?_cons, missed, Option.map_none]
      exact ih mem

theorem read?_eq_none {line : String} (apart : ∀ entry ∈ table, Apart [line] entry.1) :
    read? table line = none := by
  apply List.findSome?_eq_none_iff.mpr
  intro entry mem
  exact congrArg (Option.map entry.2) (hole?_of_apart (apart entry mem) "")

end Table

end Form

end HeaderMeta
