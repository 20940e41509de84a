import HeaderMeta.Header.Declarator
import HeaderMeta.Proofs.Relexing

/-! Reading a spelling again.

A type is spelled without spaces where that can be. Its spelling is read as the same tokens again exactly
where none of them is a word that spelling leaves out, and none runs on into the text that is put behind
it (`Separate`). In the one direction the text is cut token by token. In the other nothing of it can be
lost: what is read has as many characters that are no blanks as what was spelled.
-/

set_option autoImplicit false

namespace HeaderMeta

open Lexeme (cut isSpace)

def solids (cs : List Char) : Nat :=
  cs.countP (! isSpace ·)

@[simp] theorem solids_nil : solids [] = 0 := rfl

@[simp] theorem solids_append (cs ds : List Char) : solids (cs ++ ds) = solids cs + solids ds :=
  List.countP_append

def Token.solids (ts : List Token) : Nat :=
  HeaderMeta.solids (ts.flatMap fun t => t.spelling.toList)

@[simp] theorem Token.solids_nil : Token.solids [] = 0 := rfl

@[simp] theorem Token.solids_cons (t : Token) (ts : List Token) :
    Token.solids (t :: ts) = HeaderMeta.solids t.spelling.toList + Token.solids ts := by
  rw [Token.solids, List.flatMap_cons, solids_append, Token.solids]

section Kept
variable {cs : List Char} {x : Lexeme} {xs : List Lexeme} {t : Token}

theorem solids_filterMap_le
    (spelled : ∀ x ∈ xs, ∀ t, Lexing.tokenOf x = some t → t.spelling.toList = x.text) :
    Token.solids (xs.filterMap Lexing.tokenOf) ≤ solids (xs.flatMap Lexeme.text) := by
  induction xs with
  | nil => exact Nat.le_refl 0
  | cons x xs ih =>
    obtain ⟨here, others⟩ := List.forall_mem_cons.mp spelled
    rw [List.filterMap_cons, List.flatMap_cons, solids_append]
    cases read : Lexing.tokenOf x with
    | none => exact (ih others).trans (Nat.le_add_left _ _)
    | some t =>
      rw [Token.solids_cons, here t read]
      exact Nat.add_le_add_left (ih others) _

/-- Nothing is read that the text does not have. -/
theorem solids_tokens_le (cs : List Char) : Token.solids (Lexeme.tokens cs) ≤ solids cs := by
  have bound : Token.solids (Lexeme.tokens cs) ≤ solids ((cut cs).flatMap Lexeme.text) :=
    solids_filterMap_le fun x mem t => Lexeme.spelling_of_mem_cut mem
  rwa [Lexeme.flatten_cut] at bound

theorem Token.Genuine.exists_cons (genuine : t.Genuine) :
    ∃ c cs, t.spelling.toList = c :: cs ∧ isSpace c = false := by
  obtain ⟨inside, c, cs, n, taken, text, -⟩ := genuine
  refine ⟨c, cs.take n, text, ?_⟩
  by_contra blank
  unfold Lexeme.extent at taken
  rw [if_pos (by simpa using blank)] at taken
  have kind := (Prod.mk.inj taken).1
  cases t <;> cases kind

theorem solids_cons_pos {c : Char} (solid : isSpace c = false) (cs : List Char) :
    0 < solids (c :: cs) := by
  simp [solids, solid]

end Kept

section Spelling
variable {ts us : List Token}

theorem spellAfter_append {t : Token} (apart : t.isWordlike = false) (previous : Option Token)
    (ts us : List Token) :
    spellAfter previous (ts ++ t :: us) = spellAfter previous ts ++ spellAfter none (t :: us) := by
  induction ts generalizing previous with
  | nil => cases previous <;> simp [spellAfter, Token.needsSpaceBefore, apart]
  | cons u ts ih => simp only [List.cons_append, spellAfter, ih, String.append_assoc]

/-- Whether each token ends where it should in the text that spells them side by side. -/
def Separate : List Token → Bool
  | [] => true
  | t :: ts => t.lexeme.settles (spellAfter (some t) ts).toList && Separate ts

/-- A spelling is read as the tokens it spells, where they are separate. -/
theorem tokens_spellAfter (genuine : ∀ t ∈ ts, t.Genuine) (separate : Separate ts = true)
    (previous : Option Token) : Lexeme.tokens (spellAfter previous ts).toList = ts := by
  induction ts generalizing previous with
  | nil => simp [spellAfter, Lexeme.tokens, cut]
  | cons t ts ih =>
    obtain ⟨here, others⟩ := List.forall_mem_cons.mp genuine
    obtain ⟨settled, rest⟩ := Bool.and_eq_true_iff.mp separate
    have own : Lexeme.tokens (t.spelling.toList ++ (spellAfter (some t) ts).toList) = t :: ts := by
      rw [here.tokens_append settled, ih others rest]
    rw [spellAfter, String.toList_append, String.toList_append, List.append_assoc]
    split
    · exact (Lexeme.tokens_blank (c := ' ') rfl).trans own
    · exact own

theorem solids_spellAfter (previous : Option Token) (ts : List Token) :
    solids (spellAfter previous ts).toList = Token.solids ts := by
  induction ts generalizing previous with
  | nil => rfl
  | cons t ts ih =>
    rw [spellAfter, String.toList_append, String.toList_append, solids_append, solids_append, ih,
      Token.solids_cons]
    split <;> simp [solids, isSpace]

/-- A text that is read as what was spelled starts with the token spelled first. -/
theorem cut_of_tokens {t : Token} {tail : List Char} (genuine : t.Genuine)
    (spelled : solids tail = Token.solids ts)
    (read : Lexeme.tokens (t.spelling.toList ++ tail) = t :: ts) :
    cut (t.spelling.toList ++ tail) = t.lexeme :: cut tail := by
  obtain ⟨c, cs, own, solid⟩ := genuine.exists_cons
  have whole := Lexeme.flatten_cut (t.spelling.toList ++ tail)
  cases cuts : cut (t.spelling.toList ++ tail) with
  | nil =>
    rw [cuts, own] at whole
    cases whole
  | cons x xs =>
    have mem : x ∈ cut (t.spelling.toList ++ tail) := cuts ▸ List.mem_cons_self
    have rest : xs = cut (xs.flatMap Lexeme.text) :=
      (Lexeme.cut_flatMap (show cut _ = [x] ++ xs from cuts)).symm
    rw [cuts, List.flatMap_cons] at whole
    rw [Lexeme.tokens, cuts, List.filterMap_cons] at read
    cases first : Lexing.tokenOf x with
    | none =>
      -- the first lexeme has a character that then is in no token
      have filled : 0 < solids x.text := by
        obtain ⟨d, ds, text⟩ := List.exists_cons_of_ne_nil (Lexeme.text_ne_nil_of_mem_cut mem)
        rw [own, text] at whole
        rw [text, (List.cons.inj whole).1]
        exact solids_cons_pos solid ds
      have bound := solids_tokens_le (xs.flatMap Lexeme.text)
      have size := congrArg solids whole
      simp only [first] at read
      rw [Lexeme.tokens, ← rest, read, Token.solids_cons] at bound
      rw [solids_append, solids_append] at size
      omega
    | some u =>
      simp only [first] at read
      obtain ⟨rfl, -⟩ := List.cons.inj read
      have text := Lexeme.spelling_of_mem_cut mem first
      rw [← text] at whole
      rw [rest, List.append_cancel_left whole, Token.eq_lexeme_of_tokenOf first text]

theorem settles_nil {t : Token} (inside : t ≠ .eof) : t.lexeme.settles [] = true := by
  cases t with
  | eof => exact absurd rfl inside
  | mark m => cases m <;> rfl
  | symbol c =>
    simp only [Token.lexeme, Lexeme.settles]
    split <;> rfl
  | word | number | stringLit | charLit => simp [Token.lexeme, Lexeme.settles]

theorem separate_of_tokens (genuine : ∀ t ∈ ts, t.Genuine) {previous : Option Token}
    (read : Lexeme.tokens (spellAfter previous ts).toList = ts) : Separate ts = true := by
  induction ts generalizing previous with
  | nil => rfl
  | cons t ts ih =>
    obtain ⟨here, others⟩ := List.forall_mem_cons.mp genuine
    have own : Lexeme.tokens (t.spelling.toList ++ (spellAfter (some t) ts).toList) = t :: ts := by
      rw [spellAfter, String.toList_append, String.toList_append, List.append_assoc] at read
      split at read
      · exact (Lexeme.tokens_blank (c := ' ') rfl).symm.trans read
      · exact read
    have cuts := cut_of_tokens here (solids_spellAfter _ _) own
    refine Bool.and_eq_true_iff.mpr
      ⟨?_, ih others (?_ : Lexeme.tokens (spellAfter (some t) ts).toList = ts)⟩
    · by_cases remains : (spellAfter (some t) ts).toList = []
      · rw [remains]
        exact settles_nil here.1
      · obtain ⟨d, ds, n, taken, text, rest⟩ :=
          Lexeme.exists_extent_of_cut (show cut _ = [] ++ _ :: _ from cuts)
        rw [Lexeme.flatten_cut] at rest
        rw [← rest] at remains ⊢
        have settled := Lexeme.settles_extent taken remains
        rwa [← text] at settled
    · rw [Lexeme.tokens, cuts, List.filterMap_cons, Token.tokenOf_lexeme here.1] at own
      exact (List.cons.inj own).2

theorem solids_filter_lt (genuine : ∀ t ∈ ts, t.Genuine) {t : Token} (mem : t ∈ ts)
    (noise : t.isNoise = true) : Token.solids (ts.filter (! ·.isNoise)) < Token.solids ts := by
  have parts (us : List Token) : Token.solids us =
      Token.solids (us.filter (! ·.isNoise)) + Token.solids (us.filter (·.isNoise)) := by
    induction us with
    | nil => rfl
    | cons u us ih => cases noise : u.isNoise <;> simp [noise, ih] <;> omega
  obtain ⟨c, cs, own, solid⟩ := (genuine t mem).exists_cons
  have filled : 0 < Token.solids (ts.filter (·.isNoise)) := by
    obtain ⟨before, after, split⟩ := List.append_of_mem (List.mem_filter.mpr ⟨mem, noise⟩)
    have here := solids_cons_pos solid cs
    simp only [split, Token.solids, List.flatMap_append, List.flatMap_cons, solids_append, own]
    omega
  rw [parts ts]
  omega

/-- A spelling is read as the tokens it is made of exactly where it leaves none out and they are
separate. -/
theorem tokens_spell_iff (genuine : ∀ t ∈ ts, t.Genuine) :
    Lexeme.tokens (spell ts).toList = ts ↔ ts.all (! ·.isNoise) = true ∧ Separate ts = true := by
  constructor
  · intro read
    have plain : ts.all (! ·.isNoise) = true := by
      rw [List.all_eq_true]
      intro t mem
      by_contra noise
      have fewer := solids_filter_lt genuine mem (by simpa using noise)
      have bound := solids_tokens_le (spell ts).toList
      rw [read, spell, solids_spellAfter] at bound
      omega
    refine ⟨plain, separate_of_tokens genuine (?_ : Lexeme.tokens (spellAfter none ts).toList = ts)⟩
    rwa [spell, List.filter_eq_self.mpr (List.all_eq_true.mp plain)] at read
  · rintro ⟨plain, separate⟩
    rw [spell, List.filter_eq_self.mpr (List.all_eq_true.mp plain)]
    exact tokens_spellAfter genuine separate none

end Spelling

end HeaderMeta
