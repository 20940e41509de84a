import HeaderMeta.Proofs.Coverage
import Mathlib.Data.List.DropRight
import Mathlib.Data.Prod.Lex

/-! Lines and columns of a text.

The reader of tokens counts lines and columns while it walks over the text. A place can also be found
from its byte alone: a table holds the bytes at which lines start, the line is searched in it by
bisection, and the characters of that line up to the byte are counted. Both give the place that is
counted out from the text before it (`Span.counted`).

Lines and columns are machine words. As long as no count of a text fills one (`InWords`), they are the
counts themselves, which grow with the text before a place.
-/

set_option autoImplicit false

namespace HeaderMeta

open Source (bytes)

section Texts

def inLine (c : Char) : Bool :=
  c != '\n'

/-- The span of `inside` in a text that starts with `before` and goes on with `inside`: its line is
counted by the line feeds before it, its column by the characters behind the last of them. -/
def Span.counted (before inside : List Char) : Span where
  start := bytes before
  stop := bytes (before ++ inside)
  line := .ofNat (1 + before.count '\n')
  column := .ofNat (1 + (before.rtakeWhile inLine).length)

/-- The lines of a text, and the characters of each, are few enough to be counted in machine words. -/
def InWords (cs : List Char) : Prop :=
  ∀ before, before <+: cs →
    1 + before.count '\n' < UInt32.size ∧ 1 + (before.rtakeWhile inLine).length < UInt32.size

/-- Cut a text at a byte, unless this is inside a character or behind the end. -/
def splitBytes? : (n : Nat) → List Char → Option (List Char × List Char)
  | 0, cs => some ([], cs)
  | _ + 1, [] => none
  | n + 1, c :: cs =>
    if n + 1 < c.utf8Size then none
    else (splitBytes? (n + 1 - c.utf8Size) cs).map fun parts => (c :: parts.1, parts.2)

/-- The characters from one byte of a text up to another, where a text can be cut at both. -/
def between? (start stop : Nat) (cs : List Char) : Option (List Char) := do
  let (upTo, _) ← splitBytes? stop cs
  let (_, inside) ← splitBytes? start upTo
  return inside

variable {before inside rest : List Char}

theorem InWords.of_length {cs : List Char} (short : 1 + cs.length < UInt32.size) : InWords cs := by
  intro before shorter
  have length := shorter.length_le
  have feeds : before.count '\n' ≤ before.length := List.count_le_length
  have last : (before.rtakeWhile inLine).length ≤ before.length :=
    (List.rtakeWhile_suffix inLine before).length_le
  omega

theorem Span.counted_toNat {cs : List Char} (inside : List Char) (fits : InWords cs)
    (shorter : before <+: cs) :
    (Span.counted before inside).line.toNat = 1 + before.count '\n' ∧
      (Span.counted before inside).column.toNat = 1 + (before.rtakeWhile inLine).length :=
  ⟨UInt32.toNat_ofNat_of_lt' (fits before shorter).1, UInt32.toNat_ofNat_of_lt' (fits before shorter).2⟩

theorem splitBytes?_append (before rest : List Char) :
    splitBytes? (bytes before) (before ++ rest) = some (before, rest) := by
  induction before with
  | nil => rw [bytes, List.nil_append, splitBytes?]
  | cons c cs ih =>
    obtain ⟨n, size⟩ := Source.exists_bytes_cons c cs
    have fits : ¬ n + 1 < c.utf8Size := by omega
    rw [bytes, size, List.cons_append, splitBytes?, if_neg fits, ← size, Nat.add_sub_cancel_left, ih]
    rfl

theorem between?_append (before inside rest : List Char) :
    between? (bytes before) (bytes (before ++ inside)) (before ++ (inside ++ rest)) = some inside := by
  have outer := splitBytes?_append (before ++ inside) rest
  rw [List.append_assoc] at outer
  simp [between?, outer, splitBytes?_append]

end Texts

section Starts

/-- The bytes behind the line feeds of a text that itself starts at byte `n`. -/
def lineStarts (n : Nat) : List Char → List Nat
  | [] => []
  | c :: cs =>
    if c = '\n' then (n + 1) :: lineStarts (n + 1) cs else lineStarts (n + c.utf8Size) cs

variable {n m : Nat} {cs ds : List Char}

theorem lineStarts_cons (c : Char) :
    lineStarts n (c :: cs) =
      (if c = '\n' then [n + c.utf8Size] else []) ++ lineStarts (n + c.utf8Size) cs := by
  rw [lineStarts]
  split
  next feed => rw [feed]; rfl
  next => rfl

theorem lineStarts_append (n : Nat) (cs ds : List Char) :
    lineStarts n (cs ++ ds) = lineStarts n cs ++ lineStarts (n + bytes cs) ds := by
  induction cs generalizing n with
  | nil => rfl
  | cons c cs ih =>
    rw [List.cons_append, lineStarts_cons, lineStarts_cons, ih, bytes, Nat.add_assoc,
      List.append_assoc]

theorem length_lineStarts (n : Nat) (cs : List Char) : (lineStarts n cs).length = cs.count '\n' := by
  induction cs generalizing n with
  | nil => rfl
  | cons c cs ih =>
    rw [lineStarts_cons, List.length_append, ih, List.count_cons]
    by_cases feed : c = '\n' <;> simp [feed, Nat.add_comm]

/-- A line starts behind a line feed, so behind the start of the text. -/
theorem lt_of_mem_lineStarts (mem : m ∈ lineStarts n cs) : n < m := by
  induction cs generalizing n with
  | nil => cases mem
  | cons c cs ih =>
    have size := c.utf8Size_pos
    rw [lineStarts_cons, List.mem_append] at mem
    rcases mem with here | later
    · have same : m = n + c.utf8Size := by
        split at here
        · exact List.mem_singleton.mp here
        · cases here
      omega
    · have further := ih later
      omega

theorem pairwise_lineStarts (n : Nat) (cs : List Char) : (n :: lineStarts n cs).Pairwise (· < ·) := by
  refine List.pairwise_cons.mpr ⟨fun m mem => lt_of_mem_lineStarts mem, ?_⟩
  induction cs generalizing n with
  | nil => exact .nil
  | cons c cs ih =>
    rw [lineStarts_cons]
    split
    · exact List.pairwise_cons.mpr ⟨fun m mem => lt_of_mem_lineStarts mem, ih _⟩
    · exact ih _

def upToLine (cs : List Char) : List Char :=
  cs.rdropWhile inLine

theorem upToLine_append (cs : List Char) : upToLine cs ++ cs.rtakeWhile inLine = cs :=
  List.rdropWhile_append_rtakeWhile

/-- The last line that starts up to the end of a text starts where its last line does. -/
theorem getLast?_lineStarts (n : Nat) (cs : List Char) :
    (n :: lineStarts n cs).getLast? = some (n + bytes (upToLine cs)) := by
  induction cs using List.reverseRecOn with
  | nil => rfl
  | append_singleton cs c ih =>
    rw [lineStarts_append, ← List.cons_append, upToLine]
    by_cases feed : c = '\n'
    · subst feed
      have starts : lineStarts (n + bytes cs) ['\n'] = [n + bytes cs + 1] := rfl
      have size : bytes (cs ++ ['\n']) = bytes cs + 1 := Source.bytes_append cs ['\n']
      rw [List.rdropWhile_concat_neg _ _ _ (by decide), starts, List.getLast?_concat, size,
        Nat.add_assoc]
    · have none : lineStarts (n + bytes cs) [c] = [] := by simp [lineStarts, feed]
      rw [List.rdropWhile_concat_pos _ _ _ (by simpa [inLine] using feed), none, List.append_nil]
      exact ih

end Starts

section Search

/-- Search an increasing table for `x` from index `lo` to before `hi`: the index it stands at, or as an
error the index at which it is missing. -/
def bisect (xs : Array Nat) (x lo hi : Nat) (bound : hi ≤ xs.size) : Except Nat Nat :=
  if some : lo < hi then
    let mid := lo + (hi - lo) / 2
    if xs[mid] < x then bisect xs x (mid + 1) hi bound
    else if x < xs[mid] then bisect xs x lo mid (by omega)
    else .ok mid
  else .error lo
termination_by hi - lo

/-- What stands up to an index is not above `x`, and only there `x` itself may stand; what stands behind
is above `x`. -/
structure SplitsAt (xs : Array Nat) (x k : Nat) : Prop where
  inside : k < xs.size
  below : ∀ i (bound : i < xs.size), i < k → xs[i] < x
  own : xs[k] ≤ x
  above : ∀ i (bound : i < xs.size), k < i → x < xs[i]

/-- The search ends at the index that splits the table, or right behind it. -/
theorem SplitsAt.bisect {xs : Array Nat} {x k lo hi : Nat} (splits : SplitsAt xs x k)
    (bound : hi ≤ xs.size) (first : lo ≤ k + 1) (last : k < hi) :
    bisect xs x lo hi bound = .ok k ∨ HeaderMeta.bisect xs x lo hi bound = .error (k + 1) := by
  fun_induction HeaderMeta.bisect xs x lo hi bound with
  | case1 lo hi bound some mid less ih =>
    -- what is below `x` stands up to `k`
    have upTo : mid ≤ k := by
      by_contra behind
      have more := splits.above mid (by omega) (by omega)
      omega
    exact ih (by omega) last
  | case2 lo hi bound some mid notLess more ih =>
    -- what is above `x` stands behind `k`
    have behind : k < mid := by
      by_contra upTo
      rcases Nat.lt_or_eq_of_le (Nat.le_of_not_lt upTo) with before | same
      · have less := splits.below mid (by omega) before
        omega
      · have own := splits.own
        simp only [← same] at own
        omega
    exact ih first behind
  | case3 lo hi bound some mid notLess notMore =>
    have same : mid = k := by
      rcases Nat.lt_trichotomy mid k with before | same | behind
      · exact absurd (splits.below mid (by omega) before) notLess
      · exact same
      · exact absurd (splits.above mid (by omega) behind) notMore
    rw [same]
    exact .inl rfl
  | case4 lo hi bound none =>
    have ended : lo = k + 1 := by omega
    rw [ended]
    exact .inr rfl

end Search

structure LineTable where
  text : List Char
  starts : Array Nat

namespace LineTable

def ofText (source : String) : LineTable where
  text := source.toList
  starts := (0 :: lineStarts 0 source.toList).toArray

/-- The line of a byte, counted from zero. A byte at which no line starts is on the line before the one
that would start there. -/
def lineIndex (t : LineTable) (byte : Nat) : Nat :=
  match bisect t.starts byte 0 t.starts.size (Nat.le_refl _) with
  | .ok i => i
  | .error i => i - 1

def span? (t : LineTable) (start stop : Nat) : Option Span := do
  let index := t.lineIndex start
  let line ← between? (t.starts[index]?.getD 0) start t.text
  return ⟨start, stop, .ofNat index + 1, .ofNat (line.length + 1)⟩

variable {source : String} {before inside rest : List Char}

/-- The table is split by every byte at which the text can be cut: up to there as many lines start as
line feeds stand before it. -/
theorem splitsAt_starts (text : source.toList = before ++ rest) :
    SplitsAt (ofText source).starts (bytes before) (before.count '\n') ∧
      (ofText source).starts[before.count '\n']? = some (bytes (upToLine before)) := by
  -- the lines that start up to the byte come first; all others start behind it
  let upTo := 0 :: lineStarts 0 before
  let later := lineStarts (bytes before) rest
  have whole : (ofText source).starts = (upTo ++ later).toArray := by
    rw [ofText, text, lineStarts_append, Nat.zero_add]
    rfl
  have size : upTo.length = before.count '\n' + 1 := by
    rw [List.length_cons, length_lineStarts]
  have last : upTo[before.count '\n']? = some (bytes (upToLine before)) := by
    have final := getLast?_lineStarts 0 before
    rwa [List.getLast?_eq_getElem?, ← show upTo = 0 :: lineStarts 0 before from rfl, size,
      Nat.add_sub_cancel, Nat.zero_add] at final
  have cut : bytes (upToLine before) ≤ bytes before := by
    have parts := congrArg bytes (upToLine_append before)
    rw [Source.bytes_append] at parts
    omega
  have ordered : upTo.Pairwise (· < ·) := pairwise_lineStarts 0 before
  obtain ⟨bound, own⟩ := List.getElem?_eq_some_iff.mp last
  rw [whole]
  refine ⟨⟨?_, ?_, ?_, ?_⟩, ?_⟩
  · simp [size]
    omega
  · intro i _ earlier
    have less := List.pairwise_iff_getElem.mp ordered i _ (by omega) bound earlier
    rw [own] at less
    simp only [List.getElem_toArray]
    rw [List.getElem_append_left (by omega)]
    omega
  · simp only [List.getElem_toArray]
    rw [List.getElem_append_left bound, own]
    exact cut
  · intro i inTable behind
    simp only [List.getElem_toArray]
    rw [List.getElem_append_right (by omega)]
    exact lt_of_mem_lineStarts (List.getElem_mem _)
  · rw [List.getElem?_toArray, List.getElem?_append_left bound, last]

theorem lineIndex_eq (text : source.toList = before ++ rest) :
    (ofText source).lineIndex (bytes before) = before.count '\n' := by
  obtain ⟨splits, -⟩ := splitsAt_starts text
  unfold lineIndex
  rcases splits.bisect (Nat.le_refl _) (Nat.zero_le _) splits.inside with found | missing
  · rw [found]
  · rw [missing]
    rfl

/-- The table gives the span that is counted out. -/
theorem span?_eq (text : source.toList = before ++ (inside ++ rest)) :
    (ofText source).span? (bytes before) (bytes (before ++ inside)) =
      some (.counted before inside) := by
  obtain ⟨-, start⟩ := splitsAt_starts text
  have line : between? (bytes (upToLine before)) (bytes before) (ofText source).text =
      some (before.rtakeWhile inLine) := by
    have cut := between?_append (upToLine before) (before.rtakeWhile inLine) (inside ++ rest)
    rwa [← List.append_assoc, upToLine_append, ← text] at cut
  simp only [span?, lineIndex_eq text, start, Option.getD_some, line, Option.bind_eq_bind,
    Option.bind_some, Span.counted, Nat.add_comm 1, UInt32.ofNat_add]
  rfl

end LineTable

section Walking
variable {p : Position} {cs : List Char}

theorem Position.after_concat (p : Position) (cs : List Char) (c : Char) :
    p.after (cs ++ [c]) = (p.after cs).next c := by
  rw [after_append]
  rfl

/-- Walking over a text counts its lines and the characters of its last line. -/
theorem Position.start_after (cs : List Char) :
    Position.start.after cs =
      ⟨bytes cs, .ofNat (1 + cs.count '\n'), .ofNat (1 + (cs.rtakeWhile inLine).length)⟩ := by
  induction cs using List.reverseRecOn with
  | nil => rfl
  | append_singleton cs c ih =>
    rw [after_concat, ih, next, Source.bytes_append, List.count_append]
    split
    next feed =>
      have line := UInt32.ofNat_add (1 + cs.count '\n') 1
      rw [feed, List.rtakeWhile_concat_neg _ _ _ (by decide)]
      exact congrArg (Position.mk _ · 1) line.symm
    next other =>
      have column := UInt32.ofNat_add (1 + (cs.rtakeWhile inLine).length) 1
      rw [List.rtakeWhile_concat_pos _ _ _ (by simpa [inLine] using other), List.length_append,
        List.length_singleton, ← Nat.add_assoc 1 _ 1, column]
      simp [bytes, other]

theorem Position.spanOf_start_after (before inside : List Char) :
    (Position.start.after before).spanOf inside = .counted before inside := by
  rw [spanOf, ← after_append, start_after, start_after]
  rfl

def Span.place (s : Span) : Nat ×ₗ Nat :=
  toLex (s.line.toNat, s.column.toNat)

/-- A longer text ends at a later place. -/
theorem Span.place_counted_lt {before more : List Char} (inside inside' : List Char)
    (fits : InWords (before ++ more)) (some : more ≠ []) :
    (Span.counted before inside).place < (Span.counted (before ++ more) inside').place := by
  obtain ⟨line, column⟩ := counted_toNat inside fits (List.prefix_append before more)
  obtain ⟨line', column'⟩ := counted_toNat inside' fits (List.prefix_refl _)
  rw [place, place, Prod.Lex.toLex_lt_toLex, line, column, line', column']
  simp only [List.count_append]
  by_cases feed : '\n' ∈ more
  · have counted := List.count_pos_iff.mpr feed
    exact .inl (by omega)
  · -- without a line feed the line goes on
    have inside : ∀ c ∈ more, inLine c = true := by
      intro c mem
      have other : c ≠ '\n' := fun same => feed (same ▸ mem)
      simpa [inLine] using other
    have longer : ((before ++ more).rtakeWhile inLine).length =
        (before.rtakeWhile inLine).length + more.length := by
      rw [List.rtakeWhile, List.reverse_append,
        List.takeWhile_append_of_pos fun c mem => inside c (List.mem_reverse.mp mem)]
      simp [List.rtakeWhile, Nat.add_comm]
    have length := List.length_pos_iff.mpr some
    rw [List.count_eq_zero.mpr feed, longer]
    exact .inr ⟨rfl, by omega⟩

end Walking

namespace Lexing

theorem exists_counted {source : String} {t : Placed} (mem : t ∈ (ofText source).tokens) :
    ∃ before inside rest, source.toList = before ++ (inside ++ rest) ∧
      t.span = .counted before inside := by
  rw [ofText, ofChars, tokens_place, List.mem_append, List.mem_filterMap] at mem
  rcases mem with ⟨⟨x, span⟩, spot, read⟩ | final
  · obtain ⟨token, -, rfl⟩ := Option.map_eq_some_iff.mp read
    obtain ⟨before, after, cuts, rfl⟩ := mem_spots.mp spot
    refine ⟨before.flatMap Lexeme.text, x.text, after.flatMap Lexeme.text, ?_,
      Position.spanOf_start_after _ _⟩
    rw [← List.flatMap_cons, ← List.flatMap_append, ← cuts, Lexeme.flatten_cut]
  · obtain rfl := List.mem_singleton.mp final
    refine ⟨source.toList, [], [], by simp, ?_⟩
    rw [Lexeme.flatten_cut]
    exact Position.spanOf_start_after _ _

/-- Of two tokens the one that starts later has the later place. -/
theorem place_lt_place {source : String} {t u : Placed} (fits : InWords source.toList)
    (first : t ∈ (ofText source).tokens) (second : u ∈ (ofText source).tokens)
    (before : t.span.start < u.span.start) : t.span.place < u.span.place := by
  obtain ⟨lead, inside, rest, text, here⟩ := exists_counted first
  obtain ⟨lead', inside', rest', text', there⟩ := exists_counted second
  rw [here, there] at before ⊢
  have shorter : bytes lead < bytes lead' := before
  -- both are beginnings of one text, and `lead` is the shorter
  rcases List.append_eq_append_iff.mp (text.symm.trans text') with
    ⟨more, rfl, -⟩ | ⟨more, rfl, -⟩
  · have prior : (lead ++ more) <+: source.toList := ⟨_, text'.symm⟩
    apply Span.place_counted_lt inside inside' fun cs first => fits cs (first.trans prior)
    intro none
    rw [none, List.append_nil] at shorter
    exact Nat.lt_irrefl _ shorter
  · rw [Source.bytes_append] at shorter
    omega

/-- Lines and columns are exact. Between any two bytes at which a text can be cut, the table of its lines
gives the span that is counted out, and the spans of its tokens are such spans. Where no count fills a
machine word, their lines and columns are the counts, their places do not go back, and tokens at one
place start at one byte. -/
theorem ofText_places (source : String) :
    (∀ before inside rest, source.toList = before ++ (inside ++ rest) →
      (LineTable.ofText source).span? (bytes before) (bytes (before ++ inside)) =
        some (.counted before inside)) ∧
    (∀ t ∈ (ofText source).tokens,
      (LineTable.ofText source).span? t.span.start t.span.stop = some t.span ∧
        ∃ before inside rest, source.toList = before ++ (inside ++ rest) ∧
          t.span = .counted before inside) ∧
    (InWords source.toList →
      (∀ before inside rest, source.toList = before ++ (inside ++ rest) →
        (Span.counted before inside).line.toNat = 1 + before.count '\n' ∧
          (Span.counted before inside).column.toNat = 1 + (before.rtakeWhile inLine).length) ∧
      (ofText source).tokens.Pairwise (fun t u => t.span.place ≤ u.span.place) ∧
      ∀ t ∈ (ofText source).tokens, ∀ u ∈ (ofText source).tokens, t.span.line = u.span.line →
        t.span.column = u.span.column → t.span.start = u.span.start) := by
  refine ⟨fun before inside rest => LineTable.span?_eq, fun t mem => ?_, fun fits => ⟨?_, ?_, ?_⟩⟩
  · obtain ⟨before, inside, rest, text, here⟩ := exists_counted mem
    refine ⟨?_, before, inside, rest, text, here⟩
    rw [here]
    exact LineTable.span?_eq text
  · intro before inside rest text
    exact Span.counted_toNat _ fits ⟨inside ++ rest, text.symm⟩
  · have ordered := @ordered_ofText ⟨⟨""⟩, source⟩
    exact ordered.imp_of_mem fun first second before =>
      (place_lt_place fits first second before.1).le
  · intro t first u second line column
    have same : t.span.place = u.span.place := by rw [Span.place, Span.place, line, column]
    rcases Nat.lt_trichotomy t.span.start u.span.start with before | same' | behind
    · exact absurd same (place_lt_place fits first second before).ne
    · exact same'
    · exact absurd same.symm (place_lt_place fits second first behind).ne

theorem ofText_places_accented :
    InWords "é\n\tb".toList ∧
      (LineTable.ofText "é\n\tb").span? 4 5 = some ⟨4, 5, 2, 2⟩ ∧
      (ofText "é\n\tb").tokens.Pairwise (fun t u => t.span.place ≤ u.span.place) := by
  have fits : InWords "é\n\tb".toList := .of_length (by decide)
  obtain ⟨counted, -, exact⟩ := ofText_places "é\n\tb"
  exact ⟨fits, counted "é\n\t".toList ['b'] [] (by decide), (exact fits).2.1⟩

end Lexing

end HeaderMeta
