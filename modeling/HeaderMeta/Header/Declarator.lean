import HeaderMeta.Declaration
import HeaderMeta.Header.Tokens

/-! Declarators: the parts of a statement that introduce names.

A statement is cut at its outer commas, initialisers and bitfield widths fall away, and each part
splits into the tokens of its type and the name with its pointer, reference and array marks.
-/

set_option autoImplicit false

namespace HeaderMeta

def spellingNoise : List String :=
  ["const", "volatile", "mutable", "struct", "class", "union", "enum", "typename", "inline",
    "constexpr", "register", "thread_local"]

def Token.isNoise : Token → Bool
  | .word text => spellingNoise.contains text
  | _ => false

/-- Tokens side by side, with a space only between two words or numbers. -/
def spellAfter (previous : Option Token) : List Token → String
  | [] => ""
  | t :: ts =>
    let gap := previous.any (·.needsSpaceBefore t)
    (if gap then " " else "") ++ t.spelling ++ spellAfter (some t) ts

def spell (ts : List Token) : String :=
  spellAfter none (ts.filter (! ·.isNoise))

def Token.isQualifier (t : Token) : Bool :=
  t == .word "const" || t == .word "volatile"

/-- On a reversed list just before a closing bracket: what stands before the matching opening
bracket. `inner` bracket pairs are open inside. -/
def beforeBracket? : (inner : Nat) → Tokens → Option Tokens
  | _, [] => none
  | inner, t :: ts =>
    if t.token = .mark .closeBracket then beforeBracket? (inner + 1) ts
    else if t.token = .mark .openBracket then
      match inner with
      | 0 => some ts
      | inner + 1 => beforeBracket? inner ts
    else beforeBracket? inner ts

theorem length_beforeBracket? {inner : Nat} {ts rest : Tokens}
    (h : beforeBracket? inner ts = some rest) : rest.length < ts.length := by
  fun_induction beforeBracket? inner ts <;> simp_all <;> omega

/-- Drop `*`, `&`, cv words and array bounds from the end of a reversed alias target. The leftmost
of `*` and bounds decides the kind; `&` counts only where nothing follows it. -/
def stripReversed (kind : TypeKind) (ts : Tokens) : Tokens × TypeKind :=
  match ts with
  | [] => ([], kind)
  | t :: rest =>
    match t.token with
    | .mark .star => stripReversed .pointer rest
    | .mark .amp | .mark .ampAmp =>
      stripReversed (if kind = .unresolved then .reference else kind) rest
    | .mark .closeBracket =>
      match _h : beforeBracket? 0 rest with
      | some before => stripReversed .array before
      | none => ([], .array)
    | token => if token.isQualifier then stripReversed kind rest else (t :: rest, kind)
termination_by ts.length
decreasing_by
  all_goals simp
  have := length_beforeBracket? _h
  omega

def stripIndirection (ts : Tokens) : List Token × TypeKind :=
  let (kept, kind) := stripReversed .unresolved ts.reverse
  (kept.reverse.map Placed.token, kind)

/-- One part of a statement between outer commas, without initialiser and width. -/
structure DeclaratorPart where
  tokens : Tokens
  bitfield : Bool
  deriving Repr

namespace DeclaratorPart

/-- What a cut through a statement remembers: the part so far, last token first, whether a width
was seen, whether the rest of the part is dropped, and the open brackets and angles. -/
structure Cut where
  current : Tokens := []
  bitfield : Bool := false
  inTail : Bool := false
  depth : Nat := 0
  angles : Nat := 0
  afterWord : Bool := false

namespace Cut

def isOuter (c : Cut) : Bool :=
  c.depth = 0 && c.angles = 0

def note (c : Cut) (t : Token) : Cut :=
  match t with
  | .mark .openParen | .mark .openBracket => { c with depth := c.depth + 1 }
  | .mark .openBrace =>
    -- a brace initialiser starts the tail
    { c with depth := c.depth + 1, inTail := c.inTail || c.isOuter }
  | .mark .closeParen | .mark .closeBracket | .mark .closeBrace => { c with depth := c.depth - 1 }
  | .mark .less =>
    if !c.inTail && c.afterWord then { c with angles := c.angles + 1 } else c
  | .mark .greater => if c.inTail then c else { c with angles := c.angles - 1 }
  | .mark .equal => if c.isOuter then { c with inTail := true } else c
  | .mark .colon =>
    if c.isOuter && !c.inTail then { c with bitfield := true, inTail := true } else c
  | _ => c

def keep (c : Cut) (t : Placed) : Cut :=
  { c with
    current := if c.inTail then c.current else t :: c.current
    afterWord := t.token.isWord }

def part (c : Cut) : DeclaratorPart :=
  ⟨c.current.reverse, c.bitfield⟩

def restart (c : Cut) : Cut :=
  { depth := c.depth, angles := c.angles }

end Cut

def splitFrom (c : Cut) : Tokens → List DeclaratorPart
  | [] => if c.current.isEmpty then [] else [c.part]
  | t :: ts =>
    if t.token = .mark .comma && c.isOuter then c.part :: splitFrom c.restart ts
    else splitFrom ((c.note t.token).keep t) ts

def split (statement : Tokens) : List DeclaratorPart :=
  splitFrom {} statement

end DeclaratorPart

structure Declarator where
  name : String
  span : Span
  pointer : Bool := false
  reference : Bool := false
  array : Bool := false
  bitfield : Bool := false
  deriving Repr

namespace Declarator

def kind (d : Declarator) : TypeKind :=
  if d.bitfield then .bitfield
  else if d.pointer then .pointer
  else if d.reference then .reference
  else if d.array then .array
  else .unresolved

/-- Drop array bounds from the end of a reversed part. A bound without an opening bracket makes the
part unreadable. -/
def dropBounds (array : Bool) (ts : Tokens) : Option (Tokens × Bool) :=
  match ts with
  | ⟨.mark .closeBracket, _⟩ :: rest =>
    match _h : beforeBracket? 0 rest with
    | some before => dropBounds true before
    | none => none
  | ts => some (ts, array)
termination_by ts.length
decreasing_by
  have := length_beforeBracket? _h
  simp
  omega

def dropMarks (d : Declarator) : Tokens → Tokens × Declarator
  | [] => ([], d)
  | t :: ts =>
    match t.token with
    | .mark .star => dropMarks { d with pointer := true } ts
    | .mark .amp | .mark .ampAmp => dropMarks { d with reference := true } ts
    | token => if token.isQualifier then dropMarks d ts else (t :: ts, d)

def ofTokens? (ts : Tokens) (bitfield : Bool) : Option (List Token × Declarator) := do
  let (rest, array) ← dropBounds false ts.reverse
  match rest with
  | ⟨.word name, span⟩ :: type =>
    let (type, d) := dropMarks { name, span, array, bitfield } type
    some (type.reverse.map Placed.token, d)
  | _ => none

def ofPart? (part : DeclaratorPart) : Option (List Token × Declarator) :=
  ofTokens? part.tokens part.bitfield

end Declarator

end HeaderMeta
