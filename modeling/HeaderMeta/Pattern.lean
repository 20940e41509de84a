import HeaderMeta.Text.Blank
import HeaderMeta.Text.Word

/-! Regular patterns over text, with word boundaries.

`Pattern.Matches` says what a pattern means: which stretch of a text it takes, given the characters
around the stretch. `Pattern.search` decides whether it takes some stretch, by following all ways
through the pattern at once: a set of patterns still to be matched is moved over one character after
the other.
-/

set_option autoImplicit false

namespace HeaderMeta

inductive CharSet where
  | one (c : Char)
  | range (first last : Char)
  | blank
  | word
  | union (a b : CharSet)
  | compl (a : CharSet)
  deriving DecidableEq, Repr

namespace CharSet

def has : CharSet → Char → Bool
  | one c, d => c == d
  | range first last, d => first.toNat ≤ d.toNat && d.toNat ≤ last.toNat
  | blank, d => Text.isBlank d
  | word, d => Text.isWordChar d
  | union a b, d => a.has d || b.has d
  | compl a, d => !a.has d

def anyOf : List Char → CharSet
  | [] => compl (compl (range 'b' 'a'))
  | [c] => one c
  | c :: cs => union (one c) (anyOf cs)

def noneOf (cs : List Char) : CharSet :=
  compl (anyOf cs)

end CharSet

inductive Pattern where
  | empty
  | set (s : CharSet)
  /-- A place between a word character and something else. -/
  | boundary
  | seq (p q : Pattern)
  | alt (p q : Pattern)
  | star (p : Pattern)
  deriving DecidableEq, Repr

namespace Pattern

def seqs : List Pattern → Pattern
  | [] => empty
  | [p] => p
  | p :: ps => seq p (seqs ps)

def char (c : Char) : Pattern :=
  set (.one c)

def literal (cs : List Char) : Pattern :=
  seqs (cs.map char)

def text (s : String) : Pattern :=
  literal s.toList

def optional (p : Pattern) : Pattern :=
  alt p empty

def plus (p : Pattern) : Pattern :=
  seq p (star p)

def blanks : Pattern :=
  star (set .blank)

/-- Whether a stretch is bordered by a word character, given the neighbour if there is one. -/
def wordAt (c : Option Char) : Bool :=
  c.any Text.isWordChar

/-- `Matches p before cs after`: the pattern takes exactly `cs` between the given neighbours. -/
inductive Matches : Pattern → Option Char → List Char → Option Char → Prop where
  | empty {before after : Option Char} : Matches .empty before [] after
  | set {s : CharSet} {c : Char} {before after : Option Char} (h : s.has c = true) :
      Matches (.set s) before [c] after
  | boundary {before after : Option Char} (h : wordAt before ≠ wordAt after) :
      Matches .boundary before [] after
  | seq {p q : Pattern} {cs ds : List Char} {before after : Option Char}
      (hp : Matches p before cs (ds.head?.or after))
      (hq : Matches q (cs.getLast?.or before) ds after) : Matches (.seq p q) before (cs ++ ds) after
  | left {p q : Pattern} {cs : List Char} {before after : Option Char}
      (h : Matches p before cs after) : Matches (.alt p q) before cs after
  | right {p q : Pattern} {cs : List Char} {before after : Option Char}
      (h : Matches q before cs after) : Matches (.alt p q) before cs after
  | stop {p : Pattern} {before after : Option Char} : Matches (.star p) before [] after
  | more {p : Pattern} {cs ds : List Char} {before after : Option Char}
      (hp : Matches p before cs (ds.head?.or after))
      (hq : Matches (.star p) (cs.getLast?.or before) ds after) :
      Matches (.star p) before (cs ++ ds) after

/-- Whether a pattern can end here, between neighbours that are word characters or not. -/
def nullable (before after : Bool) : Pattern → Bool
  | empty => true
  | set _ => false
  | boundary => before != after
  | seq p q => p.nullable before after && q.nullable before after
  | alt p q => p.nullable before after || q.nullable before after
  | star _ => true

def andThen (p q : Pattern) : Pattern :=
  match p with
  | empty => q
  | p => seq p q

def step (before : Bool) (c : Char) : Pattern → List Pattern
  | empty | boundary => []
  | set s => if s.has c then [empty] else []
  | seq p q =>
    (p.step before c).map (·.andThen q) ++
      if p.nullable before (Text.isWordChar c) then q.step before c else []
  | alt p q => p.step before c ++ q.step before c
  | star p => (p.step before c).map (·.andThen (star p))

def distinct : List Pattern → List Pattern
  | [] => []
  | p :: ps => let rest := distinct ps; if rest.contains p then rest else p :: rest

/-- Search with the patterns in `live` under way; `p` may start at every place. -/
def searchFrom (p : Pattern) (before : Bool) (live : List Pattern) : List Char → Bool
  | [] => (p :: live).any (nullable before false)
  | c :: cs =>
    (p :: live).any (nullable before (Text.isWordChar c)) ||
      searchFrom p (Text.isWordChar c) (distinct ((p :: live).flatMap (step before c))) cs

def search (p : Pattern) (cs : List Char) : Bool :=
  searchFrom p false [] cs

end Pattern

end HeaderMeta
