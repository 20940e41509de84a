import HeaderMeta.Proofs.Initializers
import HeaderMeta.Proofs.Progress.Tokens

/-! Groups of brackets, and what the functions that skip tokens do at them.

`BalancedIn` looks at one kind of bracket only, as the function that skips a group does. Skipping a
declaration counts parentheses and brackets together and leaps over braces, so there the kinds have to
nest (`Nested`). Tokens of either form are passed as a whole, whatever follows them.
-/

set_option autoImplicit false

namespace HeaderMeta

namespace Tokens
open Grammar (IsGroup)

section Groups
variable {«open» close : Mark} {own us tail : Tokens}

inductive BalancedIn («open» close : Mark) : Tokens → Prop where
  | nil : BalancedIn «open» close []
  | token {t : Placed} {ts : Tokens} (inside : t.token ≠ .eof) (notOpen : t.token ≠ .mark «open»)
      (notClose : t.token ≠ .mark close) (more : BalancedIn «open» close ts) :
      BalancedIn «open» close (t :: ts)
  | group {s₁ s₂ : Span} {inner ts : Tokens} (inside : BalancedIn «open» close inner)
      (more : BalancedIn «open» close ts) :
      BalancedIn «open» close (⟨.mark «open», s₁⟩ :: (inner ++ ⟨.mark close, s₂⟩ :: ts))

theorem BalancedIn.append (first : BalancedIn «open» close own) (second : BalancedIn «open» close us) :
    BalancedIn «open» close (own ++ us) := by
  induction first with
  | nil => exact second
  | token inside notOpen notClose _ ih => exact .token inside notOpen notClose ih
  | group inside _ _ ih => simpa using .group inside ih

theorem BalancedIn.inside (balanced : BalancedIn «open» close own) : ∀ t ∈ own, t.token ≠ .eof := by
  induction balanced with
  | nil => exact nofun
  | token inside _ _ _ ih => exact List.forall_mem_cons.mpr ⟨inside, ih⟩
  | group _ _ ihInner ih => simp_all [or_imp]

theorem BalancedIn.of_plain
    (plain : ∀ t ∈ own, t.token ≠ .eof ∧ t.token ≠ .mark «open» ∧ t.token ≠ .mark close) :
    BalancedIn «open» close own := by
  induction own with
  | nil => exact .nil
  | cons t own ih =>
    obtain ⟨⟨inside, notOpen, notClose⟩, others⟩ := List.forall_mem_cons.mp plain
    exact .token inside notOpen notClose (ih others)

/-- A search for the end of a group passes what is balanced inside it. -/
theorem BalancedIn.findClose (balanced : BalancedIn «open» close own) (distinct : «open» ≠ close)
    (depth : Nat) (tail : Tokens) :
    Tokens.findClose «open» close depth (own ++ tail) = Tokens.findClose «open» close depth tail := by
  induction balanced generalizing depth tail with
  | nil => rfl
  | token inside notOpen notClose _ ih =>
    simp [Tokens.findClose, inside, notOpen, notClose, ih]
  | group _ _ ihInner ih =>
    simp [Tokens.findClose, distinct.symm, ihInner, ih]

/-- Tokens that close `inner` groups opened before them, and are balanced apart from that. -/
def ClosesIn («open» close : Mark) : (inner : Nat) → Tokens → Prop
  | 0, ts => BalancedIn «open» close ts
  | inner + 1, ts => ∃ (first : Tokens) (s : Span) (later : Tokens),
      ts = first ++ ⟨.mark close, s⟩ :: later ∧ BalancedIn «open» close first ∧
        ClosesIn «open» close inner later

theorem ClosesIn.append {inner : Nat} (first : BalancedIn «open» close own)
    (second : ClosesIn «open» close inner us) : ClosesIn «open» close inner (own ++ us) := by
  cases inner with
  | zero => exact first.append second
  | succ inner =>
    obtain ⟨front, s, later, rfl, balanced, closes⟩ := second
    exact ⟨own ++ front, s, later, by simp, first.append balanced, closes⟩

theorem exists_closesIn_of_findClose {inner : Nat} {ts after : Tokens} {s : Span}
    (found : Tokens.findClose «open» close inner ts = ⟨.mark close, s⟩ :: after) :
    ∃ us, ts = us ++ ⟨.mark close, s⟩ :: after ∧ ClosesIn «open» close inner us := by
  fun_induction Tokens.findClose «open» close inner ts with
  | case1 => cases found
  | case2 inner t ts ended =>
    obtain ⟨rfl, rfl⟩ := List.cons.inj found
    cases ended
  | case3 inner t ts _ opens ih =>
    obtain ⟨us, rfl, first, s₂, later, rfl, balanced, closes⟩ := ih found
    obtain ⟨token, s₁⟩ := t
    obtain rfl : token = .mark «open» := opens
    refine ⟨⟨.mark «open», s₁⟩ :: (first ++ ⟨.mark close, s₂⟩ :: later), rfl, ?_⟩
    -- an inner group runs up to the first of the closing marks that were found
    have group : BalancedIn «open» close (⟨.mark «open», s₁⟩ :: (first ++ [⟨.mark close, s₂⟩])) :=
      .group balanced .nil
    simpa using ClosesIn.append group closes
  | case4 t ts _ _ _ =>
    obtain ⟨rfl, rfl⟩ := List.cons.inj found
    exact ⟨[], rfl, .nil⟩
  | case5 t ts _ _ closes inner ih =>
    obtain ⟨us, rfl, rest⟩ := ih found
    obtain ⟨token, s₁⟩ := t
    obtain rfl : token = .mark close := closes
    exact ⟨⟨.mark close, s₁⟩ :: us, rfl, [], s₁, us, rfl, .nil, rest⟩
  | case6 inner t ts inside notOpen notClose ih =>
    obtain ⟨us, rfl, rest⟩ := ih found
    exact ⟨t :: us, rfl, .append (show BalancedIn «open» close [t] from
      .token inside notOpen notClose .nil) rest⟩

theorem closerOf?_eq (pair : IsGroup «open» close) : closerOf? «open» = some close := by
  cases pair <;> rfl

/-- A group is balanced up to the mark that is found to close it. -/
theorem exists_balanced_of_toClose (pair : IsGroup «open» close) {ts after : Tokens} {s₁ s₂ : Span}
    (found : Tokens.toClose (⟨.mark «open», s₁⟩ :: ts) = ⟨.mark close, s₂⟩ :: after) :
    ∃ inner, ts = inner ++ ⟨.mark close, s₂⟩ :: after ∧ BalancedIn «open» close inner := by
  rw [Tokens.toClose, closerOf?_eq pair] at found
  exact exists_closesIn_of_findClose found

theorem distinct_of_isGroup (pair : IsGroup «open» close) : «open» ≠ close := by
  cases pair <;> decide

theorem BalancedIn.toClose (balanced : BalancedIn «open» close own) (pair : IsGroup «open» close)
    (s₁ s₂ : Span) (tail : Tokens) :
    Tokens.toClose (⟨.mark «open», s₁⟩ :: (own ++ ⟨.mark close, s₂⟩ :: tail)) =
      ⟨.mark close, s₂⟩ :: tail := by
  have distinct := distinct_of_isGroup pair
  simp [Tokens.toClose, closerOf?_eq pair, balanced.findClose distinct, Tokens.findClose,
    distinct.symm]

/-- A group is skipped up to behind the mark that closes it. -/
theorem BalancedIn.skipGroup (balanced : BalancedIn «open» close own) (pair : IsGroup «open» close)
    (s₁ s₂ : Span) (some : tail ≠ []) :
    Tokens.skipGroup (⟨.mark «open», s₁⟩ :: (own ++ ⟨.mark close, s₂⟩ :: tail)) = tail := by
  have distinct := distinct_of_isGroup pair
  simp [Tokens.skipGroup, closerOf?_eq pair, balanced.findClose distinct, Tokens.findClose,
    distinct.symm, some]

end Groups

section Nested
variable {«open» close : Mark} {own us tail : Tokens}

def isBracket : Token → Bool
  | .mark .openParen | .mark .openBracket | .mark .openBrace => true
  | .mark .closeParen | .mark .closeBracket | .mark .closeBrace => true
  | _ => false

/-- Tokens in which the groups of all kinds close in the order in which they were opened. -/
inductive Nested : Tokens → Prop where
  | nil : Nested []
  | token {t : Placed} {ts : Tokens} (inside : t.token ≠ .eof) (plain : isBracket t.token = false)
      (more : Nested ts) : Nested (t :: ts)
  | group {«open» close : Mark} {s₁ s₂ : Span} {inner ts : Tokens} (pair : IsGroup «open» close)
      (inside : Nested inner) (more : Nested ts) :
      Nested (⟨.mark «open», s₁⟩ :: (inner ++ ⟨.mark close, s₂⟩ :: ts))

/-- What nests is balanced in each kind of group. -/
theorem Nested.balancedIn (nested : Nested own) (pair : IsGroup «open» close) :
    BalancedIn «open» close own := by
  induction nested with
  | nil => exact .nil
  | token inside plain _ ih =>
    refine .token inside ?_ ?_ ih <;> rintro same <;> cases pair <;> simp [same, isBracket] at plain
  | @group other closer s₁ s₂ inner ts otherPair _ _ ihInner ih =>
    -- the group is one of this kind, or both its marks are plain tokens to the count
    cases pair <;> cases otherPair
    case parens.parens | brackets.brackets | braces.braces => exact .group ihInner ih
    all_goals
      exact .token (by simp) (by simp) (by simp)
        (ihInner.append (.token (by simp) (by simp) (by simp) ih))

/-- Inside parentheses or brackets no declaration ends. -/
theorem Nested.skipFrom (nested : Nested own) (depth : Nat) (tail : Tokens) (some : tail ≠ []) :
    Tokens.skipFrom (depth + 1) (own ++ tail) = Tokens.skipFrom (depth + 1) tail := by
  induction nested generalizing depth tail with
  | nil => rfl
  | @token t ts inside plain _ ih =>
    rw [List.cons_append, Tokens.skipFrom]
    split <;> simp_all [isBracket]
  | @group «open» close s₁ s₂ inner ts pair insideGroup _ ihInner ih =>
    have behind : ts ++ tail ≠ [] := by simp [some]
    have leapt := (insideGroup.balancedIn pair).skipGroup pair s₁ s₂ behind
    have opened := ihInner (depth + 1) (⟨.mark close, s₂⟩ :: (ts ++ tail)) (by simp)
    rw [List.cons_append, List.append_assoc, List.cons_append]
    cases pair with
    | parens | brackets =>
      rw [Tokens.skipFrom, opened, Tokens.skipFrom]
      simpa using ih depth tail some
    | braces =>
      rw [Tokens.skipFrom]
      simpa [leapt] using ih depth tail some

end Nested

end Tokens

end HeaderMeta
