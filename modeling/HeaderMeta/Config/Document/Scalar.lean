import HeaderMeta.Config.Setting

/-! Keys, strings, numbers and dates of a settings document.

A reader takes the front of a text and returns what follows, or refuses.
-/

set_option autoImplicit false

namespace HeaderMeta.Document

abbrev Reader (α : Type) := List Char → Option (α × List Char)

def isGap (c : Char) : Bool :=
  c == ' ' || c == '\t'

def skipGaps (cs : List Char) : List Char :=
  cs.dropWhile isGap

def newline? : List Char → Option (List Char)
  | '\n' :: cs => some cs
  | '\r' :: '\n' :: cs => some cs
  | _ => none

/-- Characters that comments and strings may hold as they are: tabs and everything printable. -/
def isPlain (c : Char) : Bool :=
  c == '\t' || (0x20 ≤ c.toNat && c.toNat != 0x7f)

def skipComment : List Char → List Char
  | '#' :: cs => cs.dropWhile isPlain
  | cs => cs

/-- Move over gaps, comments and line ends. `fuel` bounds the number of lines. -/
def skipLines : (fuel : Nat) → List Char → List Char
  | 0, cs => cs
  | fuel + 1, cs =>
    match newline? (skipComment (skipGaps cs)) with
    | some rest => skipLines fuel rest
    | none => skipComment (skipGaps cs)

def skipTrivia (cs : List Char) : List Char :=
  skipLines (cs.length + 1) cs

def endLine? (cs : List Char) : Option (List Char) :=
  match skipComment (skipGaps cs) with
  | [] => some []
  | cs => newline? cs

def hexValue? (c : Char) : Option Nat :=
  if c.isDigit then some (c.toNat - 48)
  else if 'a'.toNat ≤ c.toNat && c.toNat ≤ 'f'.toNat then some (c.toNat - 87)
  else if 'A'.toNat ≤ c.toNat && c.toNat ≤ 'F'.toNat then some (c.toNat - 55)
  else none

def codePoint (digits : Nat) : Reader Char := fun cs => do
  let values ← (cs.take digits).mapM hexValue?
  if values.length = digits then
    let n := values.foldl (fun n d => 16 * n + d) 0
    if n < 0xD800 || (0xDFFF < n && n < 0x110000) then some (Char.ofNat n, cs.drop digits) else none
  else none

def escape : Reader Char
  | 'b' :: cs => some ('\x08', cs)
  | 't' :: cs => some ('\t', cs)
  | 'n' :: cs => some ('\n', cs)
  | 'f' :: cs => some ('\x0c', cs)
  | 'r' :: cs => some ('\r', cs)
  | '"' :: cs => some ('"', cs)
  | '\\' :: cs => some ('\\', cs)
  | 'u' :: cs => codePoint 4 cs
  | 'U' :: cs => codePoint 8 cs
  | _ => none

def lineString (quote : Char) : (fuel : Nat) → Reader (List Char)
  | 0, _ => none
  | _, [] => none
  | fuel + 1, c :: cs =>
    if c = quote then some ([], cs)
    else if c = '\\' && quote = '"' then do
      let (e, cs) ← escape cs
      let (more, cs) ← lineString quote fuel cs
      some (e :: more, cs)
    else if isPlain c then do
      let (more, cs) ← lineString quote fuel cs
      some (c :: more, cs)
    else none

def skipEmptyLines : (fuel : Nat) → List Char → List Char
  | 0, cs => cs
  | fuel + 1, cs =>
    match newline? (skipGaps cs) with
    | some rest => skipEmptyLines fuel rest
    | none => skipGaps cs

def continuation? (cs : List Char) : Option (List Char) :=
  (newline? (skipGaps cs)).map fun rest => skipEmptyLines (rest.length + 1) rest

/-- The body of a string over several lines after its opening quotes. Up to two further quotes may
stand right before the closing three. -/
def blockString (quote : Char) : (fuel : Nat) → Reader (List Char)
  | 0, _ => none
  | _, [] => none
  | fuel + 1, c :: cs =>
    if c = quote then
      match (cs.takeWhile (· == quote)).length with
      | 0 | 1 => do
        let (more, cs) ← blockString quote fuel cs
        some (c :: more, cs)
      | n + 2 => if n ≤ 2 then some (List.replicate n c, cs.drop (n + 2)) else none
    else if c = '\\' && quote = '"' then
      match continuation? cs with
      | some rest => blockString quote fuel rest
      | none => do
        let (e, cs) ← escape cs
        let (more, cs) ← blockString quote fuel cs
        some (e :: more, cs)
    else
      match newline? (c :: cs) with
      | some rest => do
        let (more, cs) ← blockString quote fuel rest
        some ('\n' :: more, cs)
      | none =>
        if isPlain c then do
          let (more, cs) ← blockString quote fuel cs
          some (c :: more, cs)
        else none

/-- A string of any form. A line end right after three opening quotes is dropped. -/
def string : Reader String
  | a :: b :: c :: cs =>
    if (a = '"' || a = '\'') && a = b && b = c then
      let cs := (newline? cs).getD cs
      (blockString a (cs.length + 1) cs).map fun (s, rest) => (String.ofList s, rest)
    else oneLine (a :: b :: c :: cs)
  | cs => oneLine cs
where
  oneLine : Reader String
    | c :: cs =>
      if c = '"' || c = '\'' then
        (lineString c (cs.length + 1) cs).map fun (s, rest) => (String.ofList s, rest)
      else none
    | [] => none

def quotedKey : Reader String
  | c :: cs =>
    if c = '"' || c = '\'' then
      (lineString c (cs.length + 1) cs).map fun (s, rest) => (String.ofList s, rest)
    else none
  | [] => none

def isKeyChar (c : Char) : Bool :=
  c.isAlphanum || c == '_' || c == '-'

def simpleKey : Reader String := fun cs =>
  match cs.takeWhile isKeyChar with
  | [] => quotedKey cs
  | key => some (String.ofList key, cs.drop key.length)

def dottedKey : (fuel : Nat) → Reader (List String)
  | 0, _ => none
  | fuel + 1, cs => do
    let (key, rest) ← simpleKey (skipGaps cs)
    match skipGaps rest with
    | '.' :: rest =>
      let (more, rest) ← dottedKey fuel rest
      some (key :: more, rest)
    | rest => some ([key], rest)

def maxKeyParts : Nat := 79

def key : Reader (List String) := fun cs =>
  (dottedKey (cs.length + 1) cs).filter fun (parts, _) => parts.length ≤ maxKeyParts

/-- Digits with single underscores between them, as their values. -/
def digits (value? : Char → Option Nat) : Reader (List Nat)
  | [] => none
  | c :: cs =>
    match value? c with
    | none => none
    | some d =>
      match cs with
      | '_' :: rest => (digits value? rest).map fun (ds, rest) => (d :: ds, rest)
      | cs =>
        match digits value? cs with
        | some (ds, rest) => some (d :: ds, rest)
        | none => some ([d], cs)

def digitBelow (base : Nat) (c : Char) : Option Nat :=
  (hexValue? c).filter (· < base)

def numberOf (base : Nat) (ds : List Nat) : Nat :=
  ds.foldl (fun n d => base * n + d) 0

def signOf : List Char → Option Bool × List Char
  | '+' :: cs => (some false, cs)
  | '-' :: cs => (some true, cs)
  | cs => (none, cs)

def decimal : Reader (List Nat) := fun cs => do
  let (ds, rest) ← digits (digitBelow 10) cs
  if ds.length > 1 && ds.head? = some 0 then none else some (ds, rest)

def integerLimit : Nat := 9223372036854775808

def integer : Reader Setting := fun cs =>
  let based (base : Nat) (cs : List Char) : Option (Setting × List Char) := do
    let (ds, rest) ← digits (digitBelow base) cs
    if numberOf base ds < integerLimit then some (.integer (numberOf base ds), rest) else none
  match cs with
  | '0' :: 'x' :: cs => based 16 cs
  | '0' :: 'o' :: cs => based 8 cs
  | '0' :: 'b' :: cs => based 2 cs
  | cs => do
    let (sign, cs) := signOf cs
    let (ds, rest) ← decimal cs
    let n := numberOf 10 ds
    if sign = some true then
      if n ≤ integerLimit then some (.integer (-n), rest) else none
    else if n < integerLimit then some (.integer n, rest)
    else none

def exponent? : Reader Int
  | c :: cs =>
    if c = 'e' || c = 'E' then do
      let (sign, cs) := signOf cs
      let (ds, rest) ← digits (digitBelow 10) cs
      let n : Int := numberOf 10 ds
      some (if sign = some true then -n else n, rest)
    else none
  | [] => none

/-- The least number that no longer rounds to a finite one in 64 bits: it lies halfway between the
largest finite number and the power of two above it. -/
def floatLimit : Nat :=
  Nat.pow 2 1024 - Nat.pow 2 970

/-- Whether the number with the given digits, moved by a power of ten, rounds to infinity. The number
of digits decides unless the number is close to the limit, which has 309 digits. -/
def isInfinite (ds : List Nat) (exponent : Int) : Bool :=
  let ds := ds.dropWhile (· == 0)
  let size : Int := ds.length + exponent
  if ds.isEmpty || size < 309 then false
  else if 309 < size then true
  else if 0 ≤ exponent then floatLimit ≤ numberOf 10 ds * Nat.pow 10 exponent.toNat
  else floatLimit * Nat.pow 10 (-exponent).toNat ≤ numberOf 10 ds

/-- The digits of a number with a fraction or an exponent, and the power of ten that moves them. -/
def floatParts : Reader (List Nat × Int) := fun cs => do
  let (whole, rest) ← decimal cs
  match rest with
  | '.' :: rest =>
    let (part, rest) ← digits (digitBelow 10) rest
    let (exponent, rest) := (exponent? rest).getD (0, rest)
    some ((whole ++ part, exponent - part.length), rest)
  | rest => (exponent? rest).map fun (exponent, rest) => ((whole, exponent), rest)

/-- A number with a fraction or an exponent, or one of the special numbers. One too large is refused;
one too small below zero is not. -/
def float : Reader Setting := fun cs =>
  let (sign, body) := signOf cs
  match Text.after? "inf".toList body, Text.after? "nan".toList body with
  | some rest, _ | _, some rest => some (.fraction, rest)
  | none, none => do
    let ((ds, exponent), rest) ← floatParts body
    if sign != some true && isInfinite ds exponent then none else some (.fraction, rest)

def fixedDigits (n : Nat) : Reader Nat := fun cs => do
  let ds ← (cs.take n).mapM (digitBelow 10)
  if ds.length = n then some (numberOf 10 ds, cs.drop n) else none

def expect (c : Char) : List Char → Option (List Char)
  | d :: cs => if c = d then some cs else none
  | [] => none

def isLeapYear (year : Nat) : Bool :=
  year % 4 == 0 && (year % 100 != 0 || year % 400 == 0)

def daysIn (year month : Nat) : Nat :=
  if month = 2 then (if isLeapYear year then 29 else 28)
  else if [4, 6, 9, 11].contains month then 30
  else 31

def date? (cs : List Char) : Option (List Char) := do
  let (year, cs) ← fixedDigits 4 cs
  let (month, cs) ← fixedDigits 2 (← expect '-' cs)
  let (day, cs) ← fixedDigits 2 (← expect '-' cs)
  if 1 ≤ month && month ≤ 12 && 1 ≤ day && day ≤ daysIn year month then some cs else none

def time? (cs : List Char) : Option (List Char) := do
  let (hour, cs) ← fixedDigits 2 cs
  let (minute, cs) ← fixedDigits 2 (← expect ':' cs)
  let (second, cs) ← fixedDigits 2 (← expect ':' cs)
  if hour ≤ 23 && minute ≤ 59 && second ≤ 60 then
    match cs with
    | '.' :: rest =>
      let fraction := rest.takeWhile Char.isDigit
      if fraction.isEmpty then none else some (rest.drop fraction.length)
    | cs => some cs
  else none

def offset? (cs : List Char) : Option (List Char) :=
  match cs with
  | c :: rest =>
    if c = 'Z' || c = 'z' then some rest
    else if c = '+' || c = '-' then do
      let (hour, rest) ← fixedDigits 2 rest
      let (minute, rest) ← fixedDigits 2 (← expect ':' rest)
      if hour ≤ 23 && minute ≤ 59 then some rest else none
    else some cs
  | [] => some []

def dateTime : Reader Setting := fun cs =>
  match date? cs with
  | none => (time? cs).map ((.date, ·))
  | some (c :: rest) =>
    if c = 'T' || c = 't' || c = ' ' then
      match time? rest with
      | some rest => (offset? rest).map ((.date, ·))
      | none => if c = ' ' then some (.date, c :: rest) else none
    else some (.date, c :: rest)
  | some [] => some (.date, [])

def number : Reader Setting := fun cs =>
  (dateTime cs).or ((float cs).or (integer cs))

end HeaderMeta.Document
