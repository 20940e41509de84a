import HeaderMeta.Config.Document.Scalar
import HeaderMeta.Config.Document.Tree

/-! Settings documents: `key = value` lines under `[table]` headers. -/

set_option autoImplicit false

namespace HeaderMeta.Document

def maxNesting : Nat := 79

/-- Values separated by commas up to `]`; a comma may stand before it. -/
def arrayItems (value : Reader Setting) : (fuel : Nat) → Reader (List Setting)
  | 0, _ => none
  | fuel + 1, cs =>
    match skipTrivia cs with
    | ']' :: rest => some ([], rest)
    | cs => do
      let (v, rest) ← value cs
      match skipTrivia rest with
      | ',' :: rest =>
        let (more, rest) ← arrayItems value fuel rest
        some (v :: more, rest)
      | ']' :: rest => some ([v], rest)
      | _ => none

/-- Pairs separated by commas up to the closing brace, all on one line. -/
def inlinePairs (value : Reader Setting) (es : Entries) : (fuel : Nat) → Reader Entries
  | 0, _ => none
  | fuel + 1, cs => do
    let (path, rest) ← key cs
    let rest ← expect '=' rest
    let (v, rest) ← value (skipGaps rest)
    let es ← es.enter path v
    match skipGaps rest with
    | ',' :: rest => inlinePairs value es fuel rest
    | '}' :: rest => some (es, rest)
    | _ => none

def inlineTable (value : Reader Setting) : Reader Setting := fun cs =>
  match skipGaps cs with
  | '}' :: rest => some (.table [], rest)
  | cs => (inlinePairs value [] (cs.length + 1) cs).map fun (es, rest) =>
      (.table (entriesSettings es), rest)

def value : (room : Nat) → Reader Setting
  | _, '"' :: cs => (string ('"' :: cs)).map fun (s, rest) => (.text s, rest)
  | _, '\'' :: cs => (string ('\'' :: cs)).map fun (s, rest) => (.text s, rest)
  | room + 1, '[' :: cs =>
    (arrayItems (value room) (cs.length + 1) cs).map fun (items, rest) => (.list items, rest)
  | room + 1, '{' :: cs => inlineTable (value room) cs
  | _, cs =>
    match Text.after? "true".toList cs, Text.after? "false".toList cs with
    | some rest, _ => some (.bool true, rest)
    | _, some rest => some (.bool false, rest)
    | none, none => number cs

def header (s : State) (cs : List Char) : Option (State × List Char) :=
  match cs with
  | '[' :: cs => do
    let (path, rest) ← key cs
    let rest ← expect ']' (← expect ']' rest)
    some (← s.openArray path, rest)
  | cs => do
    let (path, rest) ← key cs
    let rest ← expect ']' rest
    some (← s.openTable path, rest)

def pair (s : State) (cs : List Char) : Option (State × List Char) := do
  let (path, rest) ← key cs
  let rest ← expect '=' rest
  let (v, rest) ← value maxNesting (skipGaps rest)
  some ({ s with current := ← s.current.enter path v }, rest)

def readLines (s : State) : (fuel : Nat) → List Char → Option State
  | 0, _ => none
  | fuel + 1, cs =>
    match skipTrivia cs with
    | [] => some s
    | c :: cs => do
      let (s, rest) ← if c = '[' then header s cs else pair s (c :: cs)
      readLines s fuel (← endLine? rest)

/-- The table a document stands for. A byte order mark at the front is ignored. -/
def parse? (text : String) : Option Setting := do
  let cs := text.toList
  let cs := if cs.head? = some '\ufeff' then cs.drop 1 else cs
  let s ← readLines {} (cs.length + 1) cs
  some (.table (entriesSettings (← s.close)))

end HeaderMeta.Document

namespace HeaderMeta

def Config.parse? (text : String) : Option Config :=
  (Document.parse? text).bind (Config.ofSetting? .lenient)

end HeaderMeta
