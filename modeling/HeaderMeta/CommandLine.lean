import HeaderMeta.Config

/-! Command-line arguments.

Options were once written with a single dash, `-key=value`; that spelling is turned into the long one
first. A value may be attached to its option or follow as an argument of its own, and such a value is
checked when the next option is met or the arguments end.
-/

set_option autoImplicit false

namespace HeaderMeta

inductive SummaryFormat where
  | text | json
  deriving DecidableEq, Repr

structure Arguments where
  moduleRoot : Option Path := none
  includes : List Path := []
  moduleName : Option String := none
  exclude : List String := []
  verbosity : Option Int := none
  silent : Bool := false
  config : Option Path := none
  logDir : Option Path := none
  structDefault : Option DefaultPolicy := none
  classDefault : Option DefaultPolicy := none
  caseInsensitive : Bool := false
  caseSensitive : Bool := false
  implMode : Option ImplMode := none
  format : SummaryFormat := .text
  deriving DecidableEq, Repr

/-- Why arguments are not taken, or what they ask for instead of a run. -/
inductive UsageError where
  | unknownArgument
  /-- A value is missing, or is none of the possible ones. -/
  | invalidValue
  /-- A value cannot be read. -/
  | rejectedValue
  /-- A flag was given a value. -/
  | unneededValue
  | conflict
  | help
  | version
  deriving DecidableEq, Repr

namespace CommandLine

def oldKeys : List (String × String) :=
  [("moduleroot", "moduleroot"), ("include", "include"), ("module", "module"), ("ex", "ex"),
    ("v", "verbosity"), ("config", "config"), ("help", "help")]

def splitValue (arg : List Char) : String × Option String :=
  match arg.dropWhile (· != '=') with
  | [] => (String.ofList arg, none)
  | _ :: value => (String.ofList (arg.takeWhile (· != '=')), some (String.ofList value))

/-- The long spelling of an old option; any other argument stays. -/
def modernize (arg : String) : String :=
  match arg.toList with
  | '-' :: body =>
    if body.head? = some '-' then arg
    else
      let (key, value) := splitValue body
      match oldKeys.find? (·.1 = key), value with
      | some (_, long), some value => "--" ++ long ++ "=" ++ value
      | some (_, long), none => "--" ++ long
      | none, _ => arg
  | _ => arg

def normalize : List String → List String
  | [] => []
  | program :: args => program :: args.map modernize

inductive Opt where
  | moduleRoot | include | moduleName | exclude | verbosity | config | logDir
  | structDefault | classDefault | implMode | format
  deriving DecidableEq, Repr

inductive Flag where
  | silent | caseInsensitive | caseSensitive | help | version
  deriving DecidableEq, Repr

inductive Key where
  | opt (o : Opt)
  | flag (f : Flag)
  deriving DecidableEq, Repr

def longKeys : List (String × Key) :=
  [("moduleroot", .opt .moduleRoot), ("include", .opt .include), ("module", .opt .moduleName),
    ("ex", .opt .exclude), ("exclude", .opt .exclude), ("verbosity", .opt .verbosity),
    ("silent", .flag .silent), ("config", .opt .config), ("log-file", .opt .logDir),
    ("struct-default", .opt .structDefault), ("class-default", .opt .classDefault),
    ("case-insensitive", .flag .caseInsensitive), ("case-sensitive", .flag .caseSensitive),
    ("impl-mode", .opt .implMode), ("format", .opt .format), ("help", .flag .help),
    ("version", .flag .version)]

def longKey? (name : String) : Option Key :=
  (longKeys.find? (·.1 = name)).map (·.2)

def shortKey? : Char → Option Key
  | 'v' => some (.opt .verbosity)
  | 's' => some (.flag .silent)
  | 'h' => some (.flag .help)
  | 'V' => some (.flag .version)
  | _ => none

def digits? (cs : List Char) : Option Nat :=
  if !cs.isEmpty && cs.all Char.isDigit then
    some (cs.foldl (fun n c => 10 * n + (c.toNat - '0'.toNat)) 0)
  else none

def number? (s : String) : Option Int :=
  let n? : Option Int :=
    match s.toList with
    | '-' :: cs => (digits? cs).map fun n => -(n : Int)
    | '+' :: cs => (digits? cs).map Int.ofNat
    | cs => (digits? cs).map Int.ofNat
  n?.filter fun n => -9223372036854775808 ≤ n && n ≤ 9223372036854775807

def path (value : String) : Except UsageError Path :=
  if value = "" then .error .invalidValue else .ok ⟨value⟩

def policy (value : String) : Except UsageError DefaultPolicy :=
  (DefaultPolicy.parse value).mapError fun _ => .rejectedValue

/-- Give an option its value. A list grows; anything else is replaced. -/
def setOption (a : Arguments) (value : String) : Opt → Except UsageError Arguments
  | .moduleRoot => do return { a with moduleRoot := some (← path value) }
  | .include => do return { a with includes := a.includes ++ [← path value] }
  | .moduleName => .ok { a with moduleName := some value }
  | .exclude => .ok { a with exclude := a.exclude ++ [value] }
  | .verbosity =>
    match number? value with
    | some n => .ok { a with verbosity := some n }
    | none => .error .rejectedValue
  | .config => do return { a with config := some (← path value) }
  | .logDir => do return { a with logDir := some (← path value) }
  | .structDefault => do return { a with structDefault := some (← policy value) }
  | .classDefault => do return { a with classDefault := some (← policy value) }
  | .implMode =>
    match ImplMode.parse value with
    | .ok mode => .ok { a with implMode := some mode }
    | .error _ => .error .rejectedValue
  | .format =>
    if value = "text" then .ok { a with format := .text }
    else if value = "json" then .ok { a with format := .json }
    else .error .invalidValue

def setFlag (a : Arguments) : Flag → Except UsageError Arguments
  | .silent => .ok { a with silent := true }
  | .caseInsensitive => .ok { a with caseInsensitive := true }
  | .caseSensitive => .ok { a with caseSensitive := true }
  | .help => .error .help
  | .version => .error .version

structure Awaiting where
  opt : Opt
  value : Option String := none

/-- Arguments read so far. -/
structure Progress where
  taken : Arguments := {}
  awaiting : Option Awaiting := none

namespace Progress

/-- Settle the option that waits: its value is checked only now. -/
def settle (p : Progress) : Except UsageError Progress :=
  match p.awaiting with
  | none => .ok p
  | some ⟨opt, some value⟩ => do return { taken := ← setOption p.taken value opt }
  | some ⟨_, none⟩ => .error .invalidValue

def expecting (p : Progress) : Option Opt :=
  match p.awaiting with
  | some ⟨opt, none⟩ => some opt
  | _ => none

def option (p : Progress) (opt : Opt) : Option String → Except UsageError Progress
  | some value => do
    let p ← p.settle
    return { p with taken := ← setOption p.taken value opt }
  | none => do return { ← p.settle with awaiting := some ⟨opt, none⟩ }

def flag (p : Progress) (f : Flag) : Except UsageError Progress := do
  let p ← p.settle
  return { p with taken := ← setFlag p.taken f }

def long (p : Progress) (body : List Char) : Except UsageError Progress :=
  let (name, value) := splitValue body
  match longKey? name, value with
  | some (.opt opt), value => p.option opt value
  | some (.flag _), some _ => .error .unneededValue
  | some (.flag f), none => p.flag f
  | none, _ => .error .unknownArgument

/-- Short keys in a row. One that takes a value takes all that is left, without a leading `=`. -/
def short (p : Progress) : List Char → Except UsageError Progress
  | [] => .ok p
  | c :: rest =>
    match shortKey? c with
    | none => .error .unknownArgument
    | some (.flag f) => do short (← p.flag f) rest
    | some (.opt opt) =>
      match rest with
      | [] => p.option opt none
      | '=' :: value => p.option opt (some (String.ofList value))
      | value => p.option opt (some (String.ofList value))

def value (p : Progress) (arg : String) : Except UsageError Progress :=
  match p.expecting with
  | some opt => .ok { p with awaiting := some ⟨opt, some arg⟩ }
  | none => .error .unknownArgument

end Progress

/-- What follows the minus sign of a number: a digit, then digits with at most one point and, after it,
at most one exponent mark that is not at the end. -/
def isUnsignedNumber (cs : List Char) : Bool :=
  let mantissa := cs.takeWhile (· != 'e')
  cs.all (fun c => c.isDigit || c == '.' || c == 'e') && cs.head?.any Char.isDigit &&
    cs.count 'e' ≤ 1 && cs.getLast? != some 'e' && cs.count '.' ≤ 1 && cs.count '.' == mantissa.count '.'

def step (p : Progress) (arg : String) : Except UsageError Progress :=
  match arg.toList with
  | '-' :: '-' :: body => p.long body
  | '-' :: c :: cs =>
    if p.expecting = some .verbosity && isUnsignedNumber (c :: cs) then p.value arg
    else p.short (c :: cs)
  | _ => p.value arg

/-- The arguments after the program name. Nothing may follow a lone `--`. -/
def readAll (p : Progress) : List String → Except UsageError Progress
  | [] => p.settle
  | arg :: rest =>
    if arg = "--" then if rest.isEmpty then p.settle else .error .unknownArgument
    else do readAll (← step p arg) rest

def parse (args : List String) : Except UsageError Arguments := do
  let p ← readAll {} args.tail
  if p.taken.caseInsensitive && p.taken.caseSensitive then .error .conflict else .ok p.taken

end CommandLine

end HeaderMeta
