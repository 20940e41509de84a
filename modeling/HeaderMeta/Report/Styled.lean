import HeaderMeta.Report

/-! The summary of a run as people read it, in colour where the terminal has some. -/

set_option autoImplicit false

namespace HeaderMeta

inductive Colour where
  | red | green | yellow
  deriving DecidableEq, Repr

def Colour.number : Colour → Nat
  | red => 1
  | green => 2
  | yellow => 3

/-- A stretch of text in one style. -/
inductive StyledText where
  | plain (text : String)
  | bold (colour : Option Colour) (text : String)
  deriving DecidableEq, Repr

namespace StyledText

def escape (code : String) : String :=
  "\x1b[" ++ code ++ "m"

def render (inColour : Bool) : StyledText → String
  | plain text => text
  | bold colour text =>
    if inColour then
      let hue := (colour.map fun c => escape ("3" ++ toString c.number)).getD ""
      escape "0" ++ escape "1" ++ hue ++ text ++ escape "0"
    else text

end StyledText

namespace ModuleReport

open StyledText

def outcome (r : ModuleReport) : StyledText :=
  if r.isAborted then bold (some .red) " ABORTED "
  else if r.hasFailures then bold (some .yellow) " PARTIAL "
  else bold (some .green) " OK "

def counts (r : ModuleReport) : String :=
  ": " ++ toString r.filesScanned ++ " file(s) scanned, " ++ toString r.typesDiscovered ++
    " type(s), " ++ toString r.reflectable ++ " reflectable, " ++ toString r.dummy ++ " dummy, " ++
    toString r.noReflect ++ " skipped, " ++ toString r.artifactsWritten ++ " artifact(s) written"

def failures (n : Nat) (what : String) : List StyledText :=
  if n = 0 then [] else [plain ", ", bold (some .yellow) (toString n ++ what)]

/-- One line, and a second one with the reason when the pass stopped early. -/
def summary (r : ModuleReport) : List StyledText :=
  [r.outcome, plain " ", bold none r.module, plain r.counts] ++
    failures r.writeFailures " write failure(s)" ++ failures r.typeFailures " type(s) failed" ++
    [plain "\n"] ++
    match r.aborted with
    | some reason => [plain "    ", bold (some .red) reason, plain "\n"]
    | none => []

end ModuleReport

namespace RunSummary

open StyledText

def styled (s : RunSummary) : List StyledText :=
  s.modules.flatMap ModuleReport.summary ++
    [bold none "Scanned ", plain (toString s.filesScanned ++ " file(s), "), bold none "wrote ",
      plain (toString s.artifactsWritten ++ " artifact(s)")] ++
    (if s.aborted = 0 then []
      else [plain ", ", bold (some .red) (toString s.aborted ++ " module(s) aborted")]) ++
    [plain "\n"]

def text (inColour : Bool) (s : RunSummary) : String :=
  String.join (s.styled.map (StyledText.render inColour))

end RunSummary

end HeaderMeta
