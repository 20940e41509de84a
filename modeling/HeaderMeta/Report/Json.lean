import HeaderMeta.Report
import HeaderMeta.Text.Affix

/-! The summary of a run as programs read it: a JSON document, indented by two blanks. -/

set_option autoImplicit false

namespace HeaderMeta

/-- The part of JSON that a summary is made of. -/
inductive JsonValue where
  | null
  | number (n : Nat)
  | text (s : String)
  | list (items : List JsonValue)
  | record (fields : List (String × JsonValue))

namespace JsonValue

def escaped (c : Char) : String :=
  if c = '"' then "\\\""
  else if c = '\\' then "\\\\"
  else if c = '\n' then "\\n"
  else if c = '\r' then "\\r"
  else if c = '\t' then "\\t"
  else if c = '\x08' then "\\b"
  else if c = '\x0c' then "\\f"
  else if c.toNat < 0x20 then
    "\\u00" ++ (if c.toNat < 0x10 then "0" else "1") ++
      String.ofList (Nat.toDigits 16 (c.toNat % 16))
  else c.toString

def quoted (s : String) : String :=
  "\"" ++ String.join (s.toList.map escaped) ++ "\""

def indent (depth : Nat) : String :=
  "\n" ++ String.ofList (List.replicate (2 * depth) ' ')

def bracketed (left right : String) (depth : Nat) (parts : List String) : String :=
  if parts.isEmpty then left ++ right
  else
    left ++ Text.joinWith "," (parts.map fun part => indent (depth + 1) ++ part) ++ indent depth ++
      right

mutual
def render (depth : Nat) : JsonValue → String
  | null => "null"
  | number n => toString n
  | text s => quoted s
  | list items => bracketed "[" "]" depth (renderAll (depth + 1) items)
  | record fields => bracketed "\x7b" "\x7d" depth (renderFields (depth + 1) fields)

def renderAll (depth : Nat) : List JsonValue → List String
  | [] => []
  | item :: items => render depth item :: renderAll depth items

def renderFields (depth : Nat) : List (String × JsonValue) → List String
  | [] => []
  | (name, value) :: fields =>
    (quoted name ++ ": " ++ render depth value) :: renderFields depth fields
end

end JsonValue

open JsonValue in
def ModuleReport.json (r : ModuleReport) : JsonValue :=
  record [("module", .text r.module), ("files_scanned", number r.filesScanned),
    ("files_excluded", number r.filesExcluded), ("types_discovered", number r.typesDiscovered),
    ("reflectable", number r.reflectable), ("dummy", number r.dummy),
    ("no_reflect", number r.noReflect), ("overrides", number r.overrides),
    ("artifacts_written", number r.artifactsWritten), ("write_failures", number r.writeFailures),
    ("type_failures", number r.typeFailures),
    ("aborted", match r.aborted with | some reason => .text reason | none => null),
    ("elapsed_ms", number r.elapsedMs)]

def RunSummary.json (s : RunSummary) : JsonValue :=
  .record [("modules", .list (s.modules.map ModuleReport.json))]

end HeaderMeta
