import HeaderMeta.Config.Document
import HeaderMeta.Volume

/-! Configuration files. -/

set_option autoImplicit false

namespace HeaderMeta

def configFileName : String := "tributary.toml"

/-- Why there is no configuration. -/
inductive ConfigError where
  | unreadable (path : Path) (cause : FileError)
  /-- The text is no configuration document. -/
  | malformed (path : Path)
  deriving DecidableEq, Repr

namespace Config

def load (v : Volume) (path : Path) : Except ConfigError Config :=
  match v.readText path with
  | .error cause => .error (.unreadable path cause)
  | .ok text =>
    match parse? text with
    | some config => .ok config
    | none => .error (.malformed path)

def fileAt (root : Path) : Path :=
  root.child configFileName

def discover (v : Volume) (root : Path) : Except ConfigError Config :=
  if v.isFile (fileAt root) then load v (fileAt root) else .ok {}

end Config

end HeaderMeta
