import HeaderMeta.Volume.Edit

/-! The file a captured log ends up in. -/

set_option autoImplicit false

namespace HeaderMeta.Log

/-- Write a captured log into a directory, which is made where there is none. An empty log leaves no
file; otherwise the path of the file is returned. -/
def flush (v : Volume) (dir : Path) (fileName text : String) :
    Volume × Except FileError (Option Path) :=
  if text = "" then (v, .ok none)
  else
    match v.makeDirs dir with
    | (v, .error e) => (v, .error e)
    | (v, .ok ()) =>
      match v.writeText (dir.child fileName) text with
      | (v, .ok ()) => (v, .ok (some (dir.child fileName)))
      | (v, .error e) => (v, .error e)

end HeaderMeta.Log
