import HeaderMeta.Volume

/-! Changes to a volume. An operation that fails changes nothing, with two exceptions: directories made
on the way to a deeper one stay, and a file that takes a part of its content keeps that part. -/

set_option autoImplicit false

namespace HeaderMeta.Volume

def putIn (loc : Location) (node : Node) : List (Location × Node) → List (Location × Node)
  | [] => [(loc, node)]
  | n :: ns => if n.1 = loc then (loc, node) :: ns else n :: putIn loc node ns

def put (v : Volume) (loc : Location) (node : Node) : Volume :=
  { v with nodes := putIn loc node v.nodes }

def erase (v : Volume) (loc : Location) : Volume :=
  { v with nodes := v.nodes.filter (·.1 ≠ loc) }

theorem find?_putIn (loc key : Location) (node : Node) (ns : List (Location × Node)) :
    ((putIn loc node ns).find? (·.1 = key)).map (·.2) =
      if key = loc then some node else (ns.find? (·.1 = key)).map (·.2) := by
  induction ns with
  | nil =>
    by_cases h : key = loc
    · simp [putIn, h]
    · simp [putIn, h, Ne.symm h]
  | cons n ns ih =>
    by_cases here : n.1 = loc
    · by_cases h : key = loc
      · simp [putIn, here, h]
      · have : ¬ loc = key := Ne.symm h
        simp [putIn, here, h, this]
    · by_cases hit : n.1 = key
      · have : ¬ key = loc := fun e => here (hit.trans e)
        simp [putIn, hit, this]
      · simp [putIn, here, hit, ih]

/-- A node that was put is found, and nothing else changes. The root stays a directory. -/
theorem get?_put (v : Volume) (name : String) (dir key : Location) (node : Node) :
    (v.put (name :: dir) node).get? key = if key = name :: dir then some node else v.get? key := by
  cases key with
  | nil => simp [get?]
  | cons k ks => simpa [get?, put] using find?_putIn (name :: dir) (k :: ks) node v.nodes

theorem get?_erase (v : Volume) (name : String) (dir key : Location) :
    (v.erase (name :: dir)).get? key = if key = name :: dir then none else v.get? key := by
  cases key with
  | nil => simp [get?]
  | cons k ks =>
    by_cases h : k :: ks = name :: dir
    · simp [get?, erase, h, List.find?_filter]
    · have same (n : Location × Node) :
          (n.1 ≠ name :: dir ∧ n.1 = k :: ks) ↔ n.1 = k :: ks :=
        and_iff_right_of_imp fun hit e => h (hit.symm.trans e)
      simp only [get?, erase, h, if_false, List.find?_filter, decide_eq_true_eq, same]

def eraseTree (v : Volume) (loc : Location) : Volume :=
  { v with nodes := v.nodes.filter fun n => !loc.isSuffixOf n.1 }

def eraseBelow (v : Volume) (loc : Location) : Volume :=
  { v with nodes := v.nodes.filter fun n => n.1 = loc || !loc.isSuffixOf n.1 }

/-- Whether a path ends in the name of the node at `loc`, with or without slashes, rather than in a
`.`, a `..` or a link to it. -/
def namedBy (v : Volume) (loc : Location) (p : Path) : Bool :=
  match p.trimSlashes.parts.getLast?, v.spot .change p.trimSlashes with
  | some part, .ok (.node found) => part != "." && part != ".." && found = loc
  | _, _ => false

def target (v : Volume) (p : Path) : Except FileError Location := do
  match ← v.spot .write p with
  | .node loc => if v.isDirAt loc then .error .isDirectory else .ok loc
  | .vacant loc _ => .ok loc

/-- Replace the content of a file, or create it in an existing directory. The old content is gone even
when only a part of the new one can be written. -/
def write (v : Volume) (p : Path) (bytes : ByteArray) : Volume × Except FileError Unit :=
  match v.target p with
  | .error e => (v, .error e)
  | .ok loc =>
    match v.faults.room loc bytes with
    | none => (v.put loc (.file bytes), .ok ())
    | some n => (v.put loc (.file (bytes.extract 0 n)), .error .noSpace)

def writeText (v : Volume) (p : Path) (text : String) : Volume × Except FileError Unit :=
  v.write p text.toUTF8

/-- Create one directory. A link stands in the way even with a slash after it. -/
def makeDir (v : Volume) (p : Path) : Except FileError Volume := do
  match ← v.spot .change p.trimSlashes with
  | .node _ => .error .alreadyExists
  | .vacant loc _ => .ok (v.put loc .dir)

/-- Create a directory where the one around it is known to exist. One that is there is fine. -/
def ensureDir (v : Volume) (p : Path) : Volume × Except FileError Unit :=
  match v.makeDir p with
  | .ok v => (v, .ok ())
  | .error e => (v, if v.isDir p then .ok () else .error e)

def makeDirsWithin (v : Volume) : (fuel : Nat) → Path → Volume × Except FileError Unit
  | 0, p => v.ensureDir p
  | fuel + 1, p =>
    if p.text = "" then (v, .ok ())
    else
      match v.makeDir p, p.parent? with
      | .error .notFound, some parent =>
        match v.makeDirsWithin fuel parent with
        | (v, .ok ()) => v.ensureDir p
        | failed => failed
      | _, _ => v.ensureDir p

def makeDirs (v : Volume) (p : Path) : Volume × Except FileError Unit :=
  v.makeDirsWithin (p.components.length + 1) p

/-- Remove a file or a link, not what the link leads to. -/
def unlink (v : Volume) (p : Path) : Except FileError Volume := do
  match ← v.spot .change p with
  | .node loc => if v.isDirAt loc then .error .isDirectory else .ok (v.erase loc)
  | .vacant _ _ => .error .notFound

/-- Remove a file or a link, or a directory with all it holds. A directory that the path does not
name is emptied and stays. -/
def remove (v : Volume) (p : Path) : Volume × Except FileError Unit :=
  match v.spot .change p with
  | .ok (.node loc) =>
    if !v.isDirAt loc then (v.erase loc, .ok ())
    else if v.namedBy loc p then (v.eraseTree loc, .ok ())
    else (v.eraseBelow loc, .error .invalid)
  | .ok (.vacant _ _) => (v, .error .notFound)
  | .error e => (v, .error e)

def link (v : Volume) (p target : Path) : Except FileError Volume := do
  if target.hasNull then .error .nullInPath
  else if target.text = "" then .error .notFound
  else if target.text.utf8ByteSize > maxPath then .error .nameTooLong
  else
    match ← v.spot .change p with
    | .node _ => .error .alreadyExists
    | .vacant loc slash => if slash then .error .notFound else .ok (v.put loc (.link target))

/-- Make a change at a path after creating the directories around it, which stay when it fails. -/
def withParents (v : Volume) (p : Path) (change : Volume → Volume × Except FileError Unit) :
    Volume × Except FileError Unit :=
  match v.makeDirs (p.parent?.getD ⟨""⟩) with
  | (v, .ok ()) => change v
  | failed => failed

def deposit (v : Volume) (p : Path) (bytes : ByteArray) : Volume × Except FileError Unit :=
  v.withParents p (·.write p bytes)

def depositLink (v : Volume) (p target : Path) : Volume × Except FileError Unit :=
  v.withParents p fun v =>
    match v.link p target with
    | .ok v => (v, .ok ())
    | .error e => (v, .error e)

end HeaderMeta.Volume
