import HeaderMeta.Config.Setting

/-! Tables of a document while it is read.

A table may be opened by a header, by a longer header that passes through it, or by a dotted key.
How it was opened decides who may still add to it.
-/

set_option autoImplicit false

namespace HeaderMeta.Document

inductive Item where
  /-- A finished value. -/
  | value (v : Setting)
  /-- A table. `implicit`: it was only passed through. `dotted`: it was opened by a dotted key. -/
  | table (implicit dotted : Bool) (entries : List (String × Item))
  /-- Tables under a doubly bracketed header. -/
  | tables (all : List (List (String × Item)))
  deriving Inhabited

abbrev Entries := List (String × Item)

namespace Entries

def get? (es : Entries) (key : String) : Option Item :=
  (es.find? (·.1 = key)).map (·.2)

def put (key : String) (item : Item) : Entries → Entries
  | [] => [(key, item)]
  | e :: es => if e.1 = key then (key, item) :: es else e :: put key item es

def remove (key : String) (es : Entries) : Entries :=
  es.filter (·.1 != key)

/-- Change the table at a path with `change`, which is told whether that table is dotted. Tables on
the way are opened as needed; `dotted` tells whether a dotted key leads there, which may not pass
through a table that a header opened. -/
def update {α : Type} (dotted : Bool) (change : Bool → Entries → Option (α × Entries)) :
    (isDotted : Bool) → List String → Entries → Option (α × Entries)
  | isDotted, [], es => change isDotted es
  | _, key :: path, es =>
    match es.get? key with
    | none => do
      let (a, inner) ← update dotted change dotted path []
      some (a, es.put key (.table true dotted inner))
    | some (.value _) => none
    | some (.tables all) => do
      let (a, last) ← update dotted change false path (all.getLast?.getD [])
      some (a, es.put key (.tables (all.dropLast ++ [last])))
    | some (.table implicit isDotted inner) =>
      if dotted && !implicit then none
      else do
        let (a, inner) ← update dotted change isDotted path inner
        some (a, es.put key (.table implicit isDotted inner))

/-- Enter a value under a dotted key. A key that is there already, and a table that was not opened in
the same way, refuse it. -/
def enter (es : Entries) (path : List String) (v : Setting) : Option Entries :=
  match path.reverse with
  | [] => none
  | key :: outer =>
    let insert (isDotted : Bool) (inner : Entries) : Option (Unit × Entries) :=
      if isDotted = outer.isEmpty || (inner.get? key).isSome then none
      else some ((), inner ++ [(key, .value v)])
    (update true insert false outer.reverse es).map (·.2)

end Entries

mutual
def Item.setting : Item → Setting
  | .value v => v
  | .table _ _ entries => .table (entriesSettings entries)
  | .tables all => .list (tablesSettings all)

def entriesSettings : List (String × Item) → List (String × Setting)
  | [] => []
  | (key, item) :: rest => (key, item.setting) :: entriesSettings rest

def tablesSettings : List (List (String × Item)) → List Setting
  | [] => []
  | entries :: rest => .table (entriesSettings entries) :: tablesSettings rest
end

/-- A document while it is read: the finished tables, and the one that is open. -/
structure State where
  root : Entries := []
  current : Entries := []
  path : List String := []
  isArray : Bool := false

namespace State

def close (s : State) : Option Entries :=
  match s.path.reverse with
  | [] => some s.current
  | key :: outer =>
    let place (_ : Bool) (inner : Entries) : Option (Unit × Entries) :=
      if s.isArray then
        match inner.get? key with
        | none => some ((), inner.put key (.tables [s.current]))
        | some (.tables all) => some ((), inner.put key (.tables (all ++ [s.current])))
        | some _ => none
      else some ((), inner.put key (.table false false s.current))
    (s.root.update false place false outer.reverse).map (·.2)

/-- Open the table of a header. Only a table that was passed through may be there already. -/
def openTable (s : State) (path : List String) : Option State := do
  let root ← s.close
  match path.reverse with
  | [] => none
  | key :: outer =>
    let take (_ : Bool) (inner : Entries) : Option (Entries × Entries) :=
      match inner.get? key with
      | none => some ([], inner)
      | some (.table true false own) => some (own, inner.remove key)
      | some _ => none
    let (current, root) ← root.update false take false outer.reverse
    some { root, current, path }

def openArray (s : State) (path : List String) : Option State := do
  let root ← s.close
  match path.reverse with
  | [] => none
  | key :: outer =>
    let check (_ : Bool) (inner : Entries) : Option (Unit × Entries) :=
      match inner.get? key with
      | none | some (.tables _) => some ((), inner)
      | some _ => none
    let (_, root) ← root.update false check false outer.reverse
    some { root, path, isArray := true }

end State

end HeaderMeta.Document
