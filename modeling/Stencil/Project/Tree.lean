import Stencil.Project.Path

/-! # Trees of files

The files that a run sees and the files that it leaves behind.
-/

namespace Stencil.Project

/-- A file with its bytes, or a folder. The names in a folder are in order and occur once. -/
inductive Entry where
  | file (content : ByteArray)
  | folder (entries : List (Name × Entry))

def putEntry {α : Type} (name : Name) (entry : α) : List (Name × α) → List (Name × α)
  | [] => [(name, entry)]
  | (other, old) :: entries =>
    if name = other then (name, entry) :: entries
    else if name < other then (name, entry) :: (other, old) :: entries
    else (other, old) :: putEntry name entry entries

namespace Entry

def isFile : Entry → Bool
  | .file _ => true
  | .folder _ => false

def isFolder : Entry → Bool
  | .file _ => false
  | .folder _ => true

def child? (name : Name) : Entry → Option Entry
  | .file _ => none
  | .folder entries => entries.lookup name

def get? : List Name → Entry → Option Entry
  | [], e => some e
  | name :: names, e => (e.child? name).bind (get? names)

/-- Put something at the end of some names, in place of what is there. Folders on the way are
    made; none if a file is in the way. -/
def put? : List Name → Entry → Entry → Option Entry
  | [], _, new => some new
  | _ :: _, .file _, _ => none
  | name :: names, .folder entries, new =>
    let below := (entries.lookup name).getD (.folder [])
    (below.put? names new).map fun e => .folder (putEntry name e entries)

/-- Whether a part of a path leads nowhere. -/
def isStill (part : Name) : Bool :=
  part = [] || part = ['.']

/-- Follow the parts of a path from a place, given innermost name first. Every part, also one
    that leads nowhere, needs a folder to start from. -/
def follow? (root : Entry) : List Name → List Name → Option (List Name)
  | place, [] => some place
  | place, part :: parts =>
    match root.get? place.reverse with
    | some (.folder _) =>
      if isStill part then root.follow? place parts
      else if part = ['.', '.'] then root.follow? place.tail parts
      else if (root.get? (part :: place).reverse).isSome then root.follow? (part :: place) parts
      else none
    | _ => none

def find? (root : Entry) (p : Path) : Option Entry :=
  if p.isUsable then (root.follow? [] p.parts).bind fun place => root.get? place.reverse else none

def read? (root : Entry) (p : Path) : Option ByteArray :=
  match root.find? p with
  | some (.file content) => some content
  | _ => none

def readText? (root : Entry) (p : Path) : Option String :=
  (root.read? p).bind String.fromUTF8?

/-- Follow the parts of a path and make the folders that are missing. None if a file is in the
    way. -/
def enter? (root : Entry) : List Name → List Name → Option (Entry × List Name)
  | place, [] => some (root, place)
  | place, part :: parts =>
    if isStill part then root.enter? place parts
    else if part = ['.', '.'] then root.enter? place.tail parts
    else
      let place := part :: place
      match root.get? place.reverse with
      | some (.file _) => none
      | some (.folder _) => root.enter? place parts
      | none => (root.put? place.reverse (.folder [])).bind fun root => root.enter? place parts

/-- Write a file, with the folders above it. None if no file can have the path, or if a file is in
    the place of a folder or a folder in the place of the file. -/
def write? (root : Entry) (p : Path) (content : ByteArray) : Option Entry :=
  match p.parent?, p.fileName? with
  | some above, some name =>
    if p.isUsable then
      (root.enter? [] above.parts).bind fun (root, place) =>
        let place := (name :: place).reverse
        match root.get? place with
        | some (.folder _) => none
        | _ => root.put? place (.file content)
    else none
  | _, _ => none

mutual

def files (place : List Name) : Entry → List (List Name × ByteArray)
  | .file content => [(place.reverse, content)]
  | .folder entries => filesIn place entries

def filesIn (place : List Name) : List (Name × Entry) → List (List Name × ByteArray)
  | [] => []
  | (name, e) :: entries => e.files (name :: place) ++ filesIn place entries

end

end Entry

end Stencil.Project
