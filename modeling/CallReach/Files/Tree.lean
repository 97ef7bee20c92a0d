import CallReach.Files.System

/-!
# File trees

A file system as a value: what is at each absolute place, and the working
directory.  The root is always a directory.

Files and directories are all there is.  Links, permissions and devices are left
out, and a file that can be opened for writing is written as a whole.
-/

namespace CallReach.Files

/-- What is at a place. -/
inductive Item where
  | file (bytes : List UInt8)
  | directory
deriving DecidableEq, Repr

/-- Files and directories by their absolute places. -/
structure Tree where
  items : List (List String × Item)
  workingDirectory : List String
deriving DecidableEq, Repr

namespace Tree

/-- What is at a place. -/
def item? (tree : Tree) (place : List String) : Option Item :=
  if place.isEmpty then some .directory else tree.items.lookup place

/-- The tree with something put at a place, where it replaces what was there. -/
def put (tree : Tree) (place : List String) (item : Item) : Tree :=
  { tree with items := set tree.items }
where
  /-- Sets the item of a place, which stays where it was in the list. -/
  set : List (List String × Item) → List (List String × Item)
    | [] => [(place, item)]
    | (other, old) :: rest =>
        if other = place then (other, item) :: rest else (other, old) :: set rest

/-! ## Reading -/

/-- The greatest number of bytes in a name. -/
def nameLimit : Nat := 255

/-- The greatest number of bytes in a path. -/
def pathLimit : Nat := 4095

/-- The place that names lead to.  Every place on the way has to be a
directory. -/
def locate (tree : Tree) (place : List String) : List String → Except FaultKind (List String)
  | [] => .ok place
  | name :: rest =>
      match tree.item? place with
      | none => .error .missing
      | some (.file _) => .error .notDirectory
      | some .directory =>
          if nameLimit < name.utf8ByteSize then .error .nameTooLong
          else locate tree (if name = ".." then place.dropLast else place ++ [name]) rest

/-- What is at a path, or why there is nothing. -/
def find (tree : Tree) (path : Path) : Except FaultKind Item :=
  if path.hasNull then .error .missing
  else if pathLimit < path.text.utf8ByteSize then .error .nameTooLong
  else do
    let start := if path.root.isEmpty then tree.workingDirectory else []
    match tree.item? (← tree.locate start path.names) with
    | some item => .ok item
    | none => .error .missing

/-- Whether something is at a path. -/
def isThere (tree : Tree) (path : Path) : Except Fault Bool :=
  match tree.find path with
  | .ok _ => .ok true
  | .error .missing | .error .notDirectory => .ok false
  | .error kind => .error ⟨kind, path.text⟩

/-- The contents of a file. -/
def read (tree : Tree) (path : Path) : Except Fault (List UInt8) :=
  match tree.find path with
  | .ok (.file bytes) => .ok bytes
  | .ok .directory => .error ⟨.isDirectory, path.text⟩
  | .error kind => .error ⟨kind, path.text⟩

/-! ## Writing -/

/-- What is at an absolute place, or why nothing can be there. -/
def itemAt? (tree : Tree) (place : List String) : Except FaultKind (Option Item) :=
  if pathLimit < (placeText place).utf8ByteSize then .error .nameTooLong
  else return tree.item? (← tree.locate [] place)

/-- Makes one directory. -/
def makeDirectory (tree : Tree) (place : List String) : Except FaultKind Tree := do
  match ← tree.itemAt? place with
  | some _ => .error .alreadyExists
  | none => .ok (tree.put place .directory)

/-- A change of the tree.  What was done before a failure stays done. -/
abbrev Change := ExceptT Fault (StateM Tree)

/-- Makes a directory and those above it that are missing; the place is given
backwards.  A directory that is there already is left alone. -/
def makeDirectories : List String → Change Unit
  | [] => return ()
  | name :: above => do
      let place := (name :: above).reverse
      match (← get).makeDirectory place with
      | .ok tree => set tree
      | .error .missing =>
          makeDirectories above
          match (← get).makeDirectory place with
          | .ok tree => set tree
          | .error kind => throw ⟨kind, placeText place⟩
      | .error kind =>
          if (← get).item? place ≠ some .directory then throw ⟨kind, placeText place⟩

/-- Writes a file, with the directories above it. -/
def write (path : Path) (bytes : List UInt8) : Change Unit := do
  let place := path.place (← get).workingDirectory
  makeDirectories place.reverse.tail
  let tree ← get
  match tree.itemAt? place with
  | .error kind => throw ⟨kind, placeText place⟩
  | .ok (some .directory) => throw ⟨.isDirectory, placeText place⟩
  | .ok _ => set (tree.put place (.file bytes))

/-- The tree as a file system. -/
def system : System (StateM Tree) where
  isThere path := return (← get).isThere path
  read path := return (← get).read path
  write path bytes := (write path bytes).run

end Tree

end CallReach.Files
