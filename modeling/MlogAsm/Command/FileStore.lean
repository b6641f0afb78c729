import MlogAsm.Text.Quoted

/-!
# File stores

Files and directories by their paths, with the rules by which a path leads to a file: every name on
the way has to be a directory, `.` stays and `..` goes up, and a slash at the end asks for a
directory. Names and paths have a greatest length, which counts the bytes of their UTF-8 form.
-/

namespace MlogAsm.Command

/-- Why a path leads to no file that could be read or written, as a system tells it. -/
structure AccessError where
  /-- The number by which systems know the error. -/
  code : Nat
  /-- What systems say of it. -/
  reason : String
  deriving DecidableEq, Repr

namespace AccessError

def notFound : AccessError := ⟨2, "No such file or directory"⟩

def notDirectory : AccessError := ⟨20, "Not a directory"⟩

def isDirectory : AccessError := ⟨21, "Is a directory"⟩

/-- The path, or a name that had to be looked for, is too long. -/
def nameTooLong : AccessError := ⟨36, "File name too long"⟩

/-- The wording of an error about a path. -/
def message (path : String) (e : AccessError) : String :=
  "[Errno " ++ toString e.code ++ "] " ++ e.reason ++ ": " ++ Text.quoted path

end AccessError

/-- Where a way through directories starts. -/
inductive Base where
  /-- So many directories above the working directory. -/
  | above (levels : Nat)
  /-- The root of all directories. -/
  | root
  deriving DecidableEq, Repr

/-- A place for a file or a directory, with the names that lead to it. -/
structure Location where
  base : Base
  names : List String
  deriving DecidableEq, Repr

namespace Location

/-- The working directory. -/
def working : Location := ⟨.above 0, []⟩

/-- The place of a name in a directory. -/
def child (dir : Location) (name : String) : Location :=
  { dir with names := dir.names ++ [name] }

/-- The directory in which a place is. The root is in itself. -/
def parent (place : Location) : Location :=
  if place.names.isEmpty then
    match place.base with
    | .above levels => ⟨.above (levels + 1), []⟩
    | .root => place
  else { place with names := place.names.dropLast }

/-- The path of a place below the working directory. -/
def relativePath? (place : Location) : Option String :=
  if place.base = .above 0 then some ("/".intercalate place.names) else none

end Location

/-- A file with its bytes, or a directory. -/
inductive Node where
  | file (bytes : List UInt8)
  | directory
  deriving DecidableEq, Repr

/-- The greatest number of bytes in a name. -/
def nameLimit : Nat := 255

/-- The greatest number of bytes in a path. -/
def pathLimit : Nat := 4095

/-- A path, taken apart at its slashes. -/
structure Path where
  /-- It starts at the root. -/
  absolute : Bool
  /-- The names between slashes. -/
  names : List String
  /-- A slash stands at its end. -/
  trailingSlash : Bool
  deriving DecidableEq, Repr

/-- Takes a path apart. Slashes in a row count as one. -/
def Path.ofString (s : String) : Path where
  absolute := s.toList.head? == some '/'
  names := ((s.toList.splitOn '/').filter (!·.isEmpty)).map String.ofList
  trailingSlash := s.toList.getLast? == some '/'

/-- The directory where the way of a path starts. -/
def Path.start (path : Path) : Location :=
  if path.absolute then ⟨.root, []⟩ else .working

/-- Takes a path apart that is to be followed, and so may not be too long. -/
def Path.parse (s : String) : Except AccessError Path :=
  if s.utf8ByteSize ≤ pathLimit then .ok (ofString s) else .error .nameTooLong

/-- Files and directories. -/
structure FileStore where
  /-- What there is, each place once. -/
  entries : List (Location × Node)
  deriving DecidableEq, Repr

namespace FileStore

/-- A store with nothing in the working directory. -/
def empty : FileStore := ⟨[]⟩

/-- What is at a place. The directories where ways start are always there. -/
def node? (store : FileStore) (place : Location) : Option Node :=
  if place.names.isEmpty then some .directory else store.entries.lookup place

/-- Puts something at a place, instead of what was there. -/
def insert (store : FileStore) (place : Location) (node : Node) : FileStore :=
  ⟨(place, node) :: store.entries.filter (·.1 != place)⟩

/-- Looks for a name in a directory, which may hold nothing of that name. -/
def find (store : FileStore) (dir : Location) (name : String) : Except AccessError (Option Node) :=
  if name.utf8ByteSize ≤ nameLimit then .ok (store.node? (dir.child name))
  else .error .nameTooLong

/-- The directory that a name leads to from a directory. -/
def enter (store : FileStore) (dir : Location) (name : String) : Except AccessError Location :=
  if name = "." then .ok dir
  else if name = ".." then .ok dir.parent
  else do
    match ← store.find dir name with
    | none => throw .notFound
    | some (.file _) => throw .notDirectory
    | some .directory => return dir.child name

/-- Where the names of a path lead, all but the last: that directory and the last name. A path
without names leads to a directory, or nowhere if it is empty. -/
def walk (store : FileStore) (path : Path) : Except AccessError (Location × String) :=
  match path.names.getLast? with
  | none => .error (if path.absolute then .isDirectory else .notFound)
  | some last => do
    let dir ← path.names.dropLast.foldlM store.enter path.start
    return (dir, last)

/-- The bytes of the file at a path. -/
def read (store : FileStore) (path : String) : Except AccessError (List UInt8) := do
  let path ← Path.parse path
  let (dir, last) ← store.walk path
  if path.trailingSlash || last = "." || last = ".." then
    let _ ← store.enter dir last
    throw .isDirectory
  else
    match ← store.find dir last with
    | none => throw .notFound
    | some .directory => throw .isDirectory
    | some (.file bytes) => return bytes

/-- Writes bytes to the file at a path, which need not be there before. -/
def write (store : FileStore) (path : String) (bytes : List UInt8) :
    Except AccessError FileStore := do
  let path ← Path.parse path
  let (dir, last) ← store.walk path
  if path.trailingSlash || last = "." || last = ".." then throw .isDirectory
  else
    match ← store.find dir last with
    | some .directory => throw .isDirectory
    | _ => return store.insert (dir.child last) (.file bytes)

/-- The directory that a name leads to from a directory, made where nothing has that name. -/
def provide (store : FileStore) (dir : Location) (name : String) : FileStore × Location :=
  if name = "." then (store, dir)
  else if name = ".." then (store, dir.parent)
  else
    let place := dir.child name
    (if (store.node? place).isNone then store.insert place .directory else store, place)

/-- Makes the directories to which names lead, one from the other. -/
def provideAll (store : FileStore) (start : Location) (names : List String) : FileStore :=
  (names.foldl (fun (s, dir) name ↦ s.provide dir name) (store, start)).1

/-- Adds a file or a directory, with the directories on its way. A file that cannot be written there
is left out. -/
def add (store : FileStore) (path : String) (node : Node) : FileStore :=
  let parts := Path.ofString path
  match node with
  | .directory => store.provideAll parts.start parts.names
  | .file bytes =>
    let ready := store.provideAll parts.start parts.names.dropLast
    (ready.write path bytes).toOption.getD ready

/-- The files below the working directory, in the order of their paths. -/
def files (store : FileStore) : List (String × List UInt8) :=
  let found := store.entries.filterMap fun (place, node) ↦
    match place.relativePath?, node with
    | some path, .file bytes => some (path, bytes)
    | _, _ => none
  found.mergeSort fun a b ↦ !decide (b.1 < a.1)

end FileStore
end MlogAsm.Command
