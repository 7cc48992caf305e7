import SlotBoard.Archive.Store

/-!
A file tree in memory. Directories and files are listed by their path from the root. A file that an
archive is kept in holds the archive itself. Operations on a tree follow a path element by element,
as a file system does: every element but the last has to be a directory.
-/
namespace SlotBoard

inductive FileEntry where
  | directory
  | file (content : Bytes)
  | archive (archive : Archive)
deriving DecidableEq, Inhabited

def FileEntry.content? : FileEntry → Option Bytes
  | directory => none
  | file content => some content
  | archive a => some a.encode

/-- A file tree with a working directory. The root itself is not listed. -/
structure FileTree where
  here : List String := []
  entries : List (List String × FileEntry) := []
deriving DecidableEq, Inhabited

namespace FileTree

def entry? (t : FileTree) (place : List String) : Option FileEntry :=
  if place = [] then some .directory else t.entries.lookup place

def maxName : Nat := 255

def maxPath : Nat := 4095

/-- The place that the pieces of a path lead to. The last one need not exist. -/
def follow (t : FileTree) (place : List String) : List String → Except FileFault (List String)
  | [] => .ok place
  | piece :: pieces =>
    match t.entry? place with
    | none => .error .notFound
    | some (.file _) | some (.archive _) => .error .notDirectory
    | some .directory =>
      if piece = "" ∨ piece = "." then t.follow place pieces
      else if piece = ".." then t.follow place.dropLast pieces
      else if maxName < (Utf8.encode piece).length then .error .nameTooLong
      else t.follow (place ++ [piece]) pieces

def resolve (t : FileTree) (path : String) : Except FileFault (List String) :=
  if path = "" then .error .notFound
  else if path.toList.contains '\x00' then .error .invalidName
  else if maxPath < (Utf8.encode path).length then .error .nameTooLong
  else t.follow (if Path.isAbsolute path then [] else t.here) (Path.pieces path)

def set (t : FileTree) (place : List String) (entry : FileEntry) : FileTree :=
  { t with entries := t.entries.filter (·.1 ≠ place) ++ [(place, entry)] }

def kind (t : FileTree) (path : String) : Except FileFault FileKind := do
  let place ← t.resolve path
  match t.entry? place with
  | none => .error .notFound
  | some .directory => .ok .directory
  | some (.file _) | some (.archive _) => .ok .file

def entryAt (t : FileTree) (path : String) : Except FileError FileEntry :=
  match t.resolve path with
  | .error fault => .error ⟨"open", path, fault⟩
  | .ok place =>
    match t.entry? place with
    | none => .error ⟨"open", path, .notFound⟩
    | some entry => .ok entry

def read (t : FileTree) (path : String) : Except FileError Bytes := do
  match (← t.entryAt path).content? with
  | some content => .ok content
  | none => .error ⟨"read", path, .isDirectory⟩

/-- What the file at a path holds. Bytes that were written as such are no archive. -/
def inspect (t : FileTree) (path : String) : Except FileError ArchiveFile := do
  match ← t.entryAt path with
  | .directory => .error ⟨"read", path, .isDirectory⟩
  | .file content => .ok (if content.length ≤ 1 then .blank else .foreign)
  | .archive a => .ok (.archive a)

def names (t : FileTree) (path : String) : List String :=
  match t.resolve path with
  | .error _ => []
  | .ok place =>
    t.entries.filterMap fun (other, _) =>
      if other.dropLast = place ∧ other ≠ [] then other.getLast? else none

def withoutSlashes (path : String) : String :=
  String.ofList (path.toList.reverse.dropWhile (· = '/')).reverse

def makeDirectory (t : FileTree) (path : String) : Except FileFault FileTree := do
  let trimmed := withoutSlashes path
  let place ← t.resolve (if trimmed = "" then path else trimmed)
  match t.entry? place with
  | some _ => .error .alreadyExists
  | none =>
    match t.entry? place.dropLast with
    | none => .error .notFound
    | some .directory => .ok (t.set place .directory)
    | some _ => .error .notDirectory

def replace (t : FileTree) (path : String) (entry : FileEntry) : Except FileError FileTree :=
  match t.resolve path with
  | .error fault => .error ⟨"open", path, fault⟩
  | .ok place =>
    match t.entry? place with
    | some .directory => .error ⟨"open", path, .isDirectory⟩
    | _ => .ok (t.set place entry)

def workingDirectory (t : FileTree) : String := "/" ++ "/".intercalate t.here

end FileTree

/-- Go on with the tree that an operation leads to; if it fails, with the one it started from. -/
def FileTree.update (operation : FileTree → Except ε FileTree) : StateM FileTree (Except ε Unit) :=
  fun t =>
    match operation t with
    | .ok changed => (.ok (), changed)
    | .error e => (.error e, t)

instance : MonadFiles (StateM FileTree) where
  workingDirectory := do return (← get).workingDirectory
  kind path := do return (← get).kind path
  read path := do return (← get).read path
  names path := do return (← get).names path
  makeDirectory path := FileTree.update (·.makeDirectory path)
  write path content := FileTree.update (·.replace path (.file content))

instance : MonadArchives (StateM FileTree) where
  inspect path := do return (← get).inspect path
  keep path archive := FileTree.update (·.replace path (.archive archive))

end SlotBoard
