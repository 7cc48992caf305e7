import SlotBoard.Archive.Codec
import SlotBoard.Archive.Location
import SlotBoard.Files.Basic

/-!
Archives in files. Opening an archive makes the directory it stands in, and the file if there is
none. Every artifact is in the file as soon as it has been put.
-/
namespace SlotBoard

/-- What a file holds, as far as archives go. -/
inductive ArchiveFile where
  | blank
  | archive (archive : Archive)
  | foreign
deriving DecidableEq

/-- What bytes hold. A single byte counts for nothing. -/
def ArchiveFile.ofBytes (bs : Bytes) : ArchiveFile :=
  if bs.length ≤ 1 then .blank
  else
    match Archive.decode? bs with
    | some a => .archive a
    | none => .foreign

/-- Files as archives. -/
class MonadArchives (m : Type → Type) where
  /-- What the file at a path holds. -/
  inspect : String → m (Except FileError ArchiveFile)
  /-- Let the file at a path hold an archive. -/
  keep : String → Archive → m (Except FileError Unit)

/-- Why an archive cannot be opened or kept. -/
inductive StoreError where
  | directory (e : FileError)
  | location (e : LocationError)
  | unopened
  | setting (e : SettingError)
  | foreign
  | tableUnwritable
  | artifactUnwritable
  | repeatedId
deriving DecidableEq

def StoreError.message : StoreError → String
  | directory e => "creating store directory: " ++ e.message
  | location e => "setting busy timeout: " ++ e.message
  | unopened => "setting busy timeout: unable to open database file: out of memory (14)"
  | setting e => "setting busy timeout: " ++ e.message
  | foreign => "creating table: file is not a database (26)"
  | tableUnwritable => "creating table: attempt to write a readonly database (8)"
  | artifactUnwritable => "saving artifact: attempt to write a readonly database (8)"
  | repeatedId =>
    "saving artifact: constraint failed: UNIQUE constraint failed: artifacts.id (1555)"

/-- An archive that has been opened. Its place is given from the root of the file system. -/
structure Store where
  location : Location
  archive : Archive := {}
deriving DecidableEq

namespace Store

variable {m : Type → Type} [Monad m] [MonadFiles m] [MonadArchives m]

def maxPath : Nat := 511

def findFile (l : Location) : m (Except StoreError Unit) := do
  if maxPath < (Utf8.encode l.path).length then return .error .unopened
  match ← MonadFiles.kind l.path with
  | .ok .file => return .ok ()
  | .ok .directory => return .error .unopened
  | .error _ =>
    if l.creates then return (← MonadFiles.write l.path []).mapError fun _ => .unopened
    else return .error .unopened

/-- Read the archive in a file. A blank file gets an archive without artifacts. -/
def readFile (l : Location) : m (Except StoreError Store) := do
  match ← MonadArchives.inspect l.path with
  | .error _ => return .error .unopened
  | .ok .foreign => return .error .foreign
  | .ok (.archive archive) => return .ok ⟨l, archive⟩
  | .ok .blank =>
    if l.writes then
      return match ← MonadArchives.keep l.path {} with
        | .ok () => .ok ⟨l, {}⟩
        | .error _ => .error .tableUnwritable
    else return .error .tableUnwritable

def openLocation (l : Location) : m (Except StoreError Store) := do
  match ← if l.isTransient then pure (.ok ()) else findFile l with
  | .error e => return .error e
  | .ok () =>
    match l.settingError? with
    | some e => return .error (.setting e)
    | none => if l.isTransient then return .ok ⟨l, {}⟩ else readFile l

/-- Open the archive of the given name. The directory of the whole name is made first. -/
def openAt (name : String) : m (Except StoreError Store) := do
  match ← Files.makeDirectories (Path.parent name) with
  | .error e => return .error (.directory e)
  | .ok () =>
    match Location.parse name with
    | .error e => return .error (.location e)
    | .ok l =>
      if l.isTransient then openLocation l
      else openLocation { l with path := Path.absolute (← MonadFiles.workingDirectory) l.path }

/-- Put an artifact at the end of the archive. That the archive can be written is looked at before the
identifier is. -/
def put (s : Store) (a : Artifact) : m (Except StoreError Store) := do
  if !s.location.takesPuts then return .error .artifactUnwritable
  match s.archive.put? a with
  | none => return .error .repeatedId
  | some archive =>
    if s.location.isTransient then return .ok { s with archive }
    return match ← MonadArchives.keep s.location.path archive with
      | .ok () => .ok { s with archive }
      | .error _ => .error .artifactUnwritable

end Store
end SlotBoard
