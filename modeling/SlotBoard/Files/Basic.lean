import SlotBoard.Bytes
import SlotBoard.Path

/-!
What the program asks of a file system. The operations are a class, so that the same code runs on
real files and on a file tree held in memory. Paths that do not start at the root are taken relative
to the working directory.
-/
namespace SlotBoard

/-- Why an operation on a file failed. -/
inductive FileFault where
  | notFound
  | notDirectory
  | isDirectory
  | alreadyExists
  | invalidName
  | nameTooLong
  | other (message : String)
deriving DecidableEq

def FileFault.message : FileFault → String
  | notFound => "no such file or directory"
  | notDirectory => "not a directory"
  | isDirectory => "is a directory"
  | alreadyExists => "file exists"
  | invalidName => "invalid argument"
  | nameTooLong => "file name too long"
  | other message => message

/-- A failed operation, with the path it was asked for. -/
structure FileError where
  operation : String
  path : String
  fault : FileFault
deriving DecidableEq

def FileError.message (e : FileError) : String :=
  e.operation ++ " " ++ e.path ++ ": " ++ e.fault.message

inductive FileKind where
  | file
  | directory
deriving DecidableEq

class MonadFiles (m : Type → Type) where
  /-- The working directory, from the root. -/
  workingDirectory : m String
  /-- What stands at a path. -/
  kind : String → m (Except FileFault FileKind)
  /-- The content of a file. -/
  read : String → m (Except FileError Bytes)
  /-- The names in a directory, in no special order; none if it cannot be listed. -/
  names : String → m (List String)
  /-- Make one directory, below one that exists. -/
  makeDirectory : String → m (Except FileFault Unit)
  /-- Give a file new content; a file that does not exist is made. -/
  write : String → Bytes → m (Except FileError Unit)

namespace Files

variable {m : Type → Type} [Monad m] [MonadFiles m]

/-- The path without its last element and the slashes before that; none if nothing is left. -/
def upperPart? (path : String) : Option String :=
  match ((path.toList.reverse.dropWhile (· = '/')).dropWhile (· ≠ '/')).dropWhile (· = '/') with
  | [] => none
  | cs => some (String.ofList cs.reverse)

def makeMissing : Nat → String → m (Except FileError Unit)
  | 0, _ => return .ok ()
  | fuel + 1, path => do
    match ← MonadFiles.kind path with
    | .ok .directory => return .ok ()
    | .ok .file => return .error ⟨"mkdir", path, .notDirectory⟩
    | .error _ =>
      match ← (upperPart? path).elim (pure (.ok ())) (makeMissing fuel) with
      | .error e => return .error e
      | .ok () =>
        match ← MonadFiles.makeDirectory path with
        | .ok () => return .ok ()
        | .error fault =>
          match ← MonadFiles.kind path with
          | .ok .directory => return .ok ()
          | _ => return .error ⟨"mkdir", path, fault⟩

def makeDirectories (path : String) : m (Except FileError Unit) :=
  makeMissing (path.toList.length + 1) path

def exist (path : String) : m Bool := do
  match ← MonadFiles.kind path with
  | .ok _ => return true
  | .error _ => return false

end Files
end SlotBoard
