import SlotBoard.Document.Decode
import SlotBoard.Files.Basic

/-!
Documents in files. A file whose extension is `.cbor`, in any case, holds data items; every other
file holds JSON. The unit is named after the file.
-/
namespace SlotBoard

inductive SourceError where
  | unreadable (path : String) (e : FileError)
  | document (name : String) (e : DocumentError)
deriving DecidableEq

def SourceError.message : SourceError → String
  | unreadable path e => "cannot read " ++ path ++ ": " ++ e.message
  | document _ (.shape e) => e.message
  | document name e => "decode " ++ name ++ ": " ++ e.message

def DocumentFormat.ofPath (path : String) : DocumentFormat :=
  if Fold.same (Path.extension path) ".cbor" then .cbor else .json

namespace SourceUnit

variable {m : Type → Type} [Monad m] [MonadFiles m]

def decodeFile (path : String) : m (Except SourceError SourceUnit) := do
  match ← MonadFiles.read path with
  | .error e => return .error (.unreadable path e)
  | .ok bs =>
    let name := Path.unitName path
    return (decode (.ofPath path) name bs).mapError (.document name)

/-- The source units in files, in their order; the first failure counts. -/
def decodeFiles : List String → m (Except SourceError (List SourceUnit))
  | [] => return .ok []
  | path :: paths => do
    match ← decodeFile path with
    | .error e => return .error e
    | .ok u =>
      match ← decodeFiles paths with
      | .error e => return .error e
      | .ok us => return .ok (u :: us)

end SourceUnit
end SlotBoard
