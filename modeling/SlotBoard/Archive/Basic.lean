import SlotBoard.Archive.Version
import SlotBoard.Board.Printer
import SlotBoard.Snapshot.Codec

/-!
The archive of lowered modules. It only grows: every result is put at its end under an identifier of
its own, and what is asked for is the newest of the artifacts that fit. Of two artifacts made at the
same time the one put later is newer.
-/
namespace SlotBoard

/-- What tells one artifact from another: an identifier, and a time in nanoseconds. -/
structure Stamp where
  id : String
  time : Int64
deriving DecidableEq, Inhabited

/-- A lowered module, kept with its text and its snapshot. -/
structure Artifact where
  id : String
  module : String
  fingerprint : String
  format : String
  bytes : Bytes
  text : String
  diagnostics : Int64
  created : Int64
deriving DecidableEq, Inhabited

inductive ArchiveError where
  | notFound
  | badFormat (format : String) (e : VersionError)
  | formatOutside (format : String)
  | damaged
deriving DecidableEq

def ArchiveError.message : ArchiveError → String
  | notFound => "artifact not found"
  | badFormat format e =>
    "incompatible snapshot format: " ++ Quoted.encode format ++ ": " ++ e.message
  | formatOutside format =>
    "incompatible snapshot format: " ++ format ++ " is outside " ++ Version.readableRange
  | damaged => "damaged snapshot"

namespace Artifact

def ofModule (stamp : Stamp) (m : Module) (diagnostics : Int64) : Artifact :=
  { id := stamp.id
    module := m.name
    fingerprint := m.fingerprint
    format := Snapshot.currentFormat
    bytes := m.snapshotBytes
    text := m.text
    diagnostics
    created := stamp.time }

def snapshot (a : Artifact) : Except ArchiveError Snapshot :=
  match Version.parse a.format with
  | .error e => .error (.badFormat a.format e)
  | .ok v =>
    if !v.isReadable then .error (.formatOutside a.format)
    else
      match Snapshot.decode? a.bytes with
      | some s => .ok s
      | none => .error .damaged

def shortFingerprint (a : Artifact) : String := String.ofList (a.fingerprint.toList.take 12)

end Artifact

/-- The artifacts in the order in which they were put. -/
structure Archive where
  artifacts : List Artifact := []
deriving DecidableEq, Inhabited

namespace Archive

def ids (archive : Archive) : List String := archive.artifacts.map Artifact.id

/-- Put an artifact at the end, unless its identifier is that of another one. -/
def put? (archive : Archive) (a : Artifact) : Option Archive :=
  if a.id ∈ archive.ids then none else some ⟨archive.artifacts ++ [a]⟩

def newest (archive : Archive) (test : Artifact → Bool) : List Artifact :=
  (archive.artifacts.filter test).reverse.mergeSort fun a b => b.created ≤ a.created

def list (archive : Archive) (module : String) : List Artifact :=
  archive.newest (·.module = module)

def latest (archive : Archive) (module : String) : Except ArchiveError Artifact :=
  match archive.list module with
  | a :: _ => .ok a
  | [] => .error .notFound

def get (archive : Archive) (fingerprint : String) : Except ArchiveError Artifact :=
  match archive.newest (·.fingerprint = fingerprint) with
  | a :: _ => .ok a
  | [] => .error .notFound

end Archive
end SlotBoard
