import SlotBoard.Glob
import SlotBoard.Kind
import SlotBoard.Text.Quoted
import SlotBoard.Toml.Table

/-!
The manifest of a project: the name and output of its module, its source documents, type aliases,
log and archive settings. It is a TOML file in the project's directory. Keys are matched without
regard to case, and keys without a meaning are passed over.
-/
namespace SlotBoard

/-- A manifest. `directory` is where it was found; texts that are not set are empty. -/
structure Manifest where
  directory : String := ""
  name : String := ""
  output : String := ""
  files : List String := []
  kinds : List (String × String) := []
  verbosity : Int := 0
  logFile : String := ""
  store : String := ""
deriving DecidableEq, Inhabited

inductive ManifestError where
  | unreadable (path : String) (e : FileError)
  | malformed (path : String)
  | unknownKind (name spelling : String)
  | badPattern (pattern : String)
  | noMatch (pattern : String)
deriving DecidableEq

def ManifestError.message : ManifestError → String
  | unreadable path e => "cannot read " ++ path ++ ": " ++ e.message
  | malformed path => "parse error in " ++ path ++ ": not a manifest"
  | unknownKind name spelling =>
    "[kinds] " ++ name ++ ": unknown kind " ++ Quoted.encode spelling
  | badPattern pattern =>
    "bad source pattern " ++ Quoted.encode pattern ++ ": syntax error in pattern"
  | noMatch pattern => "source " ++ Quoted.encode pattern ++ " matches no files"

namespace Manifest

open Toml (Entries)

def fileName : String := "slotir.toml"

def text? : Toml.Value → Option String
  | .text s => some s
  | _ => none

def texts? : Toml.Value → Option (List String)
  | .array items => items.mapM text?
  | _ => none

def integer? : Toml.Value → Option Int
  | .integer n => some n
  | _ => none

def table? : Toml.Value → Option Entries
  | .table es => some es
  | _ => none

def withEntries (f : Manifest → String → Toml.Value → Option Manifest) (m : Manifest)
    (es : Entries) : Option Manifest :=
  es.foldlM (fun m (key, value) => f m key value) m

def withModule (m : Manifest) (key : String) (value : Toml.Value) : Option Manifest :=
  if Fold.same key "name" then (text? value).map fun s => { m with name := s }
  else if Fold.same key "output" then (text? value).map fun s => { m with output := s }
  else some m

def withSource (m : Manifest) (key : String) (value : Toml.Value) : Option Manifest :=
  if Fold.same key "files" then (texts? value).map fun files => { m with files } else some m

def withLog (m : Manifest) (key : String) (value : Toml.Value) : Option Manifest :=
  if Fold.same key "verbosity" then (integer? value).map fun n => { m with verbosity := n }
  else if Fold.same key "file" then (text? value).map fun s => { m with logFile := s }
  else some m

def withStore (m : Manifest) (key : String) (value : Toml.Value) : Option Manifest :=
  if Fold.same key "path" then (text? value).map fun s => { m with store := s } else some m

def withKind (m : Manifest) (key : String) (value : Toml.Value) : Option Manifest :=
  (text? value).map fun s => { m with kinds := m.kinds.filter (·.1 ≠ key) ++ [(key, s)] }

/-- Take in a top-level entry. The sections are tables, except that a `kinds` entry that is no table
counts for nothing. -/
def withSection (m : Manifest) (key : String) (value : Toml.Value) : Option Manifest :=
  if Fold.same key "module" then (table? value).bind (withEntries withModule m)
  else if Fold.same key "source" then (table? value).bind (withEntries withSource m)
  else if Fold.same key "log" then (table? value).bind (withEntries withLog m)
  else if Fold.same key "store" then (table? value).bind (withEntries withStore m)
  else if Fold.same key "kinds" then
    match table? value with
    | some es => withEntries withKind m es
    | none => some m
  else some m

def decode? (bs : Bytes) : Option Manifest := (Toml.decode? bs).bind (withEntries withSection {})

/-- Fill in what is not set: the name of the directory, and an output named after the module. -/
def withDefaults (m : Manifest) (directory : String) : Manifest :=
  let name := if m.name = "" then Path.base directory else m.name
  { m with directory, name, output := if m.output = "" then name ++ ".ir" else m.output }

def path (m : Manifest) (p : String) : String :=
  if Path.isAbsolute p then p else Path.join m.directory p

def outputPath (m : Manifest) : String := m.path m.output

def storePath (m : Manifest) : String := if m.store = "" then "" else m.path m.store

def logPath (m : Manifest) : Option String :=
  if m.logFile = "" then none else some (m.path m.logFile)

def aliases (m : Manifest) : Except ManifestError Kind.Aliases :=
  m.kinds.mapM fun (name, spelling) =>
    match Kind.parse? spelling with
    | some kind => .ok (name, kind)
    | none => .error (.unknownKind name spelling)

variable {μ : Type → Type} [Monad μ] [MonadFiles μ]

def load (directory : String) : μ (Except ManifestError Manifest) := do
  let path := Path.join directory fileName
  match ← MonadFiles.read path with
  | .error e => return .error (.unreadable path e)
  | .ok bs =>
    match decode? bs with
    | none => return .error (.malformed path)
    | some m =>
      return .ok (m.withDefaults (Path.absolute (← MonadFiles.workingDirectory) directory))

def loadFirst : List String → μ (Except ManifestError (Option Manifest))
  | [] => return .ok none
  | directory :: directories => do
    if ← Files.exist (Path.join directory fileName) then
      return (← load directory).map some
    else loadFirst directories

/-- The manifest of the nearest directory that has one: the given one, or one above it. -/
def find (directory : String) : μ (Except ManifestError (Option Manifest)) := do
  loadFirst (Path.upward (Path.absolute (← MonadFiles.workingDirectory) directory))

def expandSource (m : Manifest) (entry : String) : μ (Except ManifestError (List String)) := do
  match ← Glob.expand (m.path entry) with
  | none => return .error (.badPattern entry)
  | some [] => return .error (.noMatch entry)
  | some found => return .ok (Glob.sortNames found)

def expandSources (m : Manifest) : List String → μ (Except ManifestError (List String))
  | [] => return .ok []
  | entry :: entries => do
    match ← m.expandSource entry with
    | .error e => return .error e
    | .ok found =>
      match ← m.expandSources entries with
      | .error e => return .error e
      | .ok more => return .ok (found ++ more)

def sourcePaths (m : Manifest) : μ (Except ManifestError (List String)) := m.expandSources m.files

end Manifest
end SlotBoard
