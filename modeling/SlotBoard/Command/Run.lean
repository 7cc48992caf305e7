import SlotBoard.Archive.Store
import SlotBoard.Board.Violation
import SlotBoard.Command.Flags
import SlotBoard.Document.File
import SlotBoard.Lowering.Unit

/-!
What an invocation does. All inputs are read before anything is written; they are lowered in their
order into one module, whose text is written and which is then archived. Diagnostics do not stop a
run. What goes to the two output streams is collected in a report.
-/
namespace SlotBoard

/-- Where artifacts get their identifiers and times from, and how times are shown. -/
class MonadStamp (m : Type → Type) where
  stamp : m Stamp
  showTime : Int64 → m String

inductive CommandError where
  | config (e : ConfigError)
  | source (e : SourceError)
  | invalid (module report : String)
  | uncreated (directory : String) (e : FileError)
  | unwritten (path : String) (e : FileError)
  | store (e : StoreError)
  | historyWithoutStore
  | historyWithoutName
  | unwatched (directory : String) (fault : FileFault)
deriving DecidableEq

def CommandError.message : CommandError → String
  | config e => e.message
  | source e => e.message
  | invalid module report => "module " ++ module ++ " failed validation: " ++ report
  | uncreated directory e => "cannot create " ++ directory ++ ": " ++ e.message
  | unwritten path e => "cannot write " ++ path ++ ": " ++ e.message
  | store e => e.message
  | historyWithoutStore => "-history needs -store or a manifest [store] path"
  | historyWithoutName => "-history needs a module name (-m or a manifest [module] name)"
  | unwatched directory fault => "cannot watch " ++ directory ++ ": " ++ fault.message

/-- A message for the standard error stream. -/
inductive Notice where
  | refusal (e : FlagError)
  | failure (e : CommandError)
  | diagnostic (module : String) (d : Diagnostic)
  | stored (a : Artifact)

def Notice.text : Notice → String
  | refusal e => (e.message?.elim "" (· ++ "\n")) ++ Invocation.usage
  | failure e => "Error: " ++ e.message ++ "\n"
  | diagnostic module d => module ++ ": " ++ d.text ++ "\n"
  | stored a => "stored " ++ a.id ++ " (" ++ a.shortFingerprint ++ ")\n"

inductive ExitStatus where
  | success
  | failure
  | diagnostics
  | misuse
deriving DecidableEq

def ExitStatus.code : ExitStatus → UInt32
  | success => 0
  | failure => 1
  | diagnostics => 2
  | misuse => 2

/-- The outcome of an invocation: its exit status, the text for the standard output, and the
messages for the standard error stream. -/
structure Report where
  status : ExitStatus := .success
  output : String := ""
  notices : List Notice := []

def Report.cutShort (output : String) (e : CommandError) : Report :=
  { status := .failure, output, notices := [.failure e] }

def Report.ofError (e : CommandError) : Report := .cutShort "" e

def Report.ofRefusal (e : FlagError) : Report :=
  { status := if e = .help then .success else .misuse, notices := [.refusal e] }

def Report.ofLowering (l : Lowering) (artifact : Option Artifact) (output : String) : Report :=
  { status := if l.diagnostics.isEmpty then .success else .diagnostics
    output
    notices := l.diagnostics.map (.diagnostic l.module.name) ++ artifact.toList.map .stored }

/-- What an invocation comes to: a report, or work that goes on until the program is stopped. -/
inductive Activity where
  | done (r : Report)
  | serve (c : Config)
  | watch (c : Config)

namespace Config

variable {m : Type → Type} [Monad m] [MonadFiles m] [MonadArchives m] [MonadStamp m]

def lower (c : Config) : m (Except CommandError Lowering) := do
  match ← SourceUnit.decodeFiles c.inputs with
  | .error e => return .error (.source e)
  | .ok units =>
    let l := units.foldl Lowering.unit (.start c.name c.aliases)
    match if c.check then l.module.validityReport? else none with
    | some report => return .error (.invalid c.name report)
    | none => return .ok l

def makeOutputDirectory (c : Config) : m (Except CommandError Unit) := do
  let directory := Path.parent c.output
  if directory = "." then return .ok ()
  else return (← Files.makeDirectories directory).mapError (.uncreated directory)

/-- Write the text of a module to the output; the result is what goes to the standard output. -/
def writeText (c : Config) (text : String) : m (Except CommandError String) := do
  if c.output = "-" then return .ok text
  else
    match ← c.makeOutputDirectory with
    | .error e => return .error e
    | .ok () =>
      match ← MonadFiles.write c.output (Utf8.encode text) with
      | .error e => return .error (.unwritten c.output e)
      | .ok () => return .ok ""

def archive (c : Config) (l : Lowering) : m (Except CommandError (Option Artifact)) := do
  if c.store = "" then return .ok none
  else
    match ← Store.openAt c.store with
    | .error e => return .error (.store e)
    | .ok store =>
      let a := Artifact.ofModule (← MonadStamp.stamp) l.module (Int64.ofNat l.diagnostics.length)
      match ← store.put a with
      | .error e => return .error (.store e)
      | .ok _ => return .ok (some a)

def run (c : Config) : m Report := do
  match ← c.lower with
  | .error e => return .ofError e
  | .ok l =>
    match ← c.writeText l.module.text with
    | .error e => return .ofError e
    | .ok output =>
      match ← c.archive l with
      | .error e => return .cutShort output e
      | .ok artifact => return .ofLowering l artifact output

def historyLine (a : Artifact) : m String := do
  return (← MonadStamp.showTime a.created) ++ "  " ++ a.id ++ "  " ++ a.shortFingerprint ++ "  " ++
    toString a.diagnostics.toInt ++ " diagnostics\n"

def history (c : Config) : m Report := do
  if c.store = "" then return .ofError .historyWithoutStore
  else if c.name = "" then return .ofError .historyWithoutName
  else
    match ← Store.openAt c.store with
    | .error e => return .ofError (.store e)
    | .ok s => return { output := String.join (← (s.archive.list c.name).mapM historyLine) }

def inputDirectories (c : Config) : m (List String) := do
  let here ← MonadFiles.workingDirectory
  return c.inputs.map fun path => Path.parent (Path.absolute here path)

def firstMissing : List String → m (Option (String × FileFault))
  | [] => return none
  | directory :: directories => do
    match ← MonadFiles.kind directory with
    | .ok _ => firstMissing directories
    | .error fault => return some (directory, fault)

def startWatch (c : Config) : m Activity := do
  match ← firstMissing (← c.inputDirectories) with
  | some (directory, fault) => return .done (.ofError (.unwatched directory fault))
  | none => return .watch c

end Config

namespace Invocation

variable {m : Type → Type} [Monad m] [MonadFiles m] [MonadArchives m] [MonadStamp m]

def config (i : Invocation) : m (Except ConfigError Config) := do
  match ← Manifest.find (← MonadFiles.workingDirectory) with
  | .error e => return .error (.manifest e)
  | .ok man => Config.resolve i.options i.inputs man (i.serve || i.history)

def perform (i : Invocation) : m Activity := do
  match ← i.config with
  | .error e => return .done (.ofError (.config e))
  | .ok c =>
    if i.serve then return .serve c
    else if i.history then return .done (← c.history)
    else if i.watch then c.startWatch
    else return .done (← c.run)

def start (arguments : List String) : m Activity :=
  match parse arguments with
  | .error e => return .done (.ofRefusal e)
  | .ok i => i.perform

end Invocation
end SlotBoard
