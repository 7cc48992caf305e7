import SlotBoard.Command.Verbosity
import SlotBoard.Manifest

/-!
The configuration of one invocation: what the command line asks for, completed by the manifest.
-/
namespace SlotBoard

/-- Settings from the command line. Texts that are not set are empty. -/
structure Options where
  name : String := ""
  output : String := ""
  store : String := ""
  verbosity : Int := 0
  check : Bool := false
deriving DecidableEq, Inhabited

/-- The settings of an invocation. An output of `-` is the standard output; an empty store means
that nothing is archived. -/
structure Config where
  name : String
  output : String
  inputs : List String
  aliases : Kind.Aliases
  check : Bool
  store : String
  verbosity : Int
  logPath : Option String
deriving DecidableEq

inductive ConfigError where
  | manifest (e : ManifestError)
  | noInputs
deriving DecidableEq

def ConfigError.message : ConfigError → String
  | manifest e => e.message
  | noInputs =>
    "no input documents (pass paths or add [source] files to " ++ Manifest.fileName ++ ")"

namespace Config

def orElse (s default : String) : String := if s = "" then default else s

def ofOptions (options : Options) (inputs : List String) : Config :=
  { name := options.name
    output := options.output
    inputs
    aliases := []
    check := options.check
    store := options.store
    verbosity := options.verbosity
    logPath := none }

def complete (c : Config) (man : Manifest) (aliases : Kind.Aliases) : Config :=
  { c with
    name := orElse c.name man.name
    output := orElse c.output man.outputPath
    aliases
    store := orElse c.store man.storePath
    verbosity := if c.verbosity = 0 then man.verbosity else c.verbosity
    logPath := man.logPath }

/-- Settings with a name: a module without one is named after its first input. -/
def named (c : Config) : Config :=
  { c with name := orElse c.name (c.inputs.head?.elim "" Path.unitName) }

def forLowering (c : Config) : Except ConfigError Config :=
  if c.inputs.isEmpty then .error .noInputs
  else .ok { c with output := orElse c.output (c.name ++ ".ir") }

variable {m : Type → Type} [Monad m] [MonadFiles m]

/-- Settings completed by a manifest. Its source documents count only if no inputs are given. -/
def withManifest (c : Config) (man : Manifest) : m (Except ConfigError Config) := do
  match man.aliases with
  | .error e => return .error (.manifest e)
  | .ok aliases =>
    let c := c.complete man aliases
    if c.inputs.isEmpty && !man.files.isEmpty then
      match ← man.sourcePaths with
      | .error e => return .error (.manifest e)
      | .ok inputs => return .ok { c with inputs }
    else return .ok c

def resolve (options : Options) (inputs : List String) (man : Option Manifest)
    (inputsOptional : Bool) : m (Except ConfigError Config) := do
  let completed ← match man with
    | none => pure (.ok (ofOptions options inputs))
    | some man => withManifest (ofOptions options inputs) man
  match completed with
  | .error e => return .error e
  | .ok c => return if inputsOptional then .ok c.named else c.named.forLowering

end Config
end SlotBoard
