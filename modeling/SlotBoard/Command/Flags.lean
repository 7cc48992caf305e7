import SlotBoard.Command.Config

/-!
The command line. Flags come first: a flag starts with one or two hyphens and may carry a value
after an equals sign. A switch takes its value in no other way; every other flag takes the next
argument if it carries none. Flags end at the first argument that is none, which includes a lone
hyphen, and after two hyphens that stand alone.
-/
namespace SlotBoard

/-- What a command line asks for. -/
structure Invocation where
  name : String := ""
  output : String := ""
  store : String := ""
  verbosity : Verbosity := {}
  check : Bool := false
  history : Bool := false
  watch : Bool := false
  serve : Bool := false
  inputs : List String := []
deriving DecidableEq, Inhabited

/-- Why a command line is refused. Asking for help stops the reading as well. -/
inductive FlagError where
  | help
  | badSyntax (argument : String)
  | undefined (flag : String)
  | missingValue (flag : String)
  | badSwitch (flag value reason : String)
deriving DecidableEq

def FlagError.message? : FlagError → Option String
  | help => none
  | badSyntax argument => some ("bad flag syntax: " ++ argument)
  | undefined flag => some ("flag provided but not defined: -" ++ flag)
  | missingValue flag => some ("flag needs an argument: -" ++ flag)
  | badSwitch flag value reason =>
    some ("invalid boolean value " ++ Quoted.encode value ++ " for -" ++ flag ++ ": " ++ reason)

def truth? (s : String) : Option Bool :=
  if s ∈ ["1", "t", "T", "true", "TRUE", "True"] then some true
  else if s ∈ ["0", "f", "F", "false", "FALSE", "False"] then some false
  else none

/-- A flag: a switch, or one that takes a text. The action of a switch gives the reason if it
refuses a value. -/
inductive Flag where
  | switch (set : Invocation → String → Except String Invocation)
  | text (set : Invocation → String → Invocation)

namespace Flag

def isSwitch : Flag → Bool
  | switch _ => true
  | text _ => false

def onOff (set : Invocation → Bool → Invocation) : Flag :=
  switch fun i value =>
    match truth? value with
    | some b => .ok (set i b)
    | none => .error "parse error"

def detail : Flag :=
  switch fun i value =>
    match i.verbosity.set? value with
    | some verbosity => .ok { i with verbosity }
    | none => .error (Verbosity.refusal value)

def table : List (String × Flag × String) := [
  ("check", onOff fun i check => { i with check },
    "Validate the structure of the lowered module"),
  ("history", onOff fun i history => { i with history },
    "List the module's stored artifacts and exit"),
  ("lsp", onOff fun i serve => { i with serve },
    "Start the IR preview language server on stdio"),
  ("m", text fun i name => { i with name },
    "Module name (default: manifest [module] name, else the first input's name)"),
  ("o", text fun i output => { i with output },
    "Output file; - writes to stdout (default <module>.ir)"),
  ("store", text fun i store => { i with store },
    "Record the result in this artifact database"),
  ("v", detail, "Raise log verbosity (repeatable, or -v=N)"),
  ("watch", onOff fun i watch => { i with watch },
    "Lower again whenever an input document changes")]

def find? (name : String) : Option Flag := (table.lookup name).map (·.1)

/-- The name of a flag and the value it carries; an equals sign cannot come first. -/
def split : List Char → String × Option String
  | [] => ("", none)
  | c :: cs =>
    let name := String.ofList (c :: cs.takeWhile (· ≠ '='))
    match cs.dropWhile (· ≠ '=') with
    | [] => (name, none)
    | _ :: value => (name, some (String.ofList value))

def headline (name : String) (flag : Flag) : String :=
  "  -" ++ name ++ (if flag.isSwitch then "" else " string")

/-- A flag in the usage text; a short headline and its explanation share a line. -/
def usageEntry (name : String) (flag : Flag) (explanation : String) : String :=
  let start := headline name flag
  start ++ (if start.toList.length ≤ 4 then "\t" else "\n    \t") ++ explanation ++ "\n"

end Flag

namespace Invocation

/-- What an argument is, as far as reading flags goes. -/
inductive Argument where
  | input
  | separator
  | bad
  | flag (name : String) (value : Option String)

def Argument.classify (argument : String) : Argument :=
  let ofBody : List Char → Argument
    | [] => .bad
    | c :: cs =>
      if c = '-' || c = '=' then .bad
      else
        let (name, value) := Flag.split (c :: cs)
        .flag name value
  match argument.toList with
  | ['-'] => .input
  | ['-', '-'] => .separator
  | '-' :: '-' :: body => ofBody body
  | '-' :: body => ofBody body
  | _ => .input

def parseFrom (i : Invocation) : List String → Except FlagError Invocation
  | [] => .ok i
  | argument :: rest =>
    match Argument.classify argument with
    | .input => .ok { i with inputs := argument :: rest }
    | .separator => .ok { i with inputs := rest }
    | .bad => .error (.badSyntax argument)
    | .flag name value =>
      match Flag.find? name, value, rest with
      | none, _, _ => .error (if name = "help" ∨ name = "h" then .help else .undefined name)
      | some (.switch set), value, rest =>
        match set i (value.getD "true") with
        | .ok i => parseFrom i rest
        | .error reason => .error (.badSwitch name (value.getD "true") reason)
      | some (.text set), some value, rest => parseFrom (set i value) rest
      | some (.text set), none, next :: rest => parseFrom (set i next) rest
      | some (.text _), none, [] => .error (.missingValue name)

def parse (arguments : List String) : Except FlagError Invocation := parseFrom {} arguments

def options (i : Invocation) : Options :=
  { name := i.name
    output := i.output
    store := i.store
    verbosity := i.verbosity.toInt
    check := i.check }

def usage : String :=
  "Usage: slotir [options] [documents...]\n\n" ++
  "Lowers AST documents (.json, .cbor) into one slot IR module.\n" ++
  "Without documents, the [source] files of the nearest " ++ Manifest.fileName ++
  " are used.\n\n" ++
  "Options:\n" ++
  String.join (Flag.table.map fun (name, flag, explanation) =>
    Flag.usageEntry name flag explanation) ++
  "\nExamples:\n" ++
  "  slotir main.json                 # Write main.ir\n" ++
  "  slotir -m fw -o - a.json b.json  # Lower two units into module fw, print IR\n" ++
  "  slotir -watch -store ir.db       # Re-lower manifest sources on change, keep history\n" ++
  "  slotir -lsp                      # Language server for editors\n" ++
  "\nExit status is 2 when lowering reported diagnostics; the IR is still written.\n"

end Invocation
end SlotBoard
