import SlotBoard.Path
import SlotBoard.Text.Percent

/-!
Where an archive is kept. An archive is named by a path, by an address that starts with `file:`, or
by a name for an archive that is forgotten when the program ends. Options may follow a question
mark; in an address they say how the file is to be opened.
-/
namespace SlotBoard

/-- How a file is opened. A mode can be replaced by one of lower rank, and by the last one. -/
inductive OpenMode where
  | readOnly
  | existing
  | create
  | transient
deriving DecidableEq

namespace OpenMode

def rank : OpenMode → Nat
  | readOnly => 0
  | existing => 1
  | create => 2
  | transient => 3

def ofName? : String → Option OpenMode
  | "ro" => some readOnly
  | "rw" => some existing
  | "rwc" => some create
  | "memory" => some transient
  | _ => none

end OpenMode

/-- Why no place can be told from the name of an archive. -/
inductive LocationError where
  | query (e : QueryError)
  | conflictingSystems (names : List String)
  | badOption
  | forbiddenMode
deriving DecidableEq

def LocationError.message : LocationError → String
  | query e => e.message
  | conflictingSystems names =>
    "conflicting vfs query parameters: [" ++ " ".intercalate names ++ "]"
  | badOption => "SQL logic error: out of memory (1)"
  | forbiddenMode => "access permission denied: out of memory (3)"

/-- An option with a value that it does not have. It is noticed after the file has been opened. -/
inductive SettingError where
  | timeFormat (value : String)
  | transactionLock (value : String)
deriving DecidableEq

def SettingError.message : SettingError → String
  | timeFormat value => "unknown _time_format " ++ Quoted.encode value
  | transactionLock value => "unknown _txlock " ++ Quoted.encode value

/-- The place of an archive: a file, unless it is transient. -/
structure Location where
  path : String
  mode : OpenMode := .create
  /-- The file is taken to be on a medium that cannot be written. -/
  frozen : Bool := false
  settingError? : Option SettingError := none
deriving DecidableEq

namespace Location

def transientPath : String := ":memory:"

def isTransient (l : Location) : Bool :=
  l.mode = .transient || l.path = "" || l.path = transientPath

def creates (l : Location) : Bool := l.mode = .create

def writes (l : Location) : Bool := l.mode ≠ .readOnly && !l.frozen

def takesPuts (l : Location) : Bool := l.isTransient || l.writes

def diskSystems : List String := ["unix", "unix-none", "unix-dotfile", "unix-excl"]

def memorySystem : String := "memdb"

/-- Whether the value of an option means yes: a word for it, or a number whose last byte is not
zero. -/
def isYes (value : String) : Bool :=
  let digits := value.toList.takeWhile Char.isDigit
  if digits.isEmpty then ["on", "yes", "true"].contains value.toLower
  else digits.foldl (fun n c => n * 10 + (c.toNat - '0'.toNat)) 0 % 256 ≠ 0

/-- The options of an address; there are no more of them than characters. An option without a name
is skipped. -/
def optionsOf : Nat → List Char → Query
  | 0, _ => []
  | room + 1, cs =>
    let (name, rest) := Percent.decodeUpTo (fun c => c = '=' || c = '&') cs
    let (value, rest) :=
      match rest with
      | '=' :: rest => Percent.decodeUpTo (· = '&') rest
      | rest => ([], rest)
    let option := if name.isEmpty then [] else [(Utf8.decodeLossy name, Utf8.decodeLossy value)]
    match rest with
    | [] => option
    | _ :: rest => option ++ optionsOf room rest

/-- What the options of an address have asked for so far. -/
structure Request where
  mode : OpenMode := .create
  system : Option String := none

def Request.take (r : Request) : String × String → Except LocationError Request
  | ("vfs", value) => .ok { r with system := some value }
  | ("cache", value) => if ["shared", "private"].contains value then .ok r else .error .badOption
  | ("mode", value) =>
    match OpenMode.ofName? value with
    | none => .error .badOption
    | some mode =>
      if mode ≠ .transient ∧ r.mode.rank < mode.rank then .error .forbiddenMode
      else .ok { r with mode }
  | _ => .ok r

def Request.locate (r : Request) (path : String) : Except LocationError Location :=
  match r.system with
  | none => .ok { path, mode := r.mode }
  | some system =>
    if system = memorySystem then .ok { path, mode := .transient }
    else if diskSystems.contains system then .ok { path, mode := r.mode }
    else .error .badOption

/-- The path of an address, after the name of the machine, which can only be this one. -/
def dropAuthority? : List Char → Option (List Char)
  | '/' :: '/' :: cs =>
    let authority := String.ofList (cs.takeWhile (· ≠ '/'))
    if authority = "" ∨ authority = "localhost" then some (cs.dropWhile (· ≠ '/')) else none
  | cs => some cs

def ofAddress (system : Option String) (cs : List Char) : Except LocationError Location := do
  let some cs := dropAuthority? cs | .error .badOption
  let (path, rest) := Percent.decodeUpTo (· = '?') (cs.takeWhile (· ≠ '#'))
  let options := optionsOf rest.length (rest.drop 1)
  let request ← options.foldlM Request.take { system }
  let location ← request.locate (Utf8.decodeLossy path)
  return { location with frozen := isYes ((options.values "immutable").headD "") }

def systemOf (q : Query) : Except LocationError (Option String) :=
  match (q.values "vfs").dropWhile (· = "") with
  | [] => .ok none
  | first :: rest =>
    if rest.all (· = first) then .ok (some first) else .error (.conflictingSystems (q.values "vfs"))

/-- What is wrong with the options that are looked at after the file has been opened. -/
def settingErrorOf (q : Query) : Option SettingError :=
  match ((q.values "_time_format").headD "", (q.values "_txlock").headD "") with
  | ("", "") => none
  | ("", lock) =>
    if ["deferred", "immediate", "exclusive"].contains lock.toLower then none
    else some (.transactionLock lock)
  | (format, _) =>
    if ["sqlite", "datetime"].contains format then none else some (.timeFormat format)

/-- The options after the first question mark; one at the very start belongs to the path. -/
def queryOf (cs : List Char) : Except LocationError Query :=
  match cs with
  | [] => .ok []
  | _ :: cs => (Query.parse ((cs.dropWhile (· ≠ '?')).drop 1)).mapError .query

def pathOf (cs : List Char) : List Char :=
  match cs with
  | [] => []
  | c :: cs => c :: cs.takeWhile (· ≠ '?')

def untilZero (cs : List Char) : List Char := cs.takeWhile (· ≠ '\x00')

def parse (name : String) : Except LocationError Location := do
  let q ← queryOf name.toList
  let system ← systemOf q
  let location ←
    match name.toList with
    | 'f' :: 'i' :: 'l' :: 'e' :: ':' :: cs => ofAddress system (untilZero cs)
    | cs => Request.locate { system } (String.ofList (untilZero (pathOf cs)))
  return { location with settingError? := settingErrorOf q }

end Location
end SlotBoard
