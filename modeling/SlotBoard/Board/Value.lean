import SlotBoard.Kind

/-!
Values are what items read and write: variables and constants. Every value carries an internal name
that ends in a number drawn from the module's counter.
-/
namespace SlotBoard

structure Flags where
  isPublic : Bool := false
  globalConstant : Bool := false
  methodParam : Bool := false
  isMember : Bool := false
  privateMethod : Bool := false
  isVolatile : Bool := false
deriving DecidableEq, Inhabited

/-- A storage location. `source` is the name it was declared with, and equals `name` for a
temporary; `owner` is the board it belongs to, and empty at module scope. -/
structure Variable where
  name : String
  kind : Kind
  source : String
  owner : String
  flags : Flags := {}
  temp : Bool := false
deriving DecidableEq, Inhabited

/-- A literal, as it was spelled. -/
structure Constant where
  name : String
  kind : Kind
  literal : String
deriving DecidableEq, Inhabited

/-- An entry of a board's value list. `unset` is an entry that was left empty. -/
inductive Value where
  | var (v : Variable)
  | const (c : Constant)
  | unset
deriving DecidableEq, Inhabited

namespace Value

def name : Value → String
  | var v => v.name
  | const c => c.name
  | unset => ""

def kind : Value → Kind
  | var v => v.kind
  | const c => c.kind
  | unset => ⟨""⟩

def toVariable? : Value → Option Variable
  | var v => some v
  | _ => none

end Value

def stamp (stem owner : String) (n : Nat) : String := stem ++ "_" ++ owner ++ "_" ++ toString n

namespace Variable

def declared (source owner scope : String) (n : Nat) (kind : Kind) (flags : Flags) : Variable :=
  { name := stamp source scope n, kind, source, owner, flags }

def temporary (stem owner : String) (n : Nat) (kind : Kind) (flags : Flags) : Variable :=
  { name := stamp stem owner n, kind, source := stamp stem owner n, owner, flags, temp := true }

end Variable

def Constant.numbered (owner : String) (n : Nat) (kind : Kind) (literal : String) : Constant :=
  { name := stamp "constant" owner n, kind, literal }

end SlotBoard
