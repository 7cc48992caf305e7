import SlotBoard.Board.Printer

/-!
A snapshot is a module flattened to texts, flags and successor lists. It says what the module's text
says, in a form that other programs can read.
-/
namespace SlotBoard

namespace Snapshot

/-- A variable or a constant. `form` tells which; texts that do not apply are empty. -/
structure ValueRecord where
  form : String := ""
  kind : String := ""
  name : String := ""
  source : String := ""
  owner : String := ""
  flags : Flags := {}
  literal : String := ""
deriving DecidableEq, Inhabited

structure ItemRecord where
  text : String := ""
  next : List Int := []
deriving DecidableEq, Inhabited

structure BoardRecord where
  name : String := ""
  kind : String := ""
  values : List ValueRecord := []
  slots : List (List ItemRecord) := []
deriving DecidableEq, Inhabited

end Snapshot

structure Snapshot where
  format : String := ""
  name : String := ""
  globals : List Snapshot.ValueRecord := []
  boards : List Snapshot.BoardRecord := []
deriving DecidableEq, Inhabited

namespace Snapshot

def currentFormat : String := "1.0.0"

def ValueRecord.ofVariable (v : Variable) : ValueRecord :=
  { form := "VAR", kind := v.kind.token, name := v.name, source := v.source, owner := v.owner,
    flags := v.flags }

def ValueRecord.ofValue : Value → ValueRecord
  | .var v => ofVariable v
  | .const c => { form := "CONSTANT", kind := c.kind.token, name := c.name, literal := c.literal }
  | .unset => { form := "UNKNOWN" }

def ItemRecord.ofItem (item : Item) : ItemRecord := { text := item.text, next := item.next }

def BoardRecord.ofBoard (board : Board) : BoardRecord :=
  { name := board.name
    kind := board.kind.token
    values := board.values.map .ofValue
    slots := board.slots.map fun slot => slot.items.map .ofItem }

def ofModule (m : Module) : Snapshot :=
  { format := currentFormat
    name := m.name
    globals := m.globals.map .ofVariable
    boards := m.boards.map .ofBoard }

end Snapshot
end SlotBoard
