import SlotBoard.Lowering.Diagnostic
import SlotBoard.Module.Basic

/-!
A draft is a board under construction, with the module's counter and the diagnostics reported so
far. `Emit` steps write to it and always finish; an `Attempt` may give up with the diagnostic it has
just reported, and what it wrote until then stays.
-/
namespace SlotBoard

/-- What a function body sees of the module around it: the type aliases, the module's variables and
the kinds of the boards defined so far, its own included. -/
structure Context where
  aliases : Kind.Aliases
  globals : List Variable
  signatures : List (String × Kind)
  isPrivate : Bool

structure Draft where
  board : Board
  counter : Nat
  diagnostics : List Diagnostic := []
deriving DecidableEq, Inhabited

abbrev Emit := StateM Draft

abbrev Attempt := ExceptT Diagnostic Emit

namespace Draft

def size : Emit Nat := do return (← get).board.slots.length

def onBoard (f : Board → Board) : Emit Unit := modify fun d => { d with board := f d.board }

def emit (item : Item) : Emit Unit := onBoard (·.emit item)

def placeholder : Emit Unit := do
  emit (.jump ((← size) + 1))

def introduce (make : String → Nat → α) (toValue : α → Value) : Emit α :=
  modifyGet fun d =>
    let a := make d.board.name d.counter
    (a, { d with board := d.board.pushValue (toValue a), counter := d.counter + 1 })

/-- Flags of a variable of the board. The variables of a static function are marked when they are made;
the mark is for readers of the finished board, and lowering does not look at it. -/
def flagged (ctx : Context) (flags : Flags) : Flags := { flags with privateMethod := ctx.isPrivate }

def newTemporary (ctx : Context) (stem : String) (kind : Kind) : Emit Variable :=
  introduce (fun owner n => .temporary stem owner n kind (flagged ctx {})) .var

def newConstant (kind : Kind) (literal : String) : Emit Constant :=
  introduce (fun owner n => .numbered owner n kind literal) .const

/-- Declare a variable of the board, stamped with the given scope's name or the board's own;
none if the board has one of that name. -/
def declare? (ctx : Context) (scope : Option String) (source : String) (kind : Kind)
    (flags : Flags) : Emit (Option Variable) := do
  match (← get).board.local? source with
  | some _ => return none
  | none =>
    let v ← introduce (fun owner n =>
      .declared source owner (scope.getD owner) n kind (flagged ctx flags)) .var
    return some v

def resolve? (ctx : Context) (source : String) : Emit (Option Variable) := do
  return ((← get).board.local? source).or (ctx.globals.find? fun v => v.source = source)

def report (kind : DiagnosticKind) (pos : Position) (message : String) : Emit Diagnostic :=
  modifyGet fun d =>
    let diagnostic := { kind, pos, board := d.board.name, message }
    (diagnostic, { d with diagnostics := d.diagnostics ++ [diagnostic] })

def abandon (kind : DiagnosticKind) (pos : Position) (message : String) : Attempt α := do
  throw (← report kind pos message)

/-- Run a step and give the address of the last slot it appended, if it appended any. -/
def lastAppended (step : Emit Unit) : Emit (Option Nat) := do
  let start ← size
  step
  let stop ← size
  return if start < stop then some (stop - 1) else none

/-- Send the slot to a new address if control would fall through it. -/
def closeAt (slot : Option Nat) (target : Nat) : Emit Unit :=
  match slot with
  | none => return
  | some position =>
    onBoard (·.modifySlot position fun s => if s.isOpen then s.retarget target else s)

def setNext (position : Nat) (next : List Int) : Emit Unit :=
  onBoard (·.modifySlot position (·.setNext 0 next))

end Draft
end SlotBoard
