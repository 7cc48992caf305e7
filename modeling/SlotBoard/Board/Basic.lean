import SlotBoard.Board.Slot

/-!
A board is the code of one function: the values it introduces, in the order of their introduction,
and its slots, addressed by their position.
-/
namespace SlotBoard

structure Board where
  name : String
  kind : Kind
  values : List Value := []
  slots : List Slot := []
deriving DecidableEq, Inhabited

namespace Board

def pushValue (board : Board) (value : Value) : Board :=
  { board with values := board.values ++ [value] }

def newSlot (board : Board) : Board :=
  { board with slots := board.slots ++ [{ address := .index board.slots.length }] }

def emit (board : Board) (item : Item) : Board :=
  { board with slots := board.slots ++ [Slot.push { address := .index board.slots.length } item] }

def modifySlot (board : Board) (position : Nat) (f : Slot → Slot) : Board :=
  { board with slots := board.slots.modify position f }

def declared (board : Board) : List Variable :=
  (board.values.filterMap Value.toVariable?).filter fun v => !v.temp

def local? (board : Board) (source : String) : Option Variable :=
  board.declared.find? fun v => v.source = source

end Board
end SlotBoard
