import SlotBoard.Board.Value
import SlotBoard.Opcode

/-!
A slot is an addressed list of items, and every item names the addresses control may go to next.
An item that does not branch continues at the following address; a branching item owns its
successor list.
-/
namespace SlotBoard

inductive Operation where
  | assign (target source : Value)
  | binary (opcode : Opcode) (left right : Value) (result : Variable)
  | call (callee : String) (args : List Value) (result : Variable)
  | ret (value : Option Value)
  | jumpIfTrue (cond : Value)
  | jump
  | select (key : Value) (cases : List Value)
  | entry
  | exit
deriving DecidableEq, Inhabited

def Operation.branches : Operation → Bool
  | ret _ | jumpIfTrue _ | jump | select _ _ => true
  | _ => false

structure Item where
  operation : Operation
  next : List Int := []
deriving DecidableEq, Inhabited

namespace Item

def branches (item : Item) : Bool := item.operation.branches

/-- A return, which leads back to address 0. -/
def ret (value : Option Value) : Item := ⟨.ret value, [0]⟩

def jump (target : Int) : Item := ⟨.jump, [target]⟩

def jumpIfTrue (cond : Value) : Item := ⟨.jumpIfTrue cond, []⟩

end Item

/-- The address of a slot: its position in the board, or a 64-bit number it was relabelled with. -/
inductive Address where
  | index (n : Nat)
  | label (w : Int64)
deriving DecidableEq, Inhabited

namespace Address

def toInt : Address → Int
  | index n => n
  | label w => w.toInt

/-- The address that follows. The number of a relabelled slot wraps around at 64 bits. -/
def following : Address → Int
  | index n => n + 1
  | label w => (w + 1).toInt

end Address

structure Slot where
  address : Address
  items : List Item := []
deriving DecidableEq, Inhabited

namespace Slot

/-- Add an item at the end; one that does not branch continues at the following address. -/
def push (slot : Slot) (item : Item) : Slot :=
  let item := if item.branches then item else { item with next := [slot.address.following] }
  { slot with items := slot.items ++ [item] }

def last? (slot : Slot) : Option Item := slot.items.getLast?

def isBranch (slot : Slot) : Bool := slot.last?.any Item.branches

/-- Whether control leaves the slot by going on to the following address: the last item does not
branch, or it is a jump to just that address. -/
def isOpen (slot : Slot) : Bool :=
  match slot.last? with
  | none => false
  | some item =>
    match item.operation with
    | .jump => item.next = [slot.address.following]
    | _ => !item.branches

def retarget (slot : Slot) (target : Int) : Slot :=
  { slot with items := slot.items.map fun item => { item with next := [target] } }

def setNext (slot : Slot) (position : Nat) (next : List Int) : Slot :=
  { slot with items := slot.items.modify position fun item => { item with next } }

end Slot
end SlotBoard
