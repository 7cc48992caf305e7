import SlotBoard.Board.Printer

/-!
The structural rules of a finished board: an exit marker at address 0, an entry marker at address 1,
a final jump back to 0, no empty slot, as many successors as an item's form asks for, and successors
that are addresses of the board. `Module.violations` lists every breach in order.
-/
namespace SlotBoard

inductive Violation where
  | tooFewSlots (count : Nat)
  | exitMarkerMissing
  | entryMarkerMissing
  | finalJumpMissing (address : Int)
  | misplaced (position : Nat) (address : Int)
  | emptySlot (address : Int)
  | wrongArity (address : Int) (item : Item)
  | outOfRange (address target : Int)
deriving DecidableEq

def Operation.arity : Operation → Nat
  | jumpIfTrue _ => 2
  | select _ cases => cases.length
  | _ => 1

def Violation.message : Violation → String
  | tooFewSlots count => "has " ++ toString count ++ " slots, want at least 3"
  | exitMarkerMissing => "slot 0 is not a METHOD_EXIT marker"
  | entryMarkerMissing => "slot 1 is not a METHOD_ENTRY marker"
  | finalJumpMissing address => "final slot " ++ toString address ++ " does not jump to 0"
  | misplaced position address =>
    "slot at index " ++ toString position ++ " has address " ++ toString address
  | emptySlot address => "slot " ++ toString address ++ " is empty"
  | wrongArity address item =>
    "slot " ++ toString address ++ ": " ++ item.text ++ " has " ++ toString item.next.length ++
      " successors, want " ++ toString item.operation.arity
  | outOfRange address target =>
    "slot " ++ toString address ++ ": successor " ++ toString target ++ " out of range"

def Slot.isMarker (slot : Slot) (marker : Operation) : Bool :=
  match slot.items with
  | [item] => item.operation = marker
  | _ => false

def Slot.jumpsHome (slot : Slot) : Bool :=
  match slot.last? with
  | some item => item.operation = .jump && item.next = [0]
  | none => false

def Item.violations (size : Nat) (address : Int) (item : Item) : List Violation :=
  (if item.next.length = item.operation.arity then [] else [.wrongArity address item]) ++
    (item.next.filter fun n => n < 0 || (size : Int) ≤ n).map (.outOfRange address)

def Slot.violations (size position : Nat) (slot : Slot) : List Violation :=
  (if slot.address.toInt = position then [] else [.misplaced position slot.address.toInt]) ++
    if slot.items.isEmpty then [.emptySlot slot.address.toInt]
    else slot.items.flatMap (Item.violations size slot.address.toInt)

def Board.violations (board : Board) : List Violation :=
  match board.slots, board.slots.getLast? with
  | first :: second :: _ :: _, some last =>
    (if first.isMarker .exit then [] else [.exitMarkerMissing]) ++
      (if second.isMarker .entry then [] else [.entryMarkerMissing]) ++
      (if last.jumpsHome then [] else [.finalJumpMissing last.address.toInt]) ++
      (board.slots.zipIdx.flatMap fun (slot, position) =>
        slot.violations board.slots.length position)
  | slots, _ => [.tooFewSlots slots.length]

def Module.violations (m : Module) : List (Board × Violation) :=
  m.boards.flatMap fun board => board.violations.map fun v => (board, v)

def violationText (board : Board) (v : Violation) : String :=
  "board " ++ board.name ++ ": " ++ v.message

def Module.validityReport? (m : Module) : Option String :=
  match m.violations with
  | [] => none
  | vs => some ("\n".intercalate (vs.map fun (board, v) => violationText board v))

end SlotBoard
