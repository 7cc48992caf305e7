import SlotBoard.Board.Violation
import SlotBoard.Snapshot.Codec

/-!
Scripts build and inspect a module step by step. A step may name a board, which then has to exist.
A step that cannot be applied leaves the module as it is.
-/
namespace SlotBoard

/-- An item described by the internal names of its operands. -/
inductive ItemPlan where
  | assign (target source : String)
  | binary (opcode : Opcode) (left right result : String)
  | call (callee : String) (args : List String) (result : String)
  | ret (value : Option String)
  | jumpIfTrue (cond : String)
  | jump (target : Int)
  | select (key : String) (cases : List String) (targets : List Int)
  | entry
  | exit

inductive Action where
  | uniqueId
  | newBoard (name : String) (kind : Kind)
  | hasBoard (name : String)
  | declare (name : String) (kind : Kind) (flags : Flags)
  | declareParameter (name : String) (kind : Kind) (flags : Flags)
  | newTemporary (stem : String) (kind : Kind)
  | newConstant (kind : Kind) (literal : String)
  | leaveUnset
  | resolve (name : String) (detached : Bool)
  | newSlot
  | lastSlot
  | emit (plan : ItemPlan)
  | append (slot : Int) (plan : ItemPlan)
  | setNext (slot position : Int) (next : List Int)
  | retarget (slot target : Int)
  | relabel (slot : Int) (label : Int64)
  | inspect (slot : Int)
  | boardText
  | text
  | validate
  | snapshotBytes
  | fingerprint
  | snapshot

structure Step where
  board : Option String
  action : Action

/-- What a step answers. -/
inductive Answer where
  | text (s : String)
  | optional (s : Option String)
  | truth (b : Bool)
  | slotState (last : Option String) (isBranch isOpen : Bool)
  | bytes (bs : Bytes)
  | snapshot (s : Snapshot)

inductive StepError where
  | redeclared (r : Redeclaration)
  | inapplicable
deriving DecidableEq

namespace Module

/-- The value of an internal name: one of the board, else a variable of the module. -/
def operand? (m : Module) (board : Board) (name : String) : Option Value :=
  (board.values.find? fun v => v ≠ .unset && v.name = name).or
    ((m.globals.find? fun v => v.name = name).map .var)

def result? (m : Module) (board : Board) (name : String) : Option Variable :=
  (m.operand? board name).bind Value.toVariable?

def item? (m : Module) (board : Board) : ItemPlan → Option Item
  | .assign target source => do
    return ⟨.assign (← m.operand? board target) (← m.operand? board source), []⟩
  | .binary opcode left right result => do
    let l ← m.operand? board left
    let r ← m.operand? board right
    return ⟨.binary opcode l r (← m.result? board result), []⟩
  | .call callee args result => do
    return ⟨.call callee (← args.mapM (m.operand? board)) (← m.result? board result), []⟩
  | .ret none => some (.ret none)
  | .ret (some value) => do return .ret (some (← m.operand? board value))
  | .jumpIfTrue cond => do return .jumpIfTrue (← m.operand? board cond)
  | .jump target => some (.jump target)
  | .select key cases targets => do
    return ⟨.select (← m.operand? board key) (← cases.mapM (m.operand? board)), targets⟩
  | .entry => some ⟨.entry, []⟩
  | .exit => some ⟨.exit, []⟩

def position? (size : Nat) (i : Int) : Option Nat :=
  match i with
  | .ofNat n => if n < size then some n else none
  | .negSucc _ => none

def orInapplicable : Option α → Except StepError α
  | some a => .ok a
  | none => .error .inapplicable

def onSlot (m : Module) (board : Board) (slot : Int) (f : Slot → Option Slot) :
    Except StepError (Answer × Module) := do
  let position ← orInapplicable (position? board.slots.length slot)
  let changed ← orInapplicable ((board.slots[position]?).bind f)
  return (.text changed.text, m.modifyBoard board.name (·.modifySlot position fun _ => changed))

def onEnd (m : Module) (board : Board) (f : Board → Board) : Answer × Module :=
  (.optional ((f board).slots.getLast?.map Slot.text), m.modifyBoard board.name f)

def applyTo (m : Module) (board : Board) : Action → Except StepError (Answer × Module)
  | .uniqueId => .ok (.text (board.name ++ "_" ++ toString m.draw.1), m.draw.2)
  | .declare name kind flags => do
    let (v, m) ← (m.declareLocal board name kind flags).mapError .redeclared
    return (.text v.text, m)
  | .declareParameter name kind flags => do
    let (v, m) ← (m.declareParameter board name kind flags).mapError .redeclared
    return (.text v.text, m)
  | .newTemporary stem kind =>
    let (v, m) := m.newTemporary board stem kind
    .ok (.text v.text, m)
  | .newConstant kind literal =>
    let (c, m) := m.newConstant board kind literal
    .ok (.text (Value.const c).text, m)
  | .leaveUnset => .ok (.text Value.unset.text, m.modifyBoard board.name (·.pushValue .unset))
  | .resolve name detached =>
    let found := if detached then board.local? name else m.resolve? board name
    .ok (.optional (found.map Variable.text), m)
  | .newSlot => .ok (m.onEnd board Board.newSlot)
  | .lastSlot => .ok (m.onEnd board id)
  | .emit plan => do
    let item ← orInapplicable (m.item? board plan)
    return m.onEnd board (·.emit item)
  | .append slot plan => m.onSlot board slot fun s => (m.item? board plan).map s.push
  | .setNext slot position next =>
    m.onSlot board slot fun s =>
      (position? s.items.length position).map fun position => s.setNext position next
  | .retarget slot target => m.onSlot board slot fun s => some (s.retarget target)
  | .relabel slot label => m.onSlot board slot fun s => some { s with address := .label label }
  | .inspect slot => do
    let position ← orInapplicable (position? board.slots.length slot)
    let s ← orInapplicable board.slots[position]?
    return (.slotState (s.last?.map Item.text) s.isBranch s.isOpen, m)
  | .boardText => .ok (.text board.text, m)
  | _ => .error .inapplicable

def applyAlone (m : Module) : Action → Except StepError (Answer × Module)
  | .uniqueId => .ok (.text (m.name ++ "_" ++ toString m.draw.1), m.draw.2)
  | .declare name kind flags => do
    let (v, m) ← (m.declareGlobal name kind flags).mapError .redeclared
    return (.text v.text, m)
  | _ => .error .inapplicable

def apply (m : Module) (step : Step) : Except StepError (Answer × Module) := do
  let board ← match step.board with
    | none => .ok none
    | some name => (orInapplicable (m.board? name)).map some
  match step.action, board with
  | .newBoard name kind, _ =>
    let m ← (m.newBoard name kind).mapError .redeclared
    return (.optional ((m.board? name).map Board.text), m)
  | .hasBoard name, _ => return (.truth (m.board? name).isSome, m)
  | .text, _ => return (.text m.text, m)
  | .validate, _ => return (.optional m.validityReport?, m)
  | .snapshotBytes, _ => return (.bytes m.snapshotBytes, m)
  | .fingerprint, _ => return (.text m.fingerprint, m)
  | .snapshot, _ => return (.snapshot (Snapshot.ofModule m), m)
  | action, some board => m.applyTo board action
  | action, none => m.applyAlone action

/-- Apply steps in order; a step that fails is answered with its error and changes nothing. -/
def applyAll (m : Module) : List Step → List (Except StepError Answer) × Module
  | [] => ([], m)
  | step :: steps =>
    match m.apply step with
    | .ok (answer, m) =>
      let (answers, m) := m.applyAll steps
      (.ok answer :: answers, m)
    | .error e =>
      let (answers, m) := m.applyAll steps
      (.error e :: answers, m)

end Module
end SlotBoard
