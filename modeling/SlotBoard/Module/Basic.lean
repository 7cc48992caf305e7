import SlotBoard.Board.Basic

/-!
A module holds module-scope variables and boards. All its values share one counter, which only
grows. Names are declared once in each scope: the module's and each board's.
-/
namespace SlotBoard

structure Module where
  name : String
  globals : List Variable := []
  boards : List Board := []
  counter : Nat := 0
deriving DecidableEq, Inhabited

/-- A second declaration of a name in one scope. -/
inductive Redeclaration where
  | board (name : String)
  | value (name : String)
deriving DecidableEq

def Redeclaration.message : Redeclaration → String
  | board name => "redeclared: function " ++ name
  | value name => "redeclared: " ++ name

namespace Module

def board? (m : Module) (name : String) : Option Board := m.boards.find? fun b => b.name = name

def global? (m : Module) (source : String) : Option Variable :=
  m.globals.find? fun v => v.source = source

def signatures (m : Module) : List (String × Kind) := m.boards.map fun b => (b.name, b.kind)

def modifyBoard (m : Module) (name : String) (f : Board → Board) : Module :=
  { m with boards := m.boards.map fun b => if b.name = name then f b else b }

def draw (m : Module) : Nat × Module := (m.counter, { m with counter := m.counter + 1 })

def newBoard (m : Module) (name : String) (kind : Kind) : Except Redeclaration Module :=
  match m.board? name with
  | some _ => .error (.board name)
  | none => .ok { m with boards := m.boards ++ [{ name, kind }] }

def declareGlobal (m : Module) (source : String) (kind : Kind) (flags : Flags) :
    Except Redeclaration (Variable × Module) :=
  match m.global? source with
  | some _ => .error (.value source)
  | none =>
    let v := Variable.declared source "" m.name m.counter kind flags
    .ok (v, { m with globals := m.globals ++ [v], counter := m.counter + 1 })

def declareIn (m : Module) (board : Board) (scope source : String) (kind : Kind) (flags : Flags) :
    Except Redeclaration (Variable × Module) :=
  match board.local? source with
  | some _ => .error (.value source)
  | none =>
    let v := Variable.declared source board.name scope m.counter kind flags
    .ok (v, { m.modifyBoard board.name (·.pushValue (.var v)) with counter := m.counter + 1 })

def declareLocal (m : Module) (board : Board) (source : String) (kind : Kind) (flags : Flags) :
    Except Redeclaration (Variable × Module) :=
  m.declareIn board board.name source kind flags

/-- Declare a parameter. Its name is stamped with the module's name, not the board's. -/
def declareParameter (m : Module) (board : Board) (source : String) (kind : Kind) (flags : Flags) :
    Except Redeclaration (Variable × Module) :=
  m.declareIn board m.name source kind flags

def newTemporary (m : Module) (board : Board) (stem : String) (kind : Kind) : Variable × Module :=
  let v := Variable.temporary stem board.name m.counter kind {}
  (v, { m.modifyBoard board.name (·.pushValue (.var v)) with counter := m.counter + 1 })

def newConstant (m : Module) (board : Board) (kind : Kind) (literal : String) : Constant × Module :=
  let c := Constant.numbered board.name m.counter kind literal
  (c, { m.modifyBoard board.name (·.pushValue (.const c)) with counter := m.counter + 1 })

/-- What a source name refers to in a board: a variable of the board, else one of the module. -/
def resolve? (m : Module) (board : Board) (source : String) : Option Variable :=
  (board.local? source).or (m.global? source)

end Module
end SlotBoard
