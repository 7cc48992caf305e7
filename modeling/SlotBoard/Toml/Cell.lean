import SlotBoard.Toml.Syntax

/-!
Tables while a document is read. A table is known by its number, since the table of an entry inside
braces may be reached in two ways: from the root of the document and from the table in braces that
holds it. When the document ends, the numbered tables become a value.

Two notes are kept beside the tables, by path. A path is implicit while the table there may be
defined once more. It is marked as an array when the value defined there last is one.
-/
namespace SlotBoard.Toml

/-- A value of a document. -/
inductive Value where
  | text (s : String)
  | integer (n : Int)
  | float (literal : String)
  | bool (b : Bool)
  | moment (literal : String)
  | array (items : List Value)
  | table (entries : List (String × Value))
  | tables (rows : List (List (String × Value)))
deriving Inhabited

abbrev Entries := List (String × Value)

/-- A value under construction. -/
inductive Cell where
  | plain (v : Value)
  | array (items : List Cell)
  | table (n : Nat)
  | tables (rows : List Nat)
deriving Inhabited

abbrev Cells := List (String × Cell)

namespace Cells

def replace (key : String) (cell : Cell) (cells : Cells) : Cells :=
  cells.map fun (k, c) => if k = key then (k, cell) else (k, c)

def set (key : String) (cell : Cell) (cells : Cells) : Cells :=
  if (cells.lookup key).isSome then replace key cell cells else cells ++ [(key, cell)]

end Cells

abbrev KeyPath := List String

/-- The tables of a document by number, the first of which is the root, and the notes on paths. -/
structure Builder where
  tables : Array Cells := #[[]]
  implicits : List KeyPath := []
  arrays : List KeyPath := []

abbrev Build := StateT Builder Option

namespace Build

def cellsOf (n : Nat) : Build Cells := do return (← get).tables[n]?.getD []

def modifyCells (n : Nat) (f : Cells → Cells) : Build Unit :=
  modify fun b => { b with tables := b.tables.modify n f }

def newTable : Build Nat :=
  modifyGet fun b => (b.tables.size, { b with tables := b.tables.push [] })

def markImplicit (path : KeyPath) : Build Unit :=
  modify fun b => { b with implicits := path :: b.implicits.filter (· ≠ path) }

def unmarkImplicit (path : KeyPath) : Build Unit :=
  modify fun b => { b with implicits := b.implicits.filter (· ≠ path) }

/-- Note whether the value at a key is an array. The empty key leaves the note with the table it
stands in, and at the root with itself. -/
def noteArray (context : KeyPath) (key : String) (isArray : Bool) : Build Unit :=
  let path := if key = "" ∧ context ≠ [] then context else context ++ [key]
  modify fun b =>
    let others := b.arrays.filter (· ≠ path)
    { b with arrays := if isArray then path :: others else others }

def onward : Cell → Build Nat
  | .table n => return n
  | .tables rows =>
    match rows.getLast? with
    | some n => return n
    | none => failure
  | _ => failure

def walk (n : Nat) : KeyPath → Build Nat
  | [] => return n
  | name :: names => do
    match (← cellsOf n).lookup name with
    | some cell => walk (← onward cell) names
    | none => failure

/-- The table that a path leads to. Tables that are missing on the way are made, and are
implicit. -/
def openWay (n : Nat) (context : KeyPath) : KeyPath → Build Nat
  | [] => return n
  | name :: names => do
    match (← cellsOf n).lookup name with
    | some cell => openWay (← onward cell) (context ++ [name]) names
    | none =>
      let fresh ← newTable
      modifyCells n fun cells => cells ++ [(name, .table fresh)]
      markImplicit (context ++ [name])
      openWay fresh (context ++ [name]) names

/-- Define a key in the table at a path. A key is defined once, unless its path is implicit: then
what stands there stays, except that an array gives way. -/
def define (context : KeyPath) (key : String) (cell : Cell) : Build Unit := do
  let n ← walk 0 context
  let path := context ++ [key]
  match (← cellsOf n).lookup key with
  | none => modifyCells n fun cells => cells ++ [(key, cell)]
  | some _ =>
    let b ← get
    if b.implicits.contains path then
      unmarkImplicit path
      if b.arrays.contains path then modifyCells n (·.replace key cell)
    else failure

def addRow (n : Nat) (key : String) : Build Unit := do
  match (← cellsOf n).lookup key with
  | none =>
    let fresh ← newTable
    modifyCells n fun cells => cells ++ [(key, .tables [fresh])]
  | some (.tables rows) =>
    let fresh ← newTable
    modifyCells n (·.replace key (.tables (rows ++ [fresh])))
  | some _ => failure

def enter (path : KeyPath) (row : Bool) : Build Unit := do
  match path.getLast? with
  | none => failure
  | some key =>
    let n ← openWay 0 [] path.dropLast
    if row then addRow n key else define path.dropLast key (.table (← newTable))

def enterDotted (context : KeyPath) : List String → Build KeyPath
  | [] => return context
  | name :: names => do
    markImplicit (context ++ [name])
    enter (context ++ [name]) false
    enterDotted (context ++ [name]) names

/-- Set a cell at the end of a path that starts in a given table; tables are made as needed, and
whatever stands at the end gives way. -/
def graft (n : Nat) (key : String) (cell : Cell) : KeyPath → Build Unit
  | [] => modifyCells n (·.set key cell)
  | name :: names => do
    match (← cellsOf n).lookup name with
    | some (.table inner) => graft inner key cell names
    | some _ => failure
    | none =>
      let fresh ← newTable
      modifyCells n fun cells => cells ++ [(name, .table fresh)]
      graft fresh key cell names

end Build

namespace Builder

mutual

/-- The value of a cell. No table leads back to itself, so as many levels as there are tables are
enough. -/
def valueOf (b : Builder) : Nat → Cell → Value
  | _, .plain v => v
  | levels, .array items => .array (valuesOf b levels items)
  | 0, .table _ => .table []
  | levels + 1, .table n => .table (entriesOf b levels n)
  | 0, .tables _ => .tables []
  | levels + 1, .tables rows => .tables (rows.map (entriesOf b levels))
termination_by levels c => (levels, 1, sizeOf c)

def valuesOf (b : Builder) (levels : Nat) : List Cell → List Value
  | [] => []
  | c :: cs => valueOf b levels c :: valuesOf b levels cs
termination_by cs => (levels, 1, sizeOf cs)

def entriesOf (b : Builder) (levels n : Nat) : Entries :=
  (b.tables[n]?.getD []).map fun (key, cell) => (key, valueOf b levels cell)
termination_by (levels, 2, 0)
decreasing_by
  exact Prod.Lex.right _ (Prod.Lex.left _ _ (by omega))

end

def root (b : Builder) : Entries := b.entriesOf b.tables.size 0

end Builder
end SlotBoard.Toml
