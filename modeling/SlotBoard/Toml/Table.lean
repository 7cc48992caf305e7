import SlotBoard.Toml.Cell

/-!
The tables that the lines of a document add up to. Headers and dotted keys bring the tables on their
way into being. An array of tables grows by a row with each of its headers, and a path that leads
through it goes on in its last row. A table in braces is built twice: at its path, where its entries
are defined like those of any other table, and as the value that its key or its array gets.
-/
namespace SlotBoard.Toml

namespace Build

mutual

/-- The value of a term that stands at a key of a table; in an array, a table in braces is a row. -/
def evaluate (context : KeyPath) (key : String) (inArray : Bool) : Term → Build Cell
  | .text s => return .plain (.text s)
  | .integer n => return .plain (.integer n)
  | .float literal => return .plain (.float literal)
  | .bool b => return .plain (.bool b)
  | .moment literal => return .plain (.moment literal)
  | .array items => do
    noteArray context key true
    return .array (← evaluateItems context key items)
  | .inline entries => do
    let path := context ++ [key]
    markImplicit path
    enter path inArray
    let n ← newTable
    evaluateEntries path n entries
    return .table n
termination_by structural t => t

def evaluateItems (context : KeyPath) (key : String) : List Term → Build (List Cell)
  | [] => return []
  | t :: ts => do
    let c ← evaluate context key true t
    let cs ← evaluateItems context key ts
    return c :: cs
termination_by structural ts => ts

/-- Define the entries of a table in braces at its path, and gather them in the table `n`. -/
def evaluateEntries (path : KeyPath) (n : Nat) : List (List String × Term) → Build Unit
  | [] => return
  | entry :: entries => do
    evaluateEntry path n entry
    evaluateEntries path n entries
termination_by structural entries => entries

def evaluateEntry (path : KeyPath) (n : Nat) : List String × Term → Build Unit
  | (names, t) => do
    match names.getLast? with
    | none => failure
    | some key =>
      let context ← enterDotted path names.dropLast
      let cell ← evaluate context key false t
      define context key cell
      noteArray context key t.isArray
      graft n key cell names.dropLast
termination_by structural entry => entry

end

/-- Take in a line, given the table its keys belong to; give the table that the next ones do. -/
def line (here : KeyPath) : Line → Build KeyPath
  | .header path => do
    enter path false
    noteArray path "" false
    return path
  | .row path => do
    enter path true
    noteArray path "" false
    return path
  | .entry path t => do
    match path.getLast? with
    | none => failure
    | some key =>
      let context ← enterDotted here path.dropLast
      let cell ← evaluate context key false t
      define context key cell
      noteArray context key t.isArray
      return here

def lines (here : KeyPath) : List Line → Build Unit
  | [] => return
  | l :: ls => do
    let here ← line here l
    lines here ls

end Build

def decode? (bs : Bytes) : Option Entries := do
  let ls ← parse? bs
  let (_, b) ← (Build.lines [] ls).run {}
  return b.root

end SlotBoard.Toml
