import SlotBoard.Source.Syntax
import SlotBoard.Text.Fold

/-!
The node trees that documents are made of. Every node has the same fields, whatever its kind, and
leaves those empty that its kind does not use. Fields come in five sorts: texts, integers, lists of
words, children and lists of children.
-/
namespace SlotBoard

/-- The fields of a node that hold no further nodes. -/
structure NodeHead where
  kind : String := ""
  line : Int := 0
  column : Int := 0
  name : String := ""
  type : List String := []
  quals : List String := []
  storage : List String := []
  op : String := ""
  value : String := ""
deriving DecidableEq, Inhabited

def NodeHead.pos (head : NodeHead) : Position := { line := head.line, column := head.column }

inductive Node.ListField where
  | ext | params | items | stmts | args
deriving DecidableEq

/-- A node. A child may be missing, and so may an element of a list. -/
structure Node extends NodeHead where
  init : Option Node := none
  body : Option Node := none
  cond : Option Node := none
  ifTrue : Option Node := none
  ifFalse : Option Node := none
  next : Option Node := none
  stmt : Option Node := none
  expr : Option Node := none
  left : Option Node := none
  right : Option Node := none
  lvalue : Option Node := none
  rvalue : Option Node := none
  ext : List (Option Node) := []
  params : List (Option Node) := []
  items : List (Option Node) := []
  stmts : List (Option Node) := []
  args : List (Option Node) := []
  /-- What stands behind the end of a list: elements of a longer one that was read into it before. No
  node is made from them, but a list that is read later goes on from them. -/
  spare : Node.ListField → List (Option Node) := fun _ => []

instance : Inhabited Node := ⟨{}⟩

namespace Node

inductive TextField where
  | kind | name | op | value
deriving DecidableEq

inductive IntField where
  | line | column
deriving DecidableEq

inductive WordsField where
  | type | quals | storage
deriving DecidableEq

inductive ChildField where
  | init | body | cond | ifTrue | ifFalse | next | stmt | expr | left | right | lvalue | rvalue
deriving DecidableEq

inductive Field where
  | text (f : TextField)
  | int (f : IntField)
  | words (f : WordsField)
  | child (f : ChildField)
  | list (f : ListField)
deriving DecidableEq

namespace Field

def label : Field → String
  | text .kind => "kind"
  | text .name => "name"
  | text .op => "op"
  | text .value => "value"
  | int .line => "line"
  | int .column => "column"
  | words .type => "type"
  | words .quals => "quals"
  | words .storage => "storage"
  | child .init => "init"
  | child .body => "body"
  | child .cond => "cond"
  | child .ifTrue => "iftrue"
  | child .ifFalse => "iffalse"
  | child .next => "next"
  | child .stmt => "stmt"
  | child .expr => "expr"
  | child .left => "left"
  | child .right => "right"
  | child .lvalue => "lvalue"
  | child .rvalue => "rvalue"
  | list .ext => "ext"
  | list .params => "params"
  | list .items => "items"
  | list .stmts => "stmts"
  | list .args => "args"

def all : List Field := [
  text .kind, int .line, int .column, text .name, words .type, words .quals, words .storage,
  text .op, text .value, child .init, child .body, child .cond, child .ifTrue, child .ifFalse,
  child .next, child .stmt, child .expr, child .left, child .right, child .lvalue, child .rvalue,
  list .ext, list .params, list .items, list .stmts, list .args]

def find? (same : String → String → Bool) (key : String) : Option Field :=
  all.find? fun field => same key field.label

end Field

def setText (n : Node) (s : String) : TextField → Node
  | .kind => { n with kind := s }
  | .name => { n with name := s }
  | .op => { n with op := s }
  | .value => { n with value := s }

def getText (n : Node) : TextField → String
  | .kind => n.kind
  | .name => n.name
  | .op => n.op
  | .value => n.value

def setInt (n : Node) (i : Int) : IntField → Node
  | .line => { n with line := i }
  | .column => { n with column := i }

def getInt (n : Node) : IntField → Int
  | .line => n.line
  | .column => n.column

def setWords (n : Node) (ws : List String) : WordsField → Node
  | .type => { n with type := ws }
  | .quals => { n with quals := ws }
  | .storage => { n with storage := ws }

def getWords (n : Node) : WordsField → List String
  | .type => n.type
  | .quals => n.quals
  | .storage => n.storage

def setChild (n : Node) (child : Option Node) : ChildField → Node
  | .init => { n with init := child }
  | .body => { n with body := child }
  | .cond => { n with cond := child }
  | .ifTrue => { n with ifTrue := child }
  | .ifFalse => { n with ifFalse := child }
  | .next => { n with next := child }
  | .stmt => { n with stmt := child }
  | .expr => { n with expr := child }
  | .left => { n with left := child }
  | .right => { n with right := child }
  | .lvalue => { n with lvalue := child }
  | .rvalue => { n with rvalue := child }

def getChild (n : Node) : ChildField → Option Node
  | .init => n.init
  | .body => n.body
  | .cond => n.cond
  | .ifTrue => n.ifTrue
  | .ifFalse => n.ifFalse
  | .next => n.next
  | .stmt => n.stmt
  | .expr => n.expr
  | .left => n.left
  | .right => n.right
  | .lvalue => n.lvalue
  | .rvalue => n.rvalue

def setList (n : Node) (nodes : List (Option Node)) : ListField → Node
  | .ext => { n with ext := nodes }
  | .params => { n with params := nodes }
  | .items => { n with items := nodes }
  | .stmts => { n with stmts := nodes }
  | .args => { n with args := nodes }

def getList (n : Node) : ListField → List (Option Node)
  | .ext => n.ext
  | .params => n.params
  | .items => n.items
  | .stmts => n.stmts
  | .args => n.args

def setSpare (n : Node) (nodes : List (Option Node)) (f : ListField) : Node :=
  { n with spare := fun g => if g = f then nodes else n.spare g }

end Node
end SlotBoard
