/-!
The syntax of a C source unit, as a front end hands it over. Every node keeps its position.
A node outside this vocabulary is kept as `unknown`, so that a document can always be read and the
lowering decides what to do about it.
-/
namespace SlotBoard

/-- A line and a column, both 0 when they are not known. -/
structure Position where
  line : Int := 0
  column : Int := 0
deriving DecidableEq, Inhabited

inductive Expr where
  | assign (pos : Position) (operator : String) (target value : Expr)
  | unary (pos : Position) (operator : String) (operand : Expr)
  | binary (pos : Position) (operator : String) (left right : Expr)
  | ident (pos : Position) (name : String)
  | literal (pos : Position) (type value : String)
  | call (pos : Position) (callee : String) (args : List Expr)
  | unknown (pos : Position) (kind : String)
deriving Inhabited

def Expr.pos : Expr → Position
  | assign pos .. | unary pos .. | binary pos .. | ident pos _ | literal pos .. | call pos ..
  | unknown pos _ => pos

structure Decl where
  pos : Position
  name : String
  type : List String
  quals : List String
  storage : List String
  init : Option Expr
deriving Inhabited

inductive Stmt where
  | block (pos : Position) (items : List Stmt)
  | decl (d : Decl)
  | ret (pos : Position) (value : Option Expr)
  | ifThen (pos : Position) (cond : Expr) (thenBranch : Stmt) (elseBranch : Option Stmt)
  | forLoop (pos : Position) (init : Option Stmt) (cond : Option Expr) (next : Option Stmt)
      (body : Stmt)
  | switch (pos : Position) (subject : Expr) (body : Stmt)
  | caseOf (pos : Position) (label : Expr) (stmts : List Stmt)
  | otherwise (pos : Position) (stmts : List Stmt)
  | leave (pos : Position)
  | empty (pos : Position)
  | expr (pos : Position) (x : Expr)
  | unknown (pos : Position) (kind : String)
deriving Inhabited

/-- A function definition. Its body is a block, kept as the block's position and statements. -/
structure FuncDef where
  pos : Position
  name : String
  returnType : List String
  storage : List String
  params : List Decl
  bodyPos : Position
  body : List Stmt
deriving Inhabited

def FuncDef.isStatic (f : FuncDef) : Bool := f.storage.contains "static"

inductive TopLevel where
  | func (f : FuncDef)
  | decl (d : Decl)
  | unknown (pos : Position) (kind : String)
deriving Inhabited

structure SourceUnit where
  name : String
  decls : List TopLevel
deriving Inhabited

end SlotBoard
