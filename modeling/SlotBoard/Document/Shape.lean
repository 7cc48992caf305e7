import SlotBoard.Document.Node
import SlotBoard.Lowering.Diagnostic

/-!
Node trees as source units. Children that a construct cannot do without must be there; nodes of
other kinds than those known at their place are kept as unknown. An expression may stand where a
statement is expected.
-/
namespace SlotBoard

/-- What is wrong with a node. -/
inductive ShapeFault where
  | wrongRoot
  | missingName
  | strangeParameter (function : String)
  | missingBlock (function : String)
  | nullStatement
  | missingBranch
  | missingLoopBody
  | missingSubject
  | missingCaseValue
  | missingExpression
  | missingOperand
  | missingCallee
  | nullArgument
deriving DecidableEq

def ShapeFault.message : ShapeFault → String
  | wrongRoot => "document root must be FileAST"
  | missingName => "missing name"
  | strangeParameter function => "parameter of " ++ function ++ " is not a Decl"
  | missingBlock function => function ++ " has no compound body"
  | nullStatement => "null statement"
  | missingBranch => "missing condition or then branch"
  | missingLoopBody => "missing loop body"
  | missingSubject => "missing subject or body"
  | missingCaseValue => "missing case value"
  | missingExpression => "missing expression"
  | missingOperand => "missing operand"
  | missingCallee => "missing callee name"
  | nullArgument => "null argument"

/-- The first fault of a tree, with the kind and position of the node it is found at. -/
inductive ShapeError where
  | nullDeclaration
  | node (pos : Position) (kind : String) (fault : ShapeFault)
deriving DecidableEq

def ShapeError.message : ShapeError → String
  | nullDeclaration => "null external declaration"
  | node pos kind fault => pos.located (kind ++ ": " ++ fault.message)

def NodeHead.fail (head : NodeHead) (fault : ShapeFault) : Except ShapeError α :=
  .error (.node head.pos head.kind fault)

namespace Node

mutual

def toExpr : Node → Except ShapeError Expr
  | ⟨head, _, _, _, _, _, _, _, expr, left, right, lvalue, rvalue, _, _, _, _, args, _⟩ =>
    match head.kind with
    | "Assignment" =>
      match lvalue, rvalue with
      | some l, some r => do
        let target ← l.toExpr
        let value ← r.toExpr
        return .assign head.pos (if head.op = "" then "=" else head.op) target value
      | _, _ => head.fail .missingOperand
    | "UnaryOp" =>
      match expr with
      | some x => do return .unary head.pos head.op (← x.toExpr)
      | none => head.fail .missingOperand
    | "BinaryOp" =>
      match left, right with
      | some l, some r => do
        let left ← l.toExpr
        let right ← r.toExpr
        return .binary head.pos head.op left right
      | _, _ => head.fail .missingOperand
    | "ID" => if head.name = "" then head.fail .missingName else .ok (.ident head.pos head.name)
    | "Constant" => .ok (.literal head.pos (" ".intercalate head.type) head.value)
    | "FuncCall" =>
      if head.name = "" then head.fail .missingCallee
      else do return .call head.pos head.name (← toArguments head args)
    | kind => .ok (.unknown head.pos kind)
termination_by structural n => n

def toArguments (head : NodeHead) : List (Option Node) → Except ShapeError (List Expr)
  | [] => .ok []
  | none :: _ => head.fail .nullArgument
  | some a :: as => do
    let x ← a.toExpr
    let xs ← toArguments head as
    return x :: xs
termination_by structural args => args

end

def toExpr? : Option Node → Except ShapeError (Option Expr)
  | none => .ok none
  | some n => n.toExpr.map some

def toDecl (n : Node) : Except ShapeError Decl :=
  if n.name = "" then n.fail .missingName
  else do
    let init ← toExpr? n.init
    return { pos := n.pos, name := n.name, type := n.type, quals := n.quals, storage := n.storage,
             init }

def isExpr (kind : String) : Bool :=
  ["Assignment", "UnaryOp", "BinaryOp", "ID", "Constant", "FuncCall"].contains kind

mutual

def toStmt : Node → Except ShapeError Stmt
  | ⟨head, init, body, cond, ifTrue, ifFalse, next, stmt, expr, left, right, lvalue, rvalue, ext,
      params, items, stmts, args, spare⟩ =>
    match head.kind with
    | "Compound" => do return .block head.pos (← toStmts head items)
    | "Decl" => do return .decl (← toDecl { toNodeHead := head, init })
    | "Return" => do return .ret head.pos (← toExpr? expr)
    | "If" =>
      match cond, ifTrue with
      | some c, some t => do
        let cond ← c.toExpr
        let thenBranch ← t.toStmt
        let elseBranch ← toStmt? ifFalse
        return .ifThen head.pos cond thenBranch elseBranch
      | _, _ => head.fail .missingBranch
    | "For" =>
      match stmt with
      | some s => do
        let init ← toStmt? init
        let cond ← toExpr? cond
        let next ← toStmt? next
        let body ← s.toStmt
        return .forLoop head.pos init cond next body
      | none => head.fail .missingLoopBody
    | "Switch" =>
      match cond, stmt with
      | some c, some s => do
        let subject ← c.toExpr
        let body ← s.toStmt
        return .switch head.pos subject body
      | _, _ => head.fail .missingSubject
    | "Case" =>
      match expr with
      | some x => do
        let label ← x.toExpr
        let stmts ← toStmts head stmts
        return .caseOf head.pos label stmts
      | none => head.fail .missingCaseValue
    | "Default" => do return .otherwise head.pos (← toStmts head stmts)
    | "Break" => .ok (.leave head.pos)
    | "EmptyStatement" => .ok (.empty head.pos)
    | "ExprStmt" =>
      match expr with
      | some x => do return .expr head.pos (← x.toExpr)
      | none => head.fail .missingExpression
    | kind =>
      if isExpr kind then do
        let x ← toExpr ⟨head, init, body, cond, ifTrue, ifFalse, next, stmt, expr, left, right,
          lvalue, rvalue, ext, params, items, stmts, args, spare⟩
        return .expr head.pos x
      else .ok (.unknown head.pos kind)
termination_by structural n => n

def toStmts (head : NodeHead) : List (Option Node) → Except ShapeError (List Stmt)
  | [] => .ok []
  | none :: _ => head.fail .nullStatement
  | some n :: ns => do
    let s ← n.toStmt
    let ss ← toStmts head ns
    return s :: ss
termination_by structural ns => ns

def toStmt? : Option Node → Except ShapeError (Option Stmt)
  | none => .ok none
  | some n => do return some (← n.toStmt)
termination_by structural n => n

end

def toParameters (head : NodeHead) : List (Option Node) → Except ShapeError (List Decl)
  | [] => .ok []
  | none :: _ => head.fail (.strangeParameter head.name)
  | some p :: ps => do
    if p.kind ≠ "Decl" then head.fail (.strangeParameter head.name)
    let d ← p.toDecl
    let ds ← toParameters head ps
    return d :: ds

def toFuncDef (n : Node) : Except ShapeError FuncDef :=
  if n.name = "" then n.fail .missingName
  else do
    let params ← toParameters n.toNodeHead n.params
    match n.body with
    | none => n.fail (.missingBlock n.name)
    | some body =>
      if body.kind ≠ "Compound" then n.fail (.missingBlock n.name)
      let stmts ← toStmts body.toNodeHead body.items
      return { pos := n.pos, name := n.name, returnType := n.type, storage := n.storage, params,
               bodyPos := body.pos, body := stmts }

def toTopLevel : Option Node → Except ShapeError TopLevel
  | none => .error .nullDeclaration
  | some n =>
    match n.kind with
    | "FuncDef" => do return .func (← n.toFuncDef)
    | "Decl" => do return .decl (← n.toDecl)
    | kind => .ok (.unknown n.pos kind)

def toUnit (name : String) (n : Node) : Except ShapeError SourceUnit :=
  if n.kind ≠ "FileAST" then n.fail .wrongRoot
  else do return { name, decls := ← n.ext.mapM toTopLevel }

end Node
end SlotBoard
