import Mathlib.Logic.Function.Basic
import SlotBoard.Proofs.Layout

/-!
What a function means in the source. Operators, literals, truth and calls are left open: any
functions of the operands' values will do. Expressions without assignments change nothing, so their
value is a function of the store. Statements run in order; a loop runs its initialiser and then, as
long as the condition holds, its body and its update.

A function has a single scope: a declaration holds from where it stands, its own initialiser
included, to the end of the function, and a block opens no scope of its own. In a loop the update
comes after the body.
-/
namespace SlotBoard

variable {V : Type}

/-- What the operations of a program compute. -/
structure Interpretation (V : Type) where
  operate : Opcode → V → V → V
  literal : Kind → String → V
  holds : V → Bool
  call : String → List V → V

/-- Where a variable lives, by the name it was declared with. -/
inductive Place where
  | inFunction (name : String)
  | inModule (name : String)
deriving DecidableEq

abbrev Valuation (V : Type) := Place → V

/-- How code ends: it runs to its end, or it returns. -/
inductive Outcome (S V : Type) where
  | finished (s : S)
  | returned (value : Option V) (s : S)

/-- The kinds of the names at a point of a function. -/
structure Env where
  aliases : Kind.Aliases
  signatures : List (String × Kind)
  globals : List (String × Kind)
  locals : List (String × Kind)

namespace Env

def place (Γ : Env) (name : String) : Place :=
  if (Γ.locals.lookup name).isSome then .inFunction name else .inModule name

def kindOf (Γ : Env) (name : String) : Kind :=
  ((Γ.locals.lookup name).or (Γ.globals.lookup name)).getD .unknown

def declare (Γ : Env) (d : Decl) : Env :=
  { Γ with locals := Γ.locals ++ [(d.name, .ofWords Γ.aliases d.type)] }

def opcode (operator : String) (left right : Kind) : Opcode :=
  .ofOperator operator (.shared left right)

end Env

def Expr.kind (Γ : Env) : Expr → Kind
  | .ident _ name => Γ.kindOf name
  | .literal _ type _ => .ofLiteral type
  | .binary _ operator left right =>
    if (Env.opcode operator (left.kind Γ) (right.kind Γ)).isComparison then .boolean
    else .shared (left.kind Γ) (right.kind Γ)
  | .call _ callee _ => (Γ.signatures.lookup callee).getD .unknown
  | .assign .. | .unary .. | .unknown .. => .unknown

mutual

def Expr.eval (I : Interpretation V) (Γ : Env) (s : Valuation V) : Expr → V
  | .ident _ name => s (Γ.place name)
  | .literal _ type text => I.literal (.ofLiteral type) text
  | .binary _ operator left right =>
    let r := right.eval I Γ s
    let l := left.eval I Γ s
    I.operate (Env.opcode operator (left.kind Γ) (right.kind Γ)) l r
  | .call _ callee args => I.call callee (Expr.evalAll I Γ s args)
  | .assign .. | .unary .. | .unknown .. => I.literal .unknown ""
termination_by structural e => e

def Expr.evalAll (I : Interpretation V) (Γ : Env) (s : Valuation V) : List Expr → List V
  | [] => []
  | e :: es => e.eval I Γ s :: Expr.evalAll I Γ s es
termination_by structural es => es

end

def Expr.effect (I : Interpretation V) (Γ : Env) (s : Valuation V) : Expr → Valuation V
  | .assign _ operator (.ident _ name) value =>
    Function.update s (Γ.place name)
      (if operator = "=" then value.eval I Γ s
      else I.operate (Env.opcode (compoundOperator operator) (Γ.kindOf name) (value.kind Γ))
        (s (Γ.place name)) (value.eval I Γ s))
  | .unary _ operator (.ident _ name) =>
    Function.update s (Γ.place name)
      (I.operate (Env.opcode ((stepOperator? operator).getD operator) (Γ.kindOf name) .int)
        (s (Γ.place name)) (I.literal .int "1"))
  | _ => s

mutual

def Stmt.declares (Γ : Env) : Stmt → Env
  | .block _ items => Stmt.declaresAll Γ items
  | .decl d => Γ.declare d
  | .ifThen _ _ thenBranch elseBranch =>
    Stmt.declaresOption (thenBranch.declares Γ) elseBranch
  | .forLoop _ init _ next body =>
    Stmt.declaresOption (body.declares (Stmt.declaresOption Γ init)) next
  | _ => Γ
termination_by structural s => s

def Stmt.declaresAll (Γ : Env) : List Stmt → Env
  | [] => Γ
  | s :: ss => Stmt.declaresAll (s.declares Γ) ss
termination_by structural ss => ss

def Stmt.declaresOption (Γ : Env) : Option Stmt → Env
  | none => Γ
  | some s => s.declares Γ
termination_by structural s => s

end

def sequel {S : Type} (first : Option (Outcome S V)) (rest : S → Option (Outcome S V)) :
    Option (Outcome S V) :=
  match first with
  | some (.finished s) => rest s
  | other => other

def iterate {S : Type} (holds : S → Bool) (turn : S → Option (Outcome S V)) :
    Nat → S → Option (Outcome S V)
  | 0, _ => none
  | n + 1, s => if holds s then sequel (turn s) (iterate holds turn n) else some (.finished s)

mutual

/-- Run a statement, with a limit for the turns of each loop; none if a limit is reached. Only the
statements of structured code without a `switch` have a meaning. -/
def Stmt.exec (I : Interpretation V) (limit : Nat) (Γ : Env) (s : Valuation V) :
    Stmt → Option (Outcome (Valuation V) V)
  | .block _ items => Stmt.execAll I limit Γ s items
  | .decl d =>
    some (.finished (d.init.elim s fun e =>
      Function.update s (.inFunction d.name) (e.eval I (Γ.declare d) s)))
  | .ret _ value => some (.returned (value.map (·.eval I Γ s)) s)
  | .ifThen _ cond thenBranch elseBranch =>
    if I.holds (cond.eval I Γ s) then thenBranch.exec I limit Γ s
    else Stmt.execOption I limit (thenBranch.declares Γ) s elseBranch
  | .forLoop _ init cond next body =>
    let inner := Stmt.declaresOption Γ init
    sequel (Stmt.execOption I limit Γ s init)
      (iterate (fun s => cond.all fun e => I.holds (e.eval I inner s))
        (fun s => sequel (body.exec I limit inner s)
          fun s => Stmt.execOption I limit (body.declares inner) s next) limit)
  | .empty _ => some (.finished s)
  | .expr _ x => some (.finished (x.effect I Γ s))
  | .switch .. | .caseOf .. | .otherwise .. | .leave .. | .unknown .. => none
termination_by structural t => t

def Stmt.execAll (I : Interpretation V) (limit : Nat) (Γ : Env) (s : Valuation V) :
    List Stmt → Option (Outcome (Valuation V) V)
  | [] => some (.finished s)
  | t :: ts =>
    sequel (t.exec I limit Γ s) fun s => Stmt.execAll I limit (t.declares Γ) s ts
termination_by structural ts => ts

def Stmt.execOption (I : Interpretation V) (limit : Nat) (Γ : Env) (s : Valuation V) :
    Option Stmt → Option (Outcome (Valuation V) V)
  | none => some (.finished s)
  | some t => t.exec I limit Γ s
termination_by structural t => t

end

mutual

def Expr.isPure : Expr → Bool
  | .ident .. | .literal .. => true
  | .binary _ _ left right => right.isPure && left.isPure
  | .call _ _ args => Expr.arePure args
  | .assign .. | .unary .. | .unknown .. => false
termination_by structural e => e

def Expr.arePure : List Expr → Bool
  | [] => true
  | e :: es => e.isPure && Expr.arePure es
termination_by structural es => es

end

/-- An expression that may stand as a statement: one without assignments, or an assignment to an
identifier, or a step of one. -/
def Expr.isAction : Expr → Bool
  | .assign _ _ (.ident ..) value => value.isPure
  | .unary _ _ (.ident ..) => true
  | e => e.isPure

mutual

/-- Structured code without a `switch`, in which an `if` whose second branch has slots has slots in
its first branch, too. -/
def Stmt.isPlain : Stmt → Bool
  | .block _ items => Stmt.arePlain items
  | .decl d => d.init.all Expr.isPure
  | .ret _ value => value.all Expr.isPure
  | .ifThen _ cond thenBranch elseBranch =>
    cond.isPure && thenBranch.isPlain && Stmt.isPlainOption elseBranch &&
      (Stmt.sizeOption elseBranch = 0 || 0 < thenBranch.size)
  | .forLoop _ init cond next body =>
    Stmt.isPlainOption init && cond.all Expr.isPure && body.isPlain && Stmt.isPlainOption next
  | .empty _ => true
  | .expr _ x => x.isAction
  | .switch .. | .caseOf .. | .otherwise .. | .leave .. | .unknown .. => false
termination_by structural s => s

def Stmt.arePlain : List Stmt → Bool
  | [] => true
  | s :: ss => s.isPlain && Stmt.arePlain ss
termination_by structural ss => ss

def Stmt.isPlainOption : Option Stmt → Bool
  | none => true
  | some s => s.isPlain
termination_by structural s => s

end

end SlotBoard
