import SlotBoard.Lowering.Draft
import SlotBoard.Text.Quoted

/-!
Lowering of expressions. The right operand comes before the left one, a value before the target it
is assigned to, and arguments come in their order. An expression that cannot be lowered is reported,
and the attempt is given up at that point.
-/
namespace SlotBoard

open Draft

def stepOperator? : String → Option String
  | "++" | "p++" => some "+"
  | "--" | "p--" => some "-"
  | _ => none

/-- Compute a binary operation into a temporary. An operator without an opcode is reported, and its
item is emitted with the unknown opcode. -/
def emitBinary (ctx : Context) (pos : Position) (operator : String) (left right : Value) :
    Emit Variable := do
  let kind := Kind.shared left.kind right.kind
  let opcode := Opcode.ofOperator operator kind
  let result ← newTemporary ctx "binary_op" (if opcode.isComparison then .boolean else kind)
  if (Opcode.ofOperator? operator kind).isNone then
    discard (report .unsupportedOperator pos ("operator " ++ Quoted.encode operator))
  emit ⟨.binary opcode left right result, []⟩
  return result

def emitStep (operator : String) (target : Variable) : Emit Unit := do
  let one ← newConstant .int "1"
  let opcode := Opcode.ofOperator operator (.shared target.kind one.kind)
  emit ⟨.binary opcode (.var target) (.const one) target, []⟩

def compoundOperator (operator : String) : String :=
  match operator.toList.reverse with
  | '=' :: front => String.ofList front.reverse
  | _ => operator

/-- Copy a value into a variable. A compound assignment computes into a temporary first. -/
def emitAssign (ctx : Context) (pos : Position) (operator : String) (target : Variable)
    (value : Value) : Emit Unit := do
  if operator = "=" then
    emit ⟨.assign (.var target) value, []⟩
  else
    let sum ← emitBinary ctx pos (compoundOperator operator) (.var target) value
    emit ⟨.assign (.var target) (.var sum), []⟩

def emitCall (ctx : Context) (callee : String) (args : List Value) : Emit Variable := do
  let result ← newTemporary ctx "call" ((ctx.signatures.lookup callee).getD .unknown)
  emit ⟨.call callee args result, []⟩
  return result

mutual

def Expr.lower (ctx : Context) : Expr → Attempt Value
  | .binary pos operator left right => do
    let r ← right.lower ctx
    let l ← left.lower ctx
    return .var (← emitBinary ctx pos operator l r)
  | .unary pos operator operand => do
    match stepOperator? operator with
    | none => abandon .unsupported pos ("unary operator " ++ Quoted.encode operator)
    | some step =>
      match ← operand.lower ctx with
      | .var target =>
        emitStep step target
        return .var target
      | _ => abandon .unsupported pos ("operand of " ++ operator ++ " is not a variable")
  | .ident pos name => do
    match ← resolve? ctx name with
    | some v => return .var v
    | none => abandon .unresolved pos ("identifier " ++ name)
  | .literal _ type value => do
    return .const (← newConstant (.ofLiteral type) value)
  | .assign pos operator target value => do
    let r ← value.lower ctx
    match ← target.lower ctx with
    | .var v =>
      if v.temp then
        abandon .unsupported target.pos "assignment target is not a variable"
      else
        emitAssign ctx pos operator v r
        return .var v
    | _ => abandon .unsupported target.pos "assignment target is not a variable"
  | .call _ callee args => do
    let values ← Expr.lowerAll ctx args
    return .var (← emitCall ctx callee values)
  | .unknown pos kind => abandon .unsupported pos (kind ++ " expression")
termination_by structural e => e

def Expr.lowerAll (ctx : Context) : List Expr → Attempt (List Value)
  | [] => return []
  | e :: es => do
    let v ← e.lower ctx
    let vs ← Expr.lowerAll ctx es
    return v :: vs
termination_by structural es => es

end

end SlotBoard
