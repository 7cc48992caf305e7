import SlotBoard.Lowering.Expr

/-!
Lowering of statements. Code is written straight through and jumps are filled in afterwards:

- an `if` is the condition, a conditional jump, both branches and a join;
- a `for` is the initialiser, the condition, a conditional jump, the body, the update and a join,
  and its tail goes back to the condition;
- a `switch` is its subject and its body, without a dispatch.

A join is a slot that jumps to the address after it. A branch whose last slot falls through is sent
to the join. An expression that cannot be lowered abandons the statement it stands in.
-/
namespace SlotBoard

open Draft

def withValue (ctx : Context) (e : Expr) (step : Value → Emit Unit) : Emit Unit := do
  match ← (e.lower ctx).run with
  | .ok v => step v
  | .error _ => return

def Decl.lower (ctx : Context) (d : Decl) : Emit Unit := do
  let flags := { isVolatile := d.quals.contains "volatile" }
  match ← declare? ctx none d.name (.ofWords ctx.aliases d.type) flags with
  | none => discard (report .redeclared d.pos ("variable " ++ d.name))
  | some v =>
    match d.init with
    | none => return
    | some e => withValue ctx e fun value => emit ⟨.assign (.var v) value, []⟩

def lowerReturn (ctx : Context) : Option Expr → Emit Unit
  | none => emit (.ret none)
  | some e => withValue ctx e fun v => emit (.ret (some v))

/-- The head of a loop: a conditional jump, or without a condition a jump into the body. The body
and the update follow; `rest` is given the address of the head. -/
def withHead (ctx : Context) (cond : Option Expr) (rest : Nat → Emit Unit) : Emit Unit :=
  match cond with
  | some e => withValue ctx e fun v => do
    let head ← size
    emit (.jumpIfTrue v)
    rest head
  | none => do
    let head ← size
    placeholder
    rest head

def closeLoop (tail : Option Nat) (condition : Nat) : Emit Unit :=
  match tail with
  | none => emit (.jump condition)
  | some _ => closeAt tail condition

mutual

def Stmt.lower (ctx : Context) : Stmt → Emit Unit
  | .block _ items => Stmt.lowerAll ctx items
  | .decl d => d.lower ctx
  | .ret _ value => lowerReturn ctx value
  | .ifThen _ cond thenBranch elseBranch =>
    withValue ctx cond fun v => do
      let head ← size
      emit (.jumpIfTrue v)
      let thenEnd ← lastAppended (thenBranch.lower ctx)
      let elseStart ← size
      let elseEnd ← lastAppended (Stmt.lowerOption ctx elseBranch)
      setNext head [head + 1, elseStart]
      let join ← size
      placeholder
      closeAt thenEnd join
      closeAt elseEnd join
  | .forLoop _ init cond next body => do
    Stmt.lowerOption ctx init
    let condition ← size
    withHead ctx cond fun head => do
      let bodyEnd ← lastAppended (body.lower ctx)
      let nextEnd ← lastAppended (Stmt.lowerOption ctx next)
      closeLoop (nextEnd.or bodyEnd) condition
      let join ← size
      placeholder
      if cond.isSome then setNext head [head + 1, join]
  | .switch _ subject body => withValue ctx subject fun _ => body.lower ctx
  | .caseOf _ label stmts => do
    withValue ctx label fun _ => return
    Stmt.lowerAll ctx stmts
  | .otherwise _ stmts => Stmt.lowerAll ctx stmts
  | .leave pos =>
    discard (report .unsupported pos "break statement; the exit edge is not lowered")
  | .empty _ => placeholder
  | .expr _ x => withValue ctx x fun _ => return
  | .unknown pos kind => discard (report .unsupported pos (kind ++ " statement"))
termination_by structural s => s

def Stmt.lowerAll (ctx : Context) : List Stmt → Emit Unit
  | [] => return
  | s :: ss => do
    s.lower ctx
    Stmt.lowerAll ctx ss
termination_by structural ss => ss

def Stmt.lowerOption (ctx : Context) : Option Stmt → Emit Unit
  | none => return
  | some s => s.lower ctx
termination_by structural s => s

end

end SlotBoard
