import SlotBoard.Lowering.Unit

/-!
What a lowering step does to a draft. A relation of drafts that is reflexive, transitive and holds of
every primitive write holds of the lowering of every expression and statement; the induction over
the syntax is done here once. Names, values, the counter and the diagnostics only grow, so a sequence
of steps that ends without a new diagnostic has none in any of its parts.
-/
namespace SlotBoard

variable {α β : Type}

namespace Draft

def after (d : Draft) (step : Emit α) : Draft := (step.run d).2

def answer (d : Draft) (step : Emit α) : α := (step.run d).1

@[simp] theorem after_pure (d : Draft) (a : α) : d.after (pure a) = d := rfl

@[simp] theorem after_bind (d : Draft) (x : Emit α) (f : α → Emit β) :
    d.after (x >>= f) = (d.after x).after (f (d.answer x)) := (rfl)

@[simp] theorem answer_bind (d : Draft) (x : Emit α) (f : α → Emit β) :
    d.answer (x >>= f) = (d.after x).answer (f (d.answer x)) := (rfl)

@[simp] theorem after_size (d : Draft) : d.after size = d := rfl

@[simp] theorem answer_size (d : Draft) : d.answer size = d.board.slots.length := rfl

theorem after_attempt_bind (d : Draft) (x : Attempt α) (f : α → Attempt β) :
    d.after (x >>= f).run =
      match d.answer x.run with
      | .ok a => (d.after x.run).after (f a).run
      | .error _ => d.after x.run := by
  rw [ExceptT.run_bind, after_bind]
  cases d.answer x.run <;> rfl

theorem answer_attempt_bind (d : Draft) (x : Attempt α) (f : α → Attempt β) :
    d.answer (x >>= f).run =
      match d.answer x.run with
      | .ok a => (d.after x.run).answer (f a).run
      | .error e => .error e := by
  rw [ExceptT.run_bind, answer_bind]
  cases d.answer x.run <;> rfl

theorem after_declare? (d : Draft) (ctx : Context) (scope : Option String) (source : String)
    (kind : Kind) (flags : Flags) :
    d.after (declare? ctx scope source kind flags) =
      match d.board.local? source with
      | some _ => d
      | none => d.after (introduce (fun owner n =>
          Variable.declared source owner (scope.getD owner) n kind (flagged ctx flags)) .var) := by
  unfold declare?
  rw [after_bind]
  change d.after (match d.board.local? source with | some _ => _ | none => _) = _
  cases d.board.local? source <;> rfl

theorem answer_declare? (d : Draft) (ctx : Context) (scope : Option String) (source : String)
    (kind : Kind) (flags : Flags) :
    d.answer (declare? ctx scope source kind flags) =
      match d.board.local? source with
      | some _ => none
      | none => some (Variable.declared source d.board.name (scope.getD d.board.name) d.counter kind
          (flagged ctx flags)) := by
  unfold declare?
  rw [answer_bind]
  change d.answer (match d.board.local? source with | some _ => _ | none => _) = _
  cases d.board.local? source <;> rfl

/-- No declaration makes a temporary. -/
theorem temp_of_answer_declare? {d : Draft} {ctx : Context} {scope : Option String} {source : String}
    {kind : Kind} {flags : Flags} {v : Variable}
    (h : d.answer (declare? ctx scope source kind flags) = some v) : v.temp = false := by
  rw [answer_declare?] at h
  split at h
  · cases h
  · rw [← Option.some.inj h]
    rfl

def withSlots (d : Draft) (slots : List Slot) : Draft := { d with board := { d.board with slots } }

def Quiet (d : Draft) (step : Emit α) : Prop := (d.after step).diagnostics = d.diagnostics

instance (d : Draft) (step : Emit α) : Decidable (d.Quiet step) :=
  inferInstanceAs (Decidable ((d.after step).diagnostics = d.diagnostics))

end Draft

def Keeps (R : Draft → Draft → Prop) (step : Emit α) : Prop := ∀ d : Draft, R d (d.after step)

theorem Keeps.bind {R : Draft → Draft → Prop} (htrans : ∀ a b c, R a b → R b c → R a c)
    {x : Emit α} {f : α → Emit β} (hx : Keeps R x) (hf : ∀ a, Keeps R (f a)) :
    Keeps R (x >>= f) := by
  intro d
  exact htrans _ _ _ (hx d) (hf (d.answer x) (d.after x))

/-- The operations that code of an expression is made of: copies, computations and calls. -/
def Operation.computes : Operation → Bool
  | assign .. | binary .. | call .. => true
  | _ => false

theorem Operation.branches_of_computes {operation : Operation} (h : operation.computes = true) :
    operation.branches = false := by
  cases operation <;> first | rfl | cases h

/-- What the lowering of an expression may emit. The opcode of a computation is chosen by the kind that
its operands share, which is also the kind of the result, unless that is a truth value; a step adds or
takes away the number one in place; and the result of a call has the kind of the callee. -/
inductive Context.Emits (ctx : Context) : Operation → Prop
  | assign (target : Variable) (value : Value) : Emits ctx (.assign (.var target) value)
  | binary (operator : String) (left right : Value) (result : Variable) (htemp : result.temp = true)
      (hkind : result.kind =
        if (Opcode.ofOperator operator (.shared left.kind right.kind)).isComparison then .boolean
        else .shared left.kind right.kind) :
      Emits ctx (.binary (.ofOperator operator (.shared left.kind right.kind)) left right result)
  | step (operator : String) (target : Variable) (one : Constant) (hkind : one.kind = .int)
      (hliteral : one.literal = "1") :
      Emits ctx (.binary (.ofOperator operator (.shared target.kind one.kind)) (.var target)
        (.const one) target)
  | call (callee : String) (args : List Value) (result : Variable) (htemp : result.temp = true)
      (hkind : result.kind = (ctx.signatures.lookup callee).getD .unknown) :
      Emits ctx (.call callee args result)

theorem Context.Emits.computes {ctx : Context} {operation : Operation} (h : ctx.Emits operation) :
    operation.computes = true := by
  cases h <;> rfl

/-- A relation of drafts along which steps can be put together. -/
structure Composes (R : Draft → Draft → Prop) : Prop where
  refl : ∀ d, R d d
  trans : ∀ {a b c}, R a b → R b c → R a c

theorem Keeps.lift {R : Draft → Draft → Prop} {x : Emit α} (hx : Keeps R x) :
    Keeps R (liftM x : Attempt α).run := hx

namespace Composes

variable {R : Draft → Draft → Prop}

theorem bind (h : Composes R) {x : Emit α} {f : α → Emit β} (hx : Keeps R x)
    (hf : ∀ a, Keeps R (f a)) : Keeps R (x >>= f) :=
  Keeps.bind (R := R) (fun _ _ _ => h.trans) hx hf

/-- Only the answers that the first step can give matter for the second one. -/
theorem bind_of_answer (h : Composes R) {x : Emit α} {f : α → Emit β} {P : α → Prop}
    (hx : Keeps R x) (hanswer : ∀ d : Draft, P (d.answer x)) (hf : ∀ a, P a → Keeps R (f a)) :
    Keeps R (x >>= f) := by
  intro d
  exact h.trans (hx d) (hf (d.answer x) (hanswer d) (d.after x))

theorem attempt_of_answer (h : Composes R) {x : Attempt α} {f : α → Attempt β} (hx : Keeps R x.run)
    (hf : ∀ (d : Draft) (a : α), d.answer x.run = .ok a → Keeps R (f a).run) :
    Keeps R (x >>= f).run := by
  intro d
  rw [Draft.after_attempt_bind]
  cases hanswer : d.answer x.run with
  | ok a => exact h.trans (hx d) (hf d a hanswer _)
  | error e => exact hx d

theorem attempt (h : Composes R) {x : Attempt α} {f : α → Attempt β} (hx : Keeps R x.run)
    (hf : ∀ a, Keeps R (f a).run) : Keeps R (x >>= f).run :=
  h.attempt_of_answer hx fun _ a _ => hf a

theorem withValue (h : Composes R) {ctx : Context} {e : Expr} (he : Keeps R (e.lower ctx).run)
    {step : Value → Emit Unit} (hstep : ∀ v, Keeps R (step v)) :
    Keeps R (withValue ctx e step) := by
  refine h.bind he fun answer => ?_
  cases answer with
  | ok v => exact hstep v
  | error d => exact h.refl

end Composes

/-- A relation of drafts that holds of everything the lowering of an expression writes. A computation
and a call are each written together with the temporary for their result, and a copy goes to a declared
variable; the variable that a step changes is as `P` says. -/
structure AdmitsWrites (ctx : Context) (P : Variable → Prop) (R : Draft → Draft → Prop) : Prop
    extends Composes R where
  constant : ∀ kind literal, Keeps R (Draft.newConstant kind literal)
  report : ∀ kind pos message, kind ≠ .unsupportedOperator →
    Keeps R (Draft.report kind pos message)
  binary : ∀ pos operator left right, Keeps R (emitBinary ctx pos operator left right)
  step : ∀ {operator step : String} (target : Variable), stepOperator? operator = some step →
    P target → Keeps R (emitStep step target)
  assign : ∀ (target : Variable) (value : Value), target.temp = false →
    Keeps R (Draft.emit ⟨.assign (.var target) value, []⟩)
  call : ∀ callee args, Keeps R (emitCall ctx callee args)

namespace AdmitsWrites

variable {ctx : Context} {P : Variable → Prop} {R : Draft → Draft → Prop}

theorem abandon (h : AdmitsWrites ctx P R) {kind : DiagnosticKind} (pos : Position)
    (message : String) (hkind : kind ≠ .unsupportedOperator) :
    Keeps R (Draft.abandon kind pos message : Attempt α).run :=
  h.attempt (h.report kind pos message hkind).lift fun _ => h.refl

theorem emitAssign (h : AdmitsWrites ctx P R) (pos : Position) (operator : String)
    {target : Variable} (value : Value) (htarget : target.temp = false) :
    Keeps R (emitAssign ctx pos operator target value) := by
  unfold SlotBoard.emitAssign
  split
  · exact h.assign target value htarget
  · exact h.bind (h.binary _ _ _ _) fun sum => h.assign target (.var sum) htarget

end AdmitsWrites

mutual

def Expr.stepped : Expr → List Expr
  | .binary _ _ left right => right.stepped ++ left.stepped
  | .unary _ _ operand => operand :: operand.stepped
  | .assign _ _ target value => value.stepped ++ target.stepped
  | .call _ _ args => Expr.steppedAll args
  | .ident .. | .literal .. | .unknown .. => []
termination_by structural e => e

def Expr.steppedAll : List Expr → List Expr
  | [] => []
  | e :: es => e.stepped ++ Expr.steppedAll es
termination_by structural es => es

end

def Expr.StandsFor (ctx : Context) (P : Variable → Prop) (e : Expr) : Prop :=
  ∀ (d : Draft) (v : Variable), d.answer (e.lower ctx).run = .ok (.var v) → P v

mutual

theorem Expr.lower_admits {ctx : Context} {P : Variable → Prop} {R : Draft → Draft → Prop}
    (h : AdmitsWrites ctx P R) : ∀ e : Expr, (∀ operand ∈ e.stepped, operand.StandsFor ctx P) →
      Keeps R (e.lower ctx).run
  | .binary pos operator left right, hsteps => by
    rw [Expr.stepped, List.forall_mem_append] at hsteps
    rw [Expr.lower]
    refine h.attempt (right.lower_admits h hsteps.1) fun r =>
      h.attempt (left.lower_admits h hsteps.2) fun l => ?_
    exact h.attempt (h.binary _ _ _ _).lift fun _ => h.refl
  | .unary pos operator operand, hsteps => by
    rw [Expr.stepped, List.forall_mem_cons] at hsteps
    rw [Expr.lower]
    split
    · exact h.abandon _ _ (by decide)
    · rename_i step hstep
      refine h.attempt_of_answer (operand.lower_admits h hsteps.2) fun d v hanswer => ?_
      split
      · exact h.attempt (h.step _ hstep (hsteps.1 d _ hanswer)).lift fun _ => h.refl
      · exact h.abandon _ _ (by decide)
  | .ident pos name, _ => by
    rw [Expr.lower]
    refine h.attempt (x := liftM (Draft.resolve? ctx name)) h.refl fun v => ?_
    split
    · exact h.refl
    · exact h.abandon _ _ (by decide)
  | .literal _ type value, _ => by
    rw [Expr.lower]
    exact h.attempt (h.constant _ _).lift fun _ => h.refl
  | .assign pos operator target value, hsteps => by
    rw [Expr.stepped, List.forall_mem_append] at hsteps
    rw [Expr.lower]
    refine h.attempt (value.lower_admits h hsteps.1) fun r =>
      h.attempt (target.lower_admits h hsteps.2) fun v => ?_
    split
    · split
      · exact h.abandon _ _ (by decide)
      · rename_i htemp
        exact h.attempt (h.emitAssign _ _ _ (Bool.not_eq_true _ ▸ htemp)).lift fun _ => h.refl
    · exact h.abandon _ _ (by decide)
  | .call _ callee args, hsteps => by
    rw [Expr.lower]
    refine h.attempt (Expr.lowerAll_admits h args hsteps) fun values => ?_
    exact h.attempt (h.call _ _).lift fun _ => h.refl
  | .unknown pos kind, _ => by
    rw [Expr.lower]
    exact h.abandon _ _ (by decide)
termination_by structural e => e

theorem Expr.lowerAll_admits {ctx : Context} {P : Variable → Prop} {R : Draft → Draft → Prop}
    (h : AdmitsWrites ctx P R) : ∀ es : List Expr,
      (∀ operand ∈ Expr.steppedAll es, operand.StandsFor ctx P) → Keeps R (Expr.lowerAll ctx es).run
  | [], _ => by
    rw [Expr.lowerAll]
    exact h.refl
  | e :: es, hsteps => by
    rw [Expr.steppedAll, List.forall_mem_append] at hsteps
    rw [Expr.lowerAll]
    exact h.attempt (e.lower_admits h hsteps.1) fun v =>
      h.attempt (Expr.lowerAll_admits h es hsteps.2) fun _ => h.refl
termination_by structural es => es

end

/-- A relation of drafts that holds of every single write in the lowering of an expression. -/
structure AdmitsExprs (ctx : Context) (R : Draft → Draft → Prop) : Prop extends Composes R where
  temporary : ∀ stem kind, Keeps R (Draft.newTemporary ctx stem kind)
  constant : ∀ kind literal, Keeps R (Draft.newConstant kind literal)
  report : ∀ kind pos message, Keeps R (Draft.report kind pos message)
  emit : ∀ operation : Operation, ctx.Emits operation → Keeps R (Draft.emit ⟨operation, []⟩)

namespace AdmitsExprs

variable {ctx : Context} {R : Draft → Draft → Prop}

theorem abandon (h : AdmitsExprs ctx R) (kind : DiagnosticKind) (pos : Position)
    (message : String) : Keeps R (Draft.abandon kind pos message : Attempt α).run :=
  h.attempt (h.report kind pos message).lift fun _ => h.refl

theorem emitBinary (h : AdmitsExprs ctx R) (pos : Position) (operator : String)
    (left right : Value) : Keeps R (emitBinary ctx pos operator left right) := by
  refine h.bind_of_answer (P := fun result : Variable => result.temp = true ∧ result.kind =
      if (Opcode.ofOperator operator (.shared left.kind right.kind)).isComparison then .boolean
      else .shared left.kind right.kind) (h.temporary _ _) ?_ ?_
  · exact fun _ => ⟨rfl, rfl⟩
  · intro result hresult
    have hemit : Keeps R (do
        Draft.emit ⟨.binary (.ofOperator operator (.shared left.kind right.kind)) left right result, []⟩
        return result) :=
      h.bind (h.emit _ (.binary operator left right result hresult.1 hresult.2)) fun _ => h.refl
    dsimp only
    split
    · exact h.bind (h.report _ _ _) fun _ => hemit
    · exact hemit

theorem emitStep (h : AdmitsExprs ctx R) (operator : String) (target : Variable) :
    Keeps R (emitStep operator target) := by
  refine h.bind_of_answer (P := fun one : Constant => one.kind = .int ∧ one.literal = "1")
    (h.constant _ _) ?_ ?_
  · exact fun _ => ⟨rfl, rfl⟩
  · exact fun one hone => h.emit _ (.step operator target one hone.1 hone.2)

theorem emitAssign (h : AdmitsExprs ctx R) (pos : Position) (operator : String)
    (target : Variable) (value : Value) :
    Keeps R (emitAssign ctx pos operator target value) := by
  unfold SlotBoard.emitAssign
  split
  · exact h.emit _ (.assign target value)
  · exact h.bind (h.emitBinary _ _ _ _) fun sum => h.emit _ (.assign target (.var sum))

theorem emitCall (h : AdmitsExprs ctx R) (callee : String) (args : List Value) :
    Keeps R (emitCall ctx callee args) := by
  refine h.bind_of_answer (P := fun result : Variable => result.temp = true ∧
      result.kind = (ctx.signatures.lookup callee).getD .unknown)
    (h.temporary _ _) ?_ ?_
  · exact fun _ => ⟨rfl, rfl⟩
  · intro result hresult
    exact h.bind (h.emit _ (.call callee args result hresult.1 hresult.2)) fun _ => h.refl

theorem writes (h : AdmitsExprs ctx R) (P : Variable → Prop) : AdmitsWrites ctx P R :=
  { h with
    report := fun kind pos message _ => h.report kind pos message
    binary := h.emitBinary
    step := fun target _ _ => h.emitStep _ target
    assign := fun target value _ => h.emit _ (.assign target value)
    call := h.emitCall }

end AdmitsExprs

theorem Expr.lower_keeps {ctx : Context} {R : Draft → Draft → Prop} (h : AdmitsExprs ctx R)
    (e : Expr) : Keeps R (e.lower ctx).run :=
  e.lower_admits (h.writes fun _ => True) fun _ _ _ _ _ => trivial

theorem Expr.lowerAll_keeps {ctx : Context} {R : Draft → Draft → Prop} (h : AdmitsExprs ctx R)
    (es : List Expr) : Keeps R (Expr.lowerAll ctx es).run :=
  Expr.lowerAll_admits (h.writes fun _ => True) es fun _ _ _ _ _ => trivial

theorem AdmitsExprs.withValue {ctx : Context} {R : Draft → Draft → Prop} (h : AdmitsExprs ctx R)
    (e : Expr) {step : Value → Emit Unit} (hstep : ∀ v, Keeps R (step v)) :
    Keeps R (withValue ctx e step) :=
  h.toComposes.withValue (e.lower_keeps h) hstep

mutual

def Stmt.exprs : Stmt → List Expr
  | .block _ items => Stmt.exprsAll items
  | .decl d => d.init.toList
  | .ret _ value => value.toList
  | .ifThen _ cond thenBranch elseBranch =>
    cond :: (thenBranch.exprs ++ Stmt.exprsOption elseBranch)
  | .forLoop _ init cond next body =>
    Stmt.exprsOption init ++ (cond.toList ++ (body.exprs ++ Stmt.exprsOption next))
  | .switch _ subject body => subject :: body.exprs
  | .caseOf _ label stmts => label :: Stmt.exprsAll stmts
  | .otherwise _ stmts => Stmt.exprsAll stmts
  | .expr _ x => [x]
  | .leave _ | .empty _ | .unknown .. => []
termination_by structural s => s

def Stmt.exprsAll : List Stmt → List Expr
  | [] => []
  | s :: ss => s.exprs ++ Stmt.exprsAll ss
termination_by structural ss => ss

def Stmt.exprsOption : Option Stmt → List Expr
  | none => []
  | some s => s.exprs
termination_by structural s => s

end

/-- A relation of drafts that holds of everything the lowering of a statement without parts writes,
provided that it holds of the expressions. -/
structure AdmitsLeaves (ctx : Context) (R : Draft → Draft → Prop) : Prop extends Composes R where
  report : ∀ kind pos message, kind ≠ .unsupportedOperator →
    Keeps R (Draft.report kind pos message)
  assign : ∀ (target : Variable) (value : Value), target.temp = false →
    Keeps R (Draft.emit ⟨.assign (.var target) value, []⟩)
  declare : ∀ scope source kind flags, Keeps R (Draft.declare? ctx scope source kind flags)
  ret : ∀ value, Keeps R (Draft.emit (.ret value))
  placeholder : Keeps R Draft.placeholder

namespace AdmitsLeaves

variable {ctx : Context} {R : Draft → Draft → Prop}

theorem decl (h : AdmitsLeaves ctx R) (decl : Decl)
    (hinit : ∀ e ∈ decl.init.toList, Keeps R (e.lower ctx).run) : Keeps R (decl.lower ctx) := by
  refine h.bind_of_answer (P := fun v => ∀ w, v = some w → w.temp = false) (h.declare _ _ _ _)
    (fun _ _ hw => Draft.temp_of_answer_declare? hw) fun v hv => ?_
  cases v with
  | none => exact h.report _ _ _ (by decide)
  | some v =>
    dsimp only
    split
    · exact h.refl
    · rename_i e heq
      exact h.withValue (hinit e (by simp [heq])) fun value => h.assign v value (hv v rfl)

theorem lowerReturn (h : AdmitsLeaves ctx R) (value : Option Expr)
    (hvalue : ∀ e ∈ value.toList, Keeps R (e.lower ctx).run) :
    Keeps R (lowerReturn ctx value) := by
  cases value with
  | none => exact h.ret none
  | some e => exact h.withValue (hvalue e List.mem_cons_self) fun v => h.ret (some v)

end AdmitsLeaves

/-- A relation of drafts that holds of everything the lowering of a statement writes, provided that
it holds of the expressions and the parts of the statement. -/
structure AdmitsStmts (ctx : Context) (R : Draft → Draft → Prop) : Prop
    extends AdmitsLeaves ctx R where
  ifThen : ∀ pos cond thenBranch elseBranch, Keeps R (Expr.lower ctx cond).run →
    Keeps R (Stmt.lower ctx thenBranch) → Keeps R (Stmt.lowerOption ctx elseBranch) →
    Keeps R (Stmt.lower ctx (.ifThen pos cond thenBranch elseBranch))
  forLoop : ∀ pos init cond next body, (∀ e ∈ cond.toList, Keeps R (Expr.lower ctx e).run) →
    Keeps R (Stmt.lowerOption ctx init) → Keeps R (Stmt.lower ctx body) →
    Keeps R (Stmt.lowerOption ctx next) →
    Keeps R (Stmt.lower ctx (.forLoop pos init cond next body))

mutual

theorem Stmt.lower_keeps {ctx : Context} {R : Draft → Draft → Prop} (h : AdmitsStmts ctx R) :
    ∀ s : Stmt, (∀ e ∈ s.exprs, Keeps R (e.lower ctx).run) → Keeps R (s.lower ctx)
  | .block _ items, hexprs => by
    rw [Stmt.lower]
    exact Stmt.lowerAll_keeps h items hexprs
  | .decl d, hexprs => by
    rw [Stmt.lower]
    exact h.decl d hexprs
  | .ret _ value, hexprs => by
    rw [Stmt.lower]
    exact h.lowerReturn value hexprs
  | .ifThen pos cond thenBranch elseBranch, hexprs => by
    rw [Stmt.exprs, List.forall_mem_cons, List.forall_mem_append] at hexprs
    obtain ⟨hcond, hthen, helse⟩ := hexprs
    exact h.ifThen pos cond thenBranch elseBranch hcond (thenBranch.lower_keeps h hthen)
      (Stmt.lowerOption_keeps h elseBranch helse)
  | .forLoop pos init cond next body, hexprs => by
    rw [Stmt.exprs, List.forall_mem_append, List.forall_mem_append, List.forall_mem_append] at hexprs
    obtain ⟨hinit, hcond, hbody, hnext⟩ := hexprs
    exact h.forLoop pos init cond next body hcond (Stmt.lowerOption_keeps h init hinit)
      (body.lower_keeps h hbody) (Stmt.lowerOption_keeps h next hnext)
  | .switch _ subject body, hexprs => by
    rw [Stmt.exprs, List.forall_mem_cons] at hexprs
    rw [Stmt.lower]
    exact h.withValue hexprs.1 fun _ => body.lower_keeps h hexprs.2
  | .caseOf _ label stmts, hexprs => by
    rw [Stmt.exprs, List.forall_mem_cons] at hexprs
    rw [Stmt.lower]
    exact h.bind (h.withValue hexprs.1 fun _ => h.refl) fun _ =>
      Stmt.lowerAll_keeps h stmts hexprs.2
  | .otherwise _ stmts, hexprs => by
    rw [Stmt.lower]
    exact Stmt.lowerAll_keeps h stmts hexprs
  | .leave pos, _ => by
    rw [Stmt.lower]
    exact h.report _ _ _ (by decide)
  | .empty _, _ => by
    rw [Stmt.lower]
    exact h.placeholder
  | .expr _ x, hexprs => by
    rw [Stmt.lower]
    exact h.withValue (hexprs x List.mem_cons_self) fun _ => h.refl
  | .unknown pos kind, _ => by
    rw [Stmt.lower]
    exact h.report _ _ _ (by decide)
termination_by structural s => s

theorem Stmt.lowerAll_keeps {ctx : Context} {R : Draft → Draft → Prop} (h : AdmitsStmts ctx R) :
    ∀ ss : List Stmt, (∀ e ∈ Stmt.exprsAll ss, Keeps R (e.lower ctx).run) →
      Keeps R (Stmt.lowerAll ctx ss)
  | [], _ => by
    rw [Stmt.lowerAll]
    exact h.refl
  | s :: ss, hexprs => by
    rw [Stmt.exprsAll, List.forall_mem_append] at hexprs
    rw [Stmt.lowerAll]
    exact h.bind (s.lower_keeps h hexprs.1) fun _ => Stmt.lowerAll_keeps h ss hexprs.2
termination_by structural ss => ss

theorem Stmt.lowerOption_keeps {ctx : Context} {R : Draft → Draft → Prop}
    (h : AdmitsStmts ctx R) : ∀ s : Option Stmt,
      (∀ e ∈ Stmt.exprsOption s, Keeps R (e.lower ctx).run) → Keeps R (Stmt.lowerOption ctx s)
  | none, _ => by
    rw [Stmt.lowerOption]
    exact h.refl
  | some s, hexprs => by
    rw [Stmt.lowerOption]
    exact s.lower_keeps h hexprs
termination_by structural s => s

end

theorem lowerParameters_keeps {ctx : Context} {R : Draft → Draft → Prop} (hrefl : ∀ d, R d d)
    (htrans : ∀ a b c, R a b → R b c → R a c)
    (hreport : ∀ pos message, Keeps R (Draft.report .redeclared pos message))
    (hdeclare : ∀ scope source kind flags, Keeps R (Draft.declare? ctx scope source kind flags))
    (scope : String) (params : List Decl) : Keeps R (lowerParameters ctx scope params) := by
  induction params with
  | nil => exact hrefl
  | cons p ps ih =>
    refine Keeps.bind htrans (hdeclare _ _ _ _) fun v => ?_
    dsimp only
    split
    · exact Keeps.bind htrans (hreport _ _) fun _ => ih
    · exact ih

def Slot.operations (slot : Slot) : List Operation := slot.items.map Item.operation

def Board.operations (b : Board) : List Operation :=
  b.slots.flatMap fun slot => slot.items.map Item.operation

/-- A relation that does not look at where control goes: markers, jumps and returns may be written, and
successors may be filled in and changed. -/
structure PatchBlind (ctx : Context) (R : Draft → Draft → Prop) : Prop extends Composes R where
  report : ∀ kind pos message, kind ≠ .unsupportedOperator →
    Keeps R (Draft.report kind pos message)
  assign : ∀ (target : Variable) (value : Value), target.temp = false →
    Keeps R (Draft.emit ⟨.assign (.var target) value, []⟩)
  declare : ∀ scope source kind flags, Keeps R (Draft.declare? ctx scope source kind flags)
  control : ∀ item : Item, item.operation.computes = false → Keeps R (Draft.emit item)
  patch : ∀ (position : Nat) (f : Slot → Slot), (∀ slot, (f slot).operations = slot.operations) →
    Keeps R (Draft.onBoard (·.modifySlot position f))

namespace PatchBlind

variable {ctx : Context} {R : Draft → Draft → Prop}

theorem placeholder (h : PatchBlind ctx R) : Keeps R Draft.placeholder :=
  h.bind h.refl fun _ => h.control _ rfl

theorem closeAt (h : PatchBlind ctx R) (slot : Option Nat) (target : Nat) :
    Keeps R (Draft.closeAt slot target) := by
  cases slot with
  | none => exact h.refl
  | some position =>
    refine h.patch position _ fun slot => ?_
    split
    · simp [Slot.operations, Slot.retarget]
    · rfl

theorem setNext (h : PatchBlind ctx R) (position : Nat) (next : List Int) :
    Keeps R (Draft.setNext position next) := by
  refine h.patch position _ fun slot => ?_
  obtain ⟨address, items⟩ := slot
  cases items <;> rfl

theorem lastAppended (h : PatchBlind ctx R) {step : Emit Unit} (hstep : Keeps R step) :
    Keeps R (Draft.lastAppended step) :=
  h.bind h.refl fun _ => h.bind hstep fun _ => h.bind h.refl fun _ => h.refl

theorem withHead (h : PatchBlind ctx R) {cond : Option Expr}
    (hcond : ∀ e ∈ cond.toList, Keeps R (e.lower ctx).run) {rest : Nat → Emit Unit}
    (hrest : ∀ head, Keeps R (rest head)) : Keeps R (withHead ctx cond rest) := by
  cases cond with
  | none => exact h.bind h.refl fun _ => h.bind h.placeholder fun _ => hrest _
  | some e =>
    refine h.withValue (hcond e List.mem_cons_self) fun _ => h.bind h.refl fun _ => ?_
    exact h.bind (h.control _ rfl) fun _ => hrest _

theorem closeLoop (h : PatchBlind ctx R) (tail : Option Nat) (condition : Nat) :
    Keeps R (closeLoop tail condition) := by
  cases tail with
  | none => exact h.control _ rfl
  | some _ => exact h.closeAt _ _

theorem ifThen (h : PatchBlind ctx R) (pos : Position) {cond : Expr} {thenBranch : Stmt}
    {elseBranch : Option Stmt} (hcond : Keeps R (cond.lower ctx).run)
    (hthen : Keeps R (thenBranch.lower ctx))
    (helse : Keeps R (Stmt.lowerOption ctx elseBranch)) :
    Keeps R (Stmt.lower ctx (.ifThen pos cond thenBranch elseBranch)) := by
  rw [Stmt.lower]
  refine h.withValue hcond fun v => h.bind h.refl fun head => h.bind (h.control _ rfl) fun _ => ?_
  refine h.bind (h.lastAppended hthen) fun thenEnd => h.bind h.refl fun elseStart => ?_
  refine h.bind (h.lastAppended helse) fun elseEnd => h.bind (h.setNext _ _) fun _ => ?_
  refine h.bind h.refl fun join => h.bind h.placeholder fun _ => ?_
  exact h.bind (h.closeAt _ _) fun _ => h.closeAt _ _

theorem forLoop (h : PatchBlind ctx R) (pos : Position) {cond : Option Expr}
    {init next : Option Stmt} {body : Stmt}
    (hcond : ∀ e ∈ cond.toList, Keeps R (e.lower ctx).run) (hinit : Keeps R (Stmt.lowerOption ctx init))
    (hbody : Keeps R (body.lower ctx)) (hnext : Keeps R (Stmt.lowerOption ctx next)) :
    Keeps R (Stmt.lower ctx (.forLoop pos init cond next body)) := by
  rw [Stmt.lower]
  refine h.bind hinit fun _ => h.bind h.refl fun condition => h.withHead hcond fun head => ?_
  refine h.bind (h.lastAppended hbody) fun bodyEnd => h.bind (h.lastAppended hnext) fun nextEnd => ?_
  refine h.bind (h.closeLoop _ _) fun _ => h.bind h.refl fun join => h.bind h.placeholder fun _ => ?_
  split
  · exact h.setNext _ _
  · exact h.refl

theorem admitsStmts (h : PatchBlind ctx R) : AdmitsStmts ctx R :=
  { h with
    ret := fun _ => h.control _ rfl
    placeholder := h.placeholder
    ifThen := fun pos _ _ _ hcond hthen helse => h.ifThen pos hcond hthen helse
    forLoop := fun pos _ _ _ _ hcond hinit hbody hnext => h.forLoop pos hcond hinit hbody hnext }

theorem parameters (h : PatchBlind ctx R) (scope : String) (params : List Decl) :
    Keeps R (lowerParameters ctx scope params) :=
  lowerParameters_keeps h.refl (fun _ _ _ => h.trans) (fun _ _ => h.report _ _ _ (by decide))
    h.declare scope params

theorem function (h : PatchBlind ctx R) (scope : String) (f : FuncDef)
    (hexprs : ∀ e ∈ Stmt.exprsAll f.body, Keeps R (e.lower ctx).run) :
    Keeps R (f.lower ctx scope) := by
  refine h.bind (h.parameters scope f.params) fun _ => ?_
  refine h.bind (h.control _ rfl) fun _ => h.bind (h.control _ rfl) fun _ => ?_
  exact h.bind (Stmt.lowerAll_keeps h.admitsStmts f.body hexprs) fun _ => h.control _ rfl

end PatchBlind

/-- A relation that does not look at the slots. -/
structure SlotBlind (ctx : Context) (R : Draft → Draft → Prop) : Prop
    extends AdmitsExprs ctx R where
  declare : ∀ scope source kind flags, Keeps R (Draft.declare? ctx scope source kind flags)
  slots : ∀ d slots, R d (Draft.withSlots d slots)

namespace SlotBlind

variable {ctx : Context} {R : Draft → Draft → Prop}

theorem emitItem (h : SlotBlind ctx R) (item : Item) : Keeps R (Draft.emit item) :=
  fun d => h.slots d _

theorem patchBlind (h : SlotBlind ctx R) : PatchBlind ctx R :=
  { h with
    report := fun kind pos message _ => h.report kind pos message
    assign := fun _ _ _ => h.emitItem _
    control := fun item _ => h.emitItem item
    patch := fun _ _ _ d => h.slots d _ }

theorem placeholder (h : SlotBlind ctx R) : Keeps R Draft.placeholder := h.patchBlind.placeholder

theorem stmt (h : SlotBlind ctx R) (s : Stmt) : Keeps R (s.lower ctx) :=
  s.lower_keeps h.patchBlind.admitsStmts fun e _ => e.lower_keeps h.toAdmitsExprs

theorem stmts (h : SlotBlind ctx R) (ss : List Stmt) : Keeps R (Stmt.lowerAll ctx ss) :=
  Stmt.lowerAll_keeps h.patchBlind.admitsStmts ss fun e _ => e.lower_keeps h.toAdmitsExprs

theorem option (h : SlotBlind ctx R) (s : Option Stmt) : Keeps R (Stmt.lowerOption ctx s) :=
  Stmt.lowerOption_keeps h.patchBlind.admitsStmts s fun e _ => e.lower_keeps h.toAdmitsExprs

theorem parameters (h : SlotBlind ctx R) (scope : String) (params : List Decl) :
    Keeps R (lowerParameters ctx scope params) := h.patchBlind.parameters scope params

theorem function (h : SlotBlind ctx R) (scope : String) (f : FuncDef) :
    Keeps R (f.lower ctx scope) :=
  h.patchBlind.function scope f fun e _ => e.lower_keeps h.toAdmitsExprs

end SlotBlind

namespace Draft

/-- What lowering never takes back: the board keeps its name and its kind, values and diagnostics are
only added, and the counter does not fall. -/
structure Grows (d e : Draft) : Prop where
  name : e.board.name = d.board.name
  kind : e.board.kind = d.board.kind
  values : d.board.values <+: e.board.values
  counter : d.counter ≤ e.counter
  diagnostics : d.diagnostics <+: e.diagnostics

namespace Grows

theorem refl (d : Draft) : d.Grows d :=
  ⟨rfl, rfl, List.prefix_refl _, Nat.le_refl _, List.prefix_refl _⟩

theorem trans {a b c : Draft} (hab : a.Grows b) (hbc : b.Grows c) : a.Grows c where
  name := hbc.name.trans hab.name
  kind := hbc.kind.trans hab.kind
  values := hab.values.trans hbc.values
  counter := Nat.le_trans hab.counter hbc.counter
  diagnostics := hab.diagnostics.trans hbc.diagnostics

theorem introduce (make : String → Nat → α) (toValue : α → Value) :
    Keeps Grows (introduce make toValue) := fun _ =>
  ⟨rfl, rfl, List.prefix_append _ _, Nat.le_succ _, List.prefix_refl _⟩

theorem slotBlind (ctx : Context) : SlotBlind ctx Grows where
  refl := refl
  trans := trans
  temporary _ _ := introduce _ _
  constant _ _ := introduce _ _
  report _ _ _ _ := ⟨rfl, rfl, List.prefix_refl _, Nat.le_refl _, List.prefix_append _ _⟩
  emit _ _ _ := ⟨rfl, rfl, List.prefix_refl _, Nat.le_refl _, List.prefix_refl _⟩
  slots _ _ := ⟨rfl, rfl, List.prefix_refl _, Nat.le_refl _, List.prefix_refl _⟩
  declare scope source kind flags d := by
    rw [after_declare?]
    split
    · exact refl d
    · exact introduce _ _ d

/-- Two steps that add no diagnostic together add none each. -/
theorem quiet_parts {a b c : Draft} (hab : a.Grows b) (hbc : b.Grows c)
    (h : c.diagnostics = a.diagnostics) :
    b.diagnostics = a.diagnostics ∧ c.diagnostics = b.diagnostics := by
  have hle := hbc.diagnostics.length_le
  rw [h] at hle
  have heq : a.diagnostics = b.diagnostics := hab.diagnostics.eq_of_length_le hle
  exact ⟨heq.symm, h.trans heq⟩

end Grows
end Draft

theorem Expr.lower_grows (ctx : Context) (e : Expr) : Keeps Draft.Grows (e.lower ctx).run :=
  e.lower_keeps (Draft.Grows.slotBlind ctx).toAdmitsExprs

theorem Stmt.lower_grows (ctx : Context) (s : Stmt) : Keeps Draft.Grows (s.lower ctx) :=
  (Draft.Grows.slotBlind ctx).stmt s

theorem Stmt.lowerAll_grows (ctx : Context) (ss : List Stmt) :
    Keeps Draft.Grows (Stmt.lowerAll ctx ss) :=
  (Draft.Grows.slotBlind ctx).stmts ss

theorem Stmt.lowerOption_grows (ctx : Context) (s : Option Stmt) :
    Keeps Draft.Grows (Stmt.lowerOption ctx s) :=
  (Draft.Grows.slotBlind ctx).option s

end SlotBoard
