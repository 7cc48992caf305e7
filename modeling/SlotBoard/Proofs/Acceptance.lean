import SlotBoard.Proofs.TwoPass

/-!
Which programs are lowered without a report. The answer is read off the syntax: `acceptable` walks
over a program in the order of its lowering, knows the names declared so far and asks for nothing that
the lowering computes. An expression is lowered without a report exactly if it is acceptable, and so
is a statement if, besides, no name is declared twice in its function.
-/
namespace SlotBoard

variable {α β : Type}

def binaryOperators : List String := ["+", "-", "*", "/", "==", "<"]

def stepOperators : List String := ["++", "p++", "--", "p--"]

/-- The operators of assignments: the plain one, and a binary operator with an equals sign behind it.
The sign may be missing, unless the binary operator ends in one itself. -/
def assignmentOperators : List String :=
  "=" :: binaryOperators.map (· ++ "=") ++ ["+", "-", "*", "/", "<"]

namespace Expr

def isLiteral : Expr → Bool
  | literal .. => true
  | _ => false

def isPlace : Expr → Bool
  | ident .. | assign .. => true
  | unary _ _ operand => operand.isPlace
  | _ => false

end Expr

mutual

def Expr.acceptable (names : List String) : Expr → Bool
  | .binary _ operator left right =>
    right.acceptable names && left.acceptable names && binaryOperators.contains operator
  | .unary _ operator operand =>
    stepOperators.contains operator && operand.acceptable names && !operand.isLiteral
  | .ident _ name => names.contains name
  | .literal .. => true
  | .assign _ operator target value =>
    value.acceptable names && target.acceptable names && target.isPlace &&
      assignmentOperators.contains operator
  | .call _ _ args => Expr.acceptableAll names args
  | .unknown .. => false
termination_by structural e => e

def Expr.acceptableAll (names : List String) : List Expr → Bool
  | [] => true
  | e :: es => e.acceptable names && Expr.acceptableAll names es
termination_by structural es => es

end

mutual

def Stmt.introduces : Stmt → List String
  | .block _ items => Stmt.introducesAll items
  | .decl d => [d.name]
  | .ifThen _ _ thenBranch elseBranch =>
    thenBranch.introduces ++ Stmt.introducesOption elseBranch
  | .forLoop _ init _ next body =>
    Stmt.introducesOption init ++ body.introduces ++ Stmt.introducesOption next
  | .switch _ _ body => body.introduces
  | .caseOf _ _ stmts => Stmt.introducesAll stmts
  | .otherwise _ stmts => Stmt.introducesAll stmts
  | .ret .. | .leave _ | .empty _ | .expr .. | .unknown .. => []
termination_by structural s => s

def Stmt.introducesAll : List Stmt → List String
  | [] => []
  | s :: ss => s.introduces ++ Stmt.introducesAll ss
termination_by structural ss => ss

def Stmt.introducesOption : Option Stmt → List String
  | none => []
  | some s => s.introduces
termination_by structural s => s

end

mutual

def Stmt.acceptable (globals locals : List String) : Stmt → Bool
  | .block _ items => Stmt.acceptableAll globals locals items
  | .decl d => d.init.all (·.acceptable (locals ++ [d.name] ++ globals))
  | .ret _ value => value.all (·.acceptable (locals ++ globals))
  | .ifThen _ cond thenBranch elseBranch =>
    cond.acceptable (locals ++ globals) && thenBranch.acceptable globals locals &&
      Stmt.acceptableOption globals (locals ++ thenBranch.introduces) elseBranch
  | .forLoop _ init cond next body =>
    let outer := locals ++ Stmt.introducesOption init
    Stmt.acceptableOption globals locals init && cond.all (·.acceptable (outer ++ globals)) &&
      body.acceptable globals outer &&
      Stmt.acceptableOption globals (outer ++ body.introduces) next
  | .switch _ subject body =>
    subject.acceptable (locals ++ globals) && body.acceptable globals locals
  | .caseOf _ label stmts =>
    label.acceptable (locals ++ globals) && Stmt.acceptableAll globals locals stmts
  | .otherwise _ stmts => Stmt.acceptableAll globals locals stmts
  | .leave _ | .unknown .. => false
  | .empty _ => true
  | .expr _ x => x.acceptable (locals ++ globals)
termination_by structural s => s

def Stmt.acceptableAll (globals locals : List String) : List Stmt → Bool
  | [] => true
  | s :: ss => s.acceptable globals locals &&
      Stmt.acceptableAll globals (locals ++ s.introduces) ss
termination_by structural ss => ss

def Stmt.acceptableOption (globals locals : List String) : Option Stmt → Bool
  | none => true
  | some s => s.acceptable globals locals
termination_by structural s => s

end

/-- Whether a function can be lowered where some names of the module are known: its parameters and
all variables in its body have different names, and its body can be lowered. -/
def FuncDef.acceptable (globals : List String) (f : FuncDef) : Bool :=
  (f.params.map Decl.name ++ Stmt.introducesAll f.body).Nodup &&
    Stmt.acceptableAll globals (f.params.map Decl.name) f.body

namespace TopLevel

def globalName? : TopLevel → Option String
  | decl d => some d.name
  | _ => none

def functionName? : TopLevel → Option String
  | func f => some f.name
  | _ => none

def acceptable (globals : List String) : TopLevel → Bool
  | func f => f.acceptable globals
  | decl d => d.init.isNone
  | unknown .. => false

def acceptableAll (globals : List String) : List TopLevel → Bool
  | [] => true
  | t :: ts => t.acceptable globals && acceptableAll (globals ++ t.globalName?.toList) ts

end TopLevel

/-- Whether units can be lowered into one module: no variable of the module and no function is
declared twice, and every declaration can be lowered after those before it. -/
def SourceUnit.acceptableAll (units : List SourceUnit) : Bool :=
  let decls := units.flatMap SourceUnit.decls
  (decls.filterMap TopLevel.globalName?).Nodup && (decls.filterMap TopLevel.functionName?).Nodup &&
    TopLevel.acceptableAll [] decls

namespace Draft

theorem quiet_bind_iff {d : Draft} {x : Emit α} {f : α → Emit β} (hx : Keeps Grows x)
    (hf : ∀ a, Keeps Grows (f a)) :
    d.Quiet (x >>= f) ↔ d.Quiet x ∧ (d.after x).Quiet (f (d.answer x)) := by
  constructor
  · intro h
    exact h.bind hx hf
  · rintro ⟨hleft, hright⟩
    exact hright.trans hleft

theorem quiet_emit (d : Draft) (item : Item) : d.Quiet (emit item) := rfl

theorem quiet_lift_iff {d : Draft} {x : Emit α} {f : α → β} :
    d.Quiet (liftM x >>= fun a => pure (f a) : Attempt β).run ↔ d.Quiet x := Iff.rfl

/-- A step that is followed by one which never reports. -/
theorem quiet_last_iff {d : Draft} {x : Attempt α} {f : α → Attempt β}
    (hf : ∀ a (e : Draft), e.Quiet (f a).run) : d.Quiet (x >>= f).run ↔ d.Quiet x.run := by
  unfold Quiet
  rw [after_attempt_bind]
  cases d.answer x.run with
  | ok a => rw [hf a]
  | error e => exact Iff.rfl

end Draft

/-- An expression that is followed by another step reports nothing exactly if it does not, and the
step does not on its value. -/
theorem Expr.quiet_bind_iff {ctx : Context} {d : Draft} (e : Expr) {f : Value → Attempt α}
    (hf : ∀ v, Keeps Draft.Grows (f v).run) :
    d.Quiet (e.lower ctx >>= f).run ↔ d.Quiet (e.lower ctx).run ∧
      (d.after (e.lower ctx).run).Quiet (f (e.value (d.scope ctx))).run := by
  constructor
  · intro h
    obtain ⟨hexpr, hrest⟩ := h.attempt (e.lower_grows ctx) hf
    exact ⟨hexpr, hrest _ (e.lower_emits d hexpr).2.answer⟩
  · rintro ⟨hexpr, hrest⟩
    unfold Draft.Quiet at hrest ⊢
    rw [Draft.after_attempt_bind, (e.lower_emits d hexpr).2.answer, hrest]
    exact hexpr

theorem Opcode.isNone_ofOperator? (operator : String) (kind : Kind) :
    (ofOperator? operator kind).isNone = !binaryOperators.contains operator := by
  unfold ofOperator?
  repeat' split
  all_goals simp_all [binaryOperators]

theorem stepOperator?_isSome (operator : String) :
    (stepOperator? operator).isSome = stepOperators.contains operator := by
  unfold stepOperator?
  split <;> simp_all [stepOperators]

/-- A binary operation is reported exactly if its operator has no opcode. -/
theorem emitBinary_quiet_iff (ctx : Context) (d : Draft) (pos : Position) (operator : String)
    (left right : Value) :
    d.Quiet (emitBinary ctx pos operator left right) ↔ binaryOperators.contains operator = true := by
  have hnone := Opcode.isNone_ofOperator? operator (.shared left.kind right.kind)
  unfold emitBinary
  by_cases h : binaryOperators.contains operator = true
  · rw [h] at hnone
    simp only [hnone, Bool.not_true, Bool.false_eq_true, if_false, h, iff_true]
    rfl
  · rw [Bool.not_eq_true] at h
    rw [h] at hnone
    simp only [hnone, Bool.not_false, if_true, h, Bool.false_eq_true, iff_false]
    intro hquiet
    have hlength := congrArg List.length hquiet
    change (d.diagnostics ++ [_]).length = d.diagnostics.length at hlength
    simp at hlength

theorem emitStep_quiet (d : Draft) (operator : String) (target : Variable) :
    d.Quiet (emitStep operator target) := rfl

private theorem eq_iff_reversed (s t : String) : s = t ↔ s.toList.reverse = t.toList.reverse := by
  rw [List.reverse_inj, String.toList_inj]

/-- The operator of a compound assignment has an opcode exactly if the assignment's own is listed. -/
theorem contains_compoundOperator (operator : String) (h : operator ≠ "=") :
    binaryOperators.contains (compoundOperator operator) = assignmentOperators.contains operator := by
  rw [Bool.eq_iff_iff, List.contains_iff_mem, List.contains_iff_mem, assignmentOperators,
    List.cons_append, List.mem_cons, List.mem_append, or_iff_right h]
  unfold compoundOperator
  split
  · rename_i front hfront
    have hsigned : operator ∈ binaryOperators.map (· ++ "=") ↔
        String.ofList front.reverse ∈ binaryOperators := by
      simp [binaryOperators, eq_iff_reversed, hfront]
    have hbare : operator ∉ ["+", "-", "*", "/", "<"] := by
      simp [eq_iff_reversed, hfront]
    rw [hsigned, or_iff_left hbare]
  · rename_i hfront
    have hne : ∀ t : String, operator ≠ t ++ "=" := by
      rintro t rfl
      apply hfront t.toList.reverse
      simp
    have hsigned : operator ∉ binaryOperators.map (· ++ "=") := by
      intro hmem
      obtain ⟨t, -, ht⟩ := List.mem_map.mp hmem
      exact hne t ht.symm
    have hequal : operator ≠ "==" := fun h => hne "=" (h.trans (by decide))
    rw [or_iff_right hsigned]
    simp [binaryOperators, hequal]

theorem emitAssign_quiet_iff (ctx : Context) (d : Draft) (pos : Position) (operator : String)
    (target : Variable) (value : Value) :
    d.Quiet (emitAssign ctx pos operator target value) ↔
      assignmentOperators.contains operator = true := by
  unfold emitAssign
  by_cases heq : operator = "="
  · simp only [heq, if_true]
    constructor
    · intro _
      rfl
    · intro _
      rfl
  · simp only [heq, if_false]
    have hgrows := Draft.Grows.slotBlind ctx
    rw [← contains_compoundOperator operator heq,
      ← emitBinary_quiet_iff ctx d pos _ (.var target) value,
      Draft.quiet_bind_iff (hgrows.emitBinary _ _ _ _) fun _ => hgrows.emitItem _]
    exact and_iff_left (Draft.quiet_emit _ _)

def Context.globalNames (ctx : Context) : List String := ctx.globals.map Variable.source

namespace Scope

variable {σ : Scope}

def names (σ : Scope) : List String := σ.locals.map Variable.source ++ σ.ctx.globalNames

theorem mem_names_iff {name : String} : name ∈ σ.names ↔ (σ.resolve? name).isSome = true := by
  simp [names, Context.globalNames, resolve?]

def Plain (σ : Scope) : Prop := ∀ name v, σ.resolve? name = some v → v.temp = false

end Scope

/-- The value of an acceptable expression is a constant if the expression is a literal; otherwise it
is a variable, and a temporary unless the expression stands for a declared variable. -/
theorem Expr.value_of_acceptable : ∀ (e : Expr) {σ : Scope}, σ.Plain →
    e.acceptable σ.names = true → e.isLiteral = false →
    ∃ v, e.value σ = .var v ∧ v.temp = !e.isPlace
  | .binary .., σ, _, _, _ => ⟨_, rfl, rfl⟩
  | .unary _ _ operand, σ, hσ, h, _ => by
    simp only [Expr.acceptable, Bool.and_eq_true, Bool.not_eq_true'] at h
    exact operand.value_of_acceptable hσ h.1.2 h.2
  | .ident _ name, σ, hσ, h, _ => by
    rw [Expr.acceptable, List.contains_iff_mem, Scope.mem_names_iff] at h
    obtain ⟨v, hv⟩ := Option.isSome_iff_exists.mp h
    refine ⟨v, ?_, hσ name v hv⟩
    rw [Expr.value, hv]
    rfl
  | .literal .., _, _, _, h => by cases h
  | .assign _ _ target value, σ, hσ, h, _ => by
    simp only [Expr.acceptable, Bool.and_eq_true] at h
    obtain ⟨⟨⟨-, htarget⟩, hplace⟩, -⟩ := h
    have hliteral : target.isLiteral = false := by
      cases target <;> first | rfl | cases hplace
    obtain ⟨v, hv, htemp⟩ := target.value_of_acceptable (σ := σ.skip value.draws) hσ htarget hliteral
    rw [hplace] at htemp
    exact ⟨v, hv, htemp⟩
  | .call .., σ, _, _, _ => ⟨_, rfl, rfl⟩
  | .unknown .., _, _, h, _ => by cases h
termination_by structural e => e

theorem Draft.scope_plain {ctx : Context} (hctx : ctx.Plain) (d : Draft) : (d.scope ctx).Plain :=
  fun _ _ h => (hctx.resolved h).2

namespace Draft

def localNames (d : Draft) : List String := d.board.declared.map Variable.source

theorem names_scope (ctx : Context) (d : Draft) :
    (d.scope ctx).names = d.localNames ++ ctx.globalNames := rfl

end Draft

/-- An expression declares nothing. -/
theorem Expr.localNames_after {ctx : Context} {d : Draft} (e : Expr) (h : d.Quiet (e.lower ctx).run) :
    (d.after (e.lower ctx).run).localNames = d.localNames :=
  congrArg (fun σ => σ.locals.map Variable.source) (e.lower_emits d h).2.scope

def Expr.Decided (ctx : Context) (e : Expr) : Prop :=
  ∀ d : Draft, d.Quiet (e.lower ctx).run ↔ e.acceptable (d.scope ctx).names = true

namespace Expr.Decided

variable {ctx : Context} {e : Expr} {d : Draft}

theorem names_after (h : e.Decided ctx) (haccept : e.acceptable (d.scope ctx).names = true) :
    ((d.after (e.lower ctx).run).scope ctx).names = (d.scope ctx).names := by
  rw [Draft.names_scope, Draft.names_scope, e.localNames_after ((h d).mpr haccept)]

theorem bind_iff (h : e.Decided ctx) {f : Value → Attempt α}
    (hf : ∀ v, Keeps Draft.Grows (f v).run) :
    d.Quiet (e.lower ctx >>= f).run ↔ e.acceptable (d.scope ctx).names = true ∧
      (d.after (e.lower ctx).run).Quiet (f (e.value (d.scope ctx))).run := by
  rw [e.quiet_bind_iff hf, h d]

theorem binary {left right : Expr} (hl : left.Decided ctx) (hr : right.Decided ctx)
    (pos : Position) (operator : String) : (Expr.binary pos operator left right).Decided ctx := by
  intro d
  have hgrows := Draft.Grows.slotBlind ctx
  have hlast : ∀ l r, Keeps Draft.Grows
      (do return .var (← emitBinary ctx pos operator l r) : Attempt Value).run :=
    fun l r => hgrows.attempt (hgrows.emitBinary _ _ _ _).lift fun _ => hgrows.refl
  rw [Expr.lower, Expr.acceptable, Bool.and_eq_true, Bool.and_eq_true, and_assoc,
    hr.bind_iff fun r => hgrows.attempt (left.lower_grows ctx) fun l => hlast l r]
  refine and_congr_right fun hright => ?_
  rw [hl.bind_iff fun l => hlast l _, hr.names_after hright]
  refine and_congr_right fun _ => ?_
  exact Draft.quiet_lift_iff.trans (emitBinary_quiet_iff ctx _ pos operator _ _)

theorem unary {operand : Expr} (hctx : ctx.Plain) (h : operand.Decided ctx) (pos : Position)
    (operator : String) : (Expr.unary pos operator operand).Decided ctx := by
  intro d
  have hgrows := Draft.Grows.slotBlind ctx
  have hoperator := stepOperator?_isSome operator
  rw [Expr.lower, Expr.acceptable, ← hoperator]
  cases stepOperator? operator with
  | none => exact iff_of_false Draft.Quiet.not_abandon Bool.false_ne_true
  | some step =>
    rw [Option.isSome_some, Bool.true_and, Bool.and_eq_true]
    dsimp only
    rw [h.bind_iff fun v => by
      cases v with
      | var target =>
        exact hgrows.attempt (hgrows.emitStep _ _).lift fun _ => hgrows.refl
      | const c => exact hgrows.abandon _ _ _
      | unset => exact hgrows.abandon _ _ _]
    refine and_congr_right fun haccept => ?_
    by_cases hliteral : operand.isLiteral = true
    · cases operand <;> cases hliteral
      exact iff_of_false Draft.Quiet.not_abandon Bool.false_ne_true
    · rw [Bool.not_eq_true] at hliteral
      obtain ⟨v, hv, -⟩ := operand.value_of_acceptable (d.scope_plain hctx) haccept hliteral
      rw [hv, hliteral]
      exact iff_of_true (emitStep_quiet _ step v) rfl

theorem ident (ctx : Context) (pos : Position) (name : String) :
    (Expr.ident pos name).Decided ctx := by
  intro d
  rw [Expr.lower, Expr.acceptable, List.contains_iff_mem, Scope.mem_names_iff]
  unfold Draft.Quiet
  have hanswer : d.answer (liftM (Draft.resolve? ctx name) : Attempt _).run =
      .ok ((d.scope ctx).resolve? name) := rfl
  rw [Draft.after_attempt_bind, hanswer]
  cases (d.scope ctx).resolve? name with
  | none => exact iff_of_false Draft.Quiet.not_abandon Bool.false_ne_true
  | some v => exact iff_of_true rfl rfl

theorem assign {target value : Expr} (hctx : ctx.Plain) (ht : target.Decided ctx)
    (hv : value.Decided ctx) (pos : Position) (operator : String) :
    (Expr.assign pos operator target value).Decided ctx := by
  intro d
  have hgrows := Draft.Grows.slotBlind ctx
  rw [Expr.lower, Expr.acceptable, Bool.and_eq_true, Bool.and_eq_true, Bool.and_eq_true, and_assoc,
    and_assoc]
  refine (hv.bind_iff fun r => hgrows.attempt (target.lower_grows ctx)
    (store_grows ctx pos operator target.pos r)).trans (and_congr_right fun hvalue => ?_)
  refine (ht.bind_iff (store_grows ctx pos operator target.pos _)).trans ?_
  rw [hv.names_after hvalue]
  refine and_congr_right fun htarget => ?_
  by_cases hliteral : target.isLiteral = true
  · cases target <;> cases hliteral
    exact iff_of_false Draft.Quiet.not_abandon fun h => Bool.false_ne_true h.1
  · rw [Bool.not_eq_true] at hliteral
    rw [← hv.names_after hvalue] at htarget
    obtain ⟨v, hv, htemp⟩ := target.value_of_acceptable (Draft.scope_plain hctx _) htarget hliteral
    rw [hv]
    dsimp only
    cases hplace : target.isPlace with
    | false =>
      rw [htemp, hplace, if_pos (by rfl)]
      exact iff_of_false Draft.Quiet.not_abandon fun h => Bool.false_ne_true h.1
    | true =>
      rw [htemp, hplace, if_neg (by decide), eq_self, true_and]
      exact Draft.quiet_lift_iff.trans (emitAssign_quiet_iff ctx _ pos operator v _)

end Expr.Decided

mutual

/-- An expression is lowered without a report exactly if it is acceptable. -/
theorem Expr.decided {ctx : Context} (hctx : ctx.Plain) : ∀ e : Expr, e.Decided ctx
  | .binary pos operator left right => (left.decided hctx).binary (right.decided hctx) pos operator
  | .unary pos operator operand => (operand.decided hctx).unary hctx pos operator
  | .ident pos name => .ident ctx pos name
  | .literal _ type value => by
    intro d
    rw [Expr.lower]
    exact iff_of_true rfl rfl
  | .assign pos operator target value =>
    (target.decided hctx).assign hctx (value.decided hctx) pos operator
  | .call _ callee args => by
    intro d
    rw [Expr.lower, Expr.acceptable, ← Expr.decidedAll hctx args]
    exact Draft.quiet_last_iff fun _ _ => rfl
  | .unknown pos kind => by
    intro d
    rw [Expr.lower]
    exact iff_of_false Draft.Quiet.not_abandon Bool.false_ne_true
termination_by structural e => e

theorem Expr.decidedAll {ctx : Context} (hctx : ctx.Plain) : ∀ (es : List Expr) (d : Draft),
    d.Quiet (Expr.lowerAll ctx es).run ↔ Expr.acceptableAll (d.scope ctx).names es = true
  | [], d => by
    rw [Expr.lowerAll]
    exact iff_of_true rfl rfl
  | e :: es, d => by
    have hgrows := Draft.Grows.slotBlind ctx
    have hes := Expr.lowerAll_keeps hgrows.toAdmitsExprs es
    rw [Expr.lowerAll, Expr.acceptableAll, Bool.and_eq_true]
    have hrest : ∀ v, Keeps Draft.Grows
        (do return v :: (← Expr.lowerAll ctx es) : Attempt (List Value)).run :=
      fun v => hgrows.attempt hes fun _ => hgrows.refl
    refine ((e.decided hctx).bind_iff hrest).trans (and_congr_right fun he => ?_)
    rw [← (e.decided hctx).names_after he, ← Expr.decidedAll hctx es]
    exact Draft.quiet_last_iff fun _ _ => rfl
termination_by structural es => es

end

end SlotBoard
