import SlotBoard.Proofs.Layout

/-!
What an attempt to lower an expression does. Whether an expression can be lowered is read off its
syntax and the names that are known. If it can, the attempt returns the value, appends the code and
draws the numbers that the layout computes, also if an operator without an opcode is reported on the
way. If it cannot, the attempt is given up at the first part that cannot be lowered. The diagnostic it
is given up with is the last one, and what it leaves behind is the code of the parts before that one.
-/
namespace SlotBoard

variable {α β : Type}

namespace Scope

@[simp] theorem skip_skip (σ : Scope) (m n : Nat) : (σ.skip m).skip n = σ.skip (m + n) := by
  simp [skip, Nat.add_assoc]

end Scope

namespace Board

theorem declared_push_var_temp (b : Board) (v : Variable) (h : v.temp = true) :
    (b.pushValue (.var v)).declared = b.declared := by
  simp [declared, pushValue, Value.toVariable?, h]

theorem declared_push_var (b : Board) (v : Variable) (h : v.temp = false) :
    (b.pushValue (.var v)).declared = b.declared ++ [v] := by
  simp [declared, pushValue, Value.toVariable?, h]

theorem declared_push_const (b : Board) (c : Constant) :
    (b.pushValue (.const c)).declared = b.declared := by
  simp [declared, pushValue, Value.toVariable?]

end Board

namespace Draft

def scope (ctx : Context) (d : Draft) : Scope :=
  { ctx, owner := d.board.name, locals := d.board.declared, counter := d.counter }

@[simp] theorem scope_withSlots (ctx : Context) (d : Draft) (slots : List Slot) :
    (d.withSlots slots).scope ctx = d.scope ctx := rfl

/-- A step returns `a`, appends operations one to a slot and draws `n` numbers. -/
structure Emits (ctx : Context) (d : Draft) (step : Emit α) (a : α) (operations : List Operation)
    (n : Nat) : Prop where
  answer : d.answer step = a
  slots : (d.after step).board.slots = d.board.slots ++
    place d.board.slots.length (d.board.slots.length + operations.length) operations
  scope : (d.after step).scope ctx = (d.scope ctx).skip n

namespace Emits

variable {ctx : Context} {d : Draft} {xs ys : List Operation} {m n : Nat}

theorem pure (ctx : Context) (d : Draft) (a : α) : d.Emits ctx (Pure.pure a) a [] 0 :=
  ⟨rfl, by simp [place], rfl⟩

theorem size {x : Emit α} {a : α} (h : d.Emits ctx x a xs m) :
    (d.after x).board.slots.length = d.board.slots.length + xs.length := by
  rw [h.slots, List.length_append, length_place]

theorem slots_append {e f : Draft}
    (hx : e.board.slots = d.board.slots ++
      place d.board.slots.length (d.board.slots.length + xs.length) xs)
    (hy : f.board.slots = e.board.slots ++
      place e.board.slots.length (e.board.slots.length + ys.length) ys) :
    f.board.slots = d.board.slots ++
      place d.board.slots.length (d.board.slots.length + (xs ++ ys).length) (xs ++ ys) := by
  have hlength : e.board.slots.length = d.board.slots.length + xs.length := by
    rw [hx, List.length_append, length_place]
  rw [hy, hlength, hx, place_append, List.append_assoc]

theorem bind {x : Emit α} {f : α → Emit β} {a : α} {b : β} {zs : List Operation} {k : Nat}
    (hx : d.Emits ctx x a xs m) (hf : (d.after x).Emits ctx (f a) b ys n)
    (hzs : zs = xs ++ ys) (hk : k = m + n) : d.Emits ctx (x >>= f) b zs k where
  answer := by rw [answer_bind, hx.answer, hf.answer]
  slots := by
    rw [after_bind, hx.answer, hzs]
    exact slots_append hx.slots hf.slots
  scope := by rw [after_bind, hx.answer, hf.scope, hx.scope, Scope.skip_skip, hk]

/-- What follows an attempt that succeeds. -/
theorem attempt {x : Attempt α} {f : α → Attempt β} {a : α} {b : Except Diagnostic β}
    {zs : List Operation} {k : Nat} (hx : d.Emits ctx x.run (.ok a) xs m)
    (hf : (d.after x.run).Emits ctx (f a).run b ys n) (hzs : zs = xs ++ ys) (hk : k = m + n) :
    d.Emits ctx (x >>= f).run b zs k where
  answer := by
    rw [answer_attempt_bind, hx.answer]
    exact hf.answer
  slots := by
    rw [after_attempt_bind, hx.answer, hzs]
    exact slots_append hx.slots hf.slots
  scope := by rw [after_attempt_bind, hx.answer, hf.scope, hx.scope, Scope.skip_skip, hk]

theorem lift {x : Emit α} {a : α} (hx : d.Emits ctx x a xs m) :
    d.Emits ctx (liftM x : Attempt α).run (.ok a) xs m :=
  ⟨congrArg Except.ok hx.answer, hx.slots, hx.scope⟩

theorem emit (ctx : Context) (d : Draft) {operation : Operation} (h : operation.computes = true) :
    d.Emits ctx (Draft.emit ⟨operation, []⟩) () [operation] 0 where
  answer := rfl
  slots := by
    rw [after_emit, slots_withSlots, Slot.push_straight _ _ (Operation.branches_of_computes h)]
    rfl
  scope := rfl

theorem temporary (ctx : Context) (d : Draft) (stem : String) (kind : Kind) :
    d.Emits ctx (newTemporary ctx stem kind) ((d.scope ctx).temporary stem kind) [] 1 where
  answer := rfl
  slots := (List.append_nil _).symm
  scope := congrArg (Scope.mk ctx d.board.name · (d.counter + 1))
    (d.board.declared_push_var_temp _ rfl)

theorem constant (ctx : Context) (d : Draft) (kind : Kind) (literal : String) :
    d.Emits ctx (newConstant kind literal) ((d.scope ctx).constant kind literal) [] 1 where
  answer := rfl
  slots := (List.append_nil _).symm
  scope := congrArg (Scope.mk ctx d.board.name · (d.counter + 1)) (d.board.declared_push_const _)

theorem resolve? (ctx : Context) (d : Draft) (name : String) :
    d.Emits ctx (Draft.resolve? ctx name) ((d.scope ctx).resolve? name) [] 0 :=
  ⟨rfl, (List.append_nil _).symm, rfl⟩

/-- A report writes nothing to the board. -/
theorem report (ctx : Context) (d : Draft) (kind : DiagnosticKind) (pos : Position)
    (message : String) : d.Emits ctx (discard (Draft.report kind pos message)) () [] 0 :=
  ⟨rfl, (List.append_nil _).symm, rfl⟩

theorem emitResult (ctx : Context) (d : Draft) {operation : Operation} (a : α)
    (h : operation.computes = true) :
    d.Emits ctx (do Draft.emit ⟨operation, []⟩; return a) a [operation] 0 :=
  (emit ctx d h).bind (pure ctx _ a) rfl rfl

end Emits

def Rejects (d : Draft) (x : Attempt α) : Prop :=
  ∃ fault front, d.answer x.run = .error fault ∧ d.diagnostics <+: front ∧
    (d.after x.run).diagnostics = front ++ [fault]

/-- An attempt is given up, having appended operations and drawn `n` numbers. The diagnostic that it is
given up with is the last one there is. -/
def Fails (ctx : Context) (d : Draft) (x : Attempt α) (operations : List Operation) (n : Nat) : Prop :=
  ∃ fault, d.Emits ctx x.run (.error fault) operations n ∧
    ∃ front, d.diagnostics <+: front ∧ (d.after x.run).diagnostics = front ++ [fault]

namespace Fails

variable {ctx : Context} {d : Draft} {xs ys : List Operation} {m n : Nat}

theorem abandon (ctx : Context) (d : Draft) (kind : DiagnosticKind) (pos : Position)
    (message : String) : d.Fails ctx (abandon kind pos message : Attempt α) [] 0 :=
  ⟨_, ⟨rfl, (List.append_nil _).symm, rfl⟩, d.diagnostics, List.prefix_refl _, rfl⟩

/-- An attempt is given up with its first part. -/
theorem first {x : Attempt α} (h : d.Fails ctx x xs m) (f : α → Attempt β) :
    d.Fails ctx (x >>= f) xs m := by
  obtain ⟨fault, hx, hfront⟩ := h
  have hafter : d.after (x >>= f).run = d.after x.run := by
    rw [after_attempt_bind, hx.answer]
  refine ⟨fault, ⟨?_, ?_, ?_⟩, ?_⟩
  · rw [answer_attempt_bind, hx.answer]
  · rw [hafter, hx.slots]
  · rw [hafter, hx.scope]
  · rwa [hafter]

/-- An attempt is given up in its second part. -/
theorem second {x : Attempt α} {f : α → Attempt β} {a : α} {zs : List Operation} {k : Nat}
    (hx : d.Emits ctx x.run (.ok a) xs m) (hgrows : Keeps Grows x.run)
    (hf : (d.after x.run).Fails ctx (f a) ys n) (hzs : zs = xs ++ ys) (hk : k = m + n) :
    d.Fails ctx (x >>= f) zs k := by
  obtain ⟨fault, hemits, front, hfront, hlast⟩ := hf
  refine ⟨fault, hx.attempt hemits hzs hk, front, (hgrows d).diagnostics.trans hfront, ?_⟩
  rw [after_attempt_bind, hx.answer]
  exact hlast

theorem rejects {x : Attempt α} (h : d.Fails ctx x xs m) : d.Rejects x := by
  obtain ⟨fault, hx, front, hfront, hlast⟩ := h
  exact ⟨fault, front, hx.answer, hfront, hlast⟩

/-- An attempt that is given up does not go without a report. -/
theorem not_quiet {x : Attempt α} (h : d.Fails ctx x xs m) : ¬ d.Quiet x.run := by
  obtain ⟨fault, -, front, hfront, hlast⟩ := h
  intro hquiet
  have hlength := congrArg List.length (hlast.symm.trans hquiet)
  rw [List.length_append, List.length_singleton] at hlength
  have hle := hfront.length_le
  omega

end Fails
end Draft

section Writes

variable (ctx : Context) (d : Draft)

theorem emitBinary_emits (pos : Position) (operator : String) (left right : Value) :
    d.Emits ctx (emitBinary ctx pos operator left right) ((d.scope ctx).result operator left right)
      [(d.scope ctx).computation operator left right] 1 := by
  have htemp := Draft.Emits.temporary ctx d "binary_op"
    (if (Opcode.ofOperator operator (.shared left.kind right.kind)).isComparison then .boolean
      else .shared left.kind right.kind)
  unfold emitBinary
  by_cases hnone : (Opcode.ofOperator? operator (.shared left.kind right.kind)).isNone = true
  · simp only [hnone, if_true]
    exact htemp.bind ((Draft.Emits.report ctx _ _ _ _).bind (.emitResult ctx _ _ rfl) rfl rfl) rfl rfl
  · simp only [hnone, Bool.false_eq_true, if_false]
    exact htemp.bind (.emitResult ctx _ _ rfl) rfl rfl

theorem emitStep_emits {operator step : String} (target : Variable)
    (hstep : stepOperator? operator = some step) :
    d.Emits ctx (emitStep step target) () [(d.scope ctx).increment operator target] 1 := by
  have hoperation : (d.scope ctx).increment operator target =
      .binary (.ofOperator step (.shared target.kind .int)) (.var target)
        (.const ((d.scope ctx).constant .int "1")) target := by
    rw [Scope.increment, hstep]
    rfl
  rw [hoperation]
  exact (Draft.Emits.constant ctx d .int "1").bind (Draft.Emits.emit ctx _ rfl) rfl rfl

theorem emitAssign_emits (pos : Position) (operator : String) (target : Variable) (value : Value) :
    d.Emits ctx (emitAssign ctx pos operator target value) ()
      ((d.scope ctx).assignment operator target value) (if operator = "=" then 0 else 1) := by
  unfold emitAssign Scope.assignment
  by_cases heq : operator = "="
  · simp only [heq, if_true]
    exact Draft.Emits.emit ctx d rfl
  · simp only [heq, if_false]
    exact (emitBinary_emits ctx d pos _ _ _).bind (Draft.Emits.emit ctx _ rfl) rfl rfl

theorem emitCall_emits (callee : String) (args : List Value) :
    d.Emits ctx (emitCall ctx callee args) ((d.scope ctx).callResult callee)
      [.call callee args ((d.scope ctx).callResult callee)] 1 :=
  (Draft.Emits.temporary ctx d "call" _).bind (Draft.Emits.emitResult ctx _ _ rfl) rfl rfl

end Writes

namespace Value

def isVariable : Value → Bool
  | var _ => true
  | _ => false

def isDeclared : Value → Bool
  | var v => !v.temp
  | _ => false

end Value

mutual

/-- Whether an expression can be lowered: its names refer to variables, it steps variables only and
assigns only to declared ones, and there is a rule for every part of it. -/
def Expr.lowers (σ : Scope) : Expr → Bool
  | .binary _ _ left right => right.lowers σ && left.lowers (σ.skip right.draws)
  | .unary _ operator operand =>
    (stepOperator? operator).isSome && operand.lowers σ && (operand.value σ).isVariable
  | .ident _ name => (σ.resolve? name).isSome
  | .literal .. => true
  | .assign _ _ target value =>
    value.lowers σ && target.lowers (σ.skip value.draws) &&
      (target.value (σ.skip value.draws)).isDeclared
  | .call _ _ args => Expr.lowersAll σ args
  | .unknown .. => false
termination_by structural e => e

def Expr.lowersAll (σ : Scope) : List Expr → Bool
  | [] => true
  | e :: es => e.lowers σ && Expr.lowersAll (σ.skip e.draws) es
termination_by structural es => es

end

mutual

/-- The parts of an expression that are lowered before the first one that cannot be, in the order of
their lowering. -/
def Expr.prior (σ : Scope) : Expr → List Expr
  | .binary _ _ left right =>
    if right.lowers σ then right :: left.prior (σ.skip right.draws) else right.prior σ
  | .unary _ operator operand =>
    if (stepOperator? operator).isNone then []
    else if operand.lowers σ then [operand] else operand.prior σ
  | .assign _ _ target value =>
    if value.lowers σ then
      value :: if target.lowers (σ.skip value.draws) then [target]
        else target.prior (σ.skip value.draws)
    else value.prior σ
  | .call _ _ args => Expr.priorAll σ args
  | .ident .. | .literal .. | .unknown .. => []
termination_by structural e => e

def Expr.priorAll (σ : Scope) : List Expr → List Expr
  | [] => []
  | e :: es => if e.lowers σ then e :: Expr.priorAll (σ.skip e.draws) es else e.prior σ
termination_by structural es => es

end

/-- An attempt does what the layout says if the expression can be lowered; otherwise it is given up
behind the parts that come before the one that cannot be. -/
structure Expr.Attempts (ctx : Context) (e : Expr) : Prop where
  emits : ∀ d : Draft, e.lowers (d.scope ctx) = true →
    d.Emits ctx (e.lower ctx).run (.ok (e.value (d.scope ctx))) (e.code (d.scope ctx)) e.draws
  fails : ∀ d : Draft, e.lowers (d.scope ctx) = false →
    d.Fails ctx (e.lower ctx) (Expr.codeAll (d.scope ctx) (e.prior (d.scope ctx)))
      (Expr.drawsAll (e.prior (d.scope ctx)))

/-- The same for expressions in a row. -/
structure Expr.AttemptsAll (ctx : Context) (es : List Expr) : Prop where
  emits : ∀ d : Draft, Expr.lowersAll (d.scope ctx) es = true →
    d.Emits ctx (Expr.lowerAll ctx es).run (.ok (Expr.valueAll (d.scope ctx) es))
      (Expr.codeAll (d.scope ctx) es) (Expr.drawsAll es)
  fails : ∀ d : Draft, Expr.lowersAll (d.scope ctx) es = false →
    d.Fails ctx (Expr.lowerAll ctx es) (Expr.codeAll (d.scope ctx) (Expr.priorAll (d.scope ctx) es))
      (Expr.drawsAll (Expr.priorAll (d.scope ctx) es))

namespace Expr.Attempts

variable {ctx : Context}

/-- The second of two parts is attempted in the scope that the first one leaves. -/
theorem emits_after {e : Expr} (h : e.Attempts ctx) {d : Draft} {x : Emit α} {a : α}
    {xs : List Operation} {m : Nat} (hx : d.Emits ctx x a xs m)
    (hlowers : e.lowers ((d.scope ctx).skip m) = true) :
    (d.after x).Emits ctx (e.lower ctx).run (.ok (e.value ((d.scope ctx).skip m)))
      (e.code ((d.scope ctx).skip m)) e.draws := by
  rw [← hx.scope] at hlowers ⊢
  exact h.emits _ hlowers

theorem fails_after {e : Expr} (h : e.Attempts ctx) {d : Draft} {x : Emit α} {a : α}
    {xs : List Operation} {m : Nat} (hx : d.Emits ctx x a xs m)
    (hlowers : e.lowers ((d.scope ctx).skip m) = false) :
    (d.after x).Fails ctx (e.lower ctx)
      (Expr.codeAll ((d.scope ctx).skip m) (e.prior ((d.scope ctx).skip m)))
      (Expr.drawsAll (e.prior ((d.scope ctx).skip m))) := by
  rw [← hx.scope] at hlowers ⊢
  exact h.fails _ hlowers

theorem binary {left right : Expr} (hl : left.Attempts ctx) (hr : right.Attempts ctx)
    (pos : Position) (operator : String) : (Expr.binary pos operator left right).Attempts ctx := by
  refine ⟨fun d h => ?_, fun d h => ?_⟩
  · rw [Expr.lowers, Bool.and_eq_true] at h
    have hright := hr.emits d h.1
    have hleft := hl.emits_after hright h.2
    have hresult := (emitBinary_emits ctx ((d.after (right.lower ctx).run).after (left.lower ctx).run)
      pos operator (left.value ((d.scope ctx).skip right.draws)) (right.value (d.scope ctx))).lift
    rw [hleft.scope, hright.scope, Scope.skip_skip] at hresult
    rw [Expr.lower, Expr.code, Expr.draws, Expr.value]
    refine hright.attempt (hleft.attempt (hresult.attempt (.pure ctx _ _) rfl rfl) rfl rfl) ?_ ?_
    · simp
    · simp [Nat.add_assoc]
  · rw [Expr.lower, Expr.prior]
    by_cases hright : right.lowers (d.scope ctx) = true
    · rw [Expr.lowers, hright, Bool.true_and] at h
      rw [if_pos hright]
      have hemits := hr.emits d hright
      exact .second hemits (right.lower_grows ctx) ((hl.fails_after hemits h).first _) rfl rfl
    · rw [if_neg hright]
      exact (hr.fails d (Bool.eq_false_iff.mpr hright)).first _

theorem unary {operand : Expr} (ho : operand.Attempts ctx) (pos : Position) (operator : String) :
    (Expr.unary pos operator operand).Attempts ctx := by
  refine ⟨fun d h => ?_, fun d h => ?_⟩
  · rw [Expr.lowers, Bool.and_eq_true, Bool.and_eq_true] at h
    obtain ⟨⟨hsome, hlowers⟩, hvariable⟩ := h
    obtain ⟨step, hstep⟩ := Option.isSome_iff_exists.mp hsome
    have hoperand := ho.emits d hlowers
    rw [Expr.lower, hstep, Expr.code, Expr.value, Expr.draws]
    cases hvalue : operand.value (d.scope ctx) with
    | const c => rw [hvalue] at hvariable; cases hvariable
    | unset => rw [hvalue] at hvariable; cases hvariable
    | var target =>
      have hs := (emitStep_emits ctx (d.after (operand.lower ctx).run) target hstep).lift
      rw [hoperand.scope] at hs
      rw [hvalue] at hoperand
      exact hoperand.attempt (hs.attempt (.pure ctx _ _) rfl rfl) rfl rfl
  · rw [Expr.lower, Expr.prior]
    cases hstep : stepOperator? operator with
    | none => exact .abandon ctx d _ _ _
    | some step =>
      rw [Option.isNone_some, if_neg Bool.false_ne_true]
      by_cases hlowers : operand.lowers (d.scope ctx) = true
      · rw [Expr.lowers, hstep, hlowers, Option.isSome_some, Bool.true_and, Bool.true_and] at h
        rw [if_pos hlowers]
        have hoperand := ho.emits d hlowers
        cases hvalue : operand.value (d.scope ctx) with
        | var target => rw [hvalue] at h; cases h
        | const c =>
          rw [hvalue] at hoperand
          exact .second hoperand (operand.lower_grows ctx) (.abandon ctx _ _ _ _) rfl rfl
        | unset =>
          rw [hvalue] at hoperand
          exact .second hoperand (operand.lower_grows ctx) (.abandon ctx _ _ _ _) rfl rfl
      · rw [if_neg hlowers]
        exact (ho.fails d (Bool.eq_false_iff.mpr hlowers)).first _

theorem ident (ctx : Context) (pos : Position) (name : String) :
    (Expr.ident pos name).Attempts ctx := by
  refine ⟨fun d h => ?_, fun d h => ?_⟩
  · obtain ⟨v, hv⟩ := Option.isSome_iff_exists.mp h
    have hresolve := (Draft.Emits.resolve? ctx d name).lift
    rw [hv] at hresolve
    rw [Expr.lower, Expr.value, hv]
    exact hresolve.attempt (.pure ctx _ _) rfl rfl
  · have hresolve := (Draft.Emits.resolve? ctx d name).lift
    rw [Option.isNone_iff_eq_none.mp (Option.isSome_eq_false_iff.mp h)] at hresolve
    rw [Expr.lower]
    exact .second hresolve (fun _ => .refl _) (.abandon ctx _ _ _ _) rfl rfl

theorem assign {target value : Expr} (ht : target.Attempts ctx) (hv : value.Attempts ctx)
    (pos : Position) (operator : String) : (Expr.assign pos operator target value).Attempts ctx := by
  refine ⟨fun d h => ?_, fun d h => ?_⟩
  · rw [Expr.lowers, Bool.and_eq_true, Bool.and_eq_true] at h
    obtain ⟨⟨hvalue, htarget⟩, hdeclared⟩ := h
    have hr := hv.emits d hvalue
    have hl := ht.emits_after hr htarget
    rw [Expr.lower, Expr.code, Expr.value, Expr.draws]
    cases hv : target.value ((d.scope ctx).skip value.draws) with
    | const c => rw [hv] at hdeclared; cases hdeclared
    | unset => rw [hv] at hdeclared; cases hdeclared
    | var v =>
      rw [hv] at hl hdeclared
      obtain ⟨name, kind, source, owner, flags, temp⟩ := v
      cases temp with
      | true => cases hdeclared
      | false =>
        have ha := (emitAssign_emits ctx
          ((d.after (value.lower ctx).run).after (target.lower ctx).run) pos operator
          ⟨name, kind, source, owner, flags, false⟩ (value.value (d.scope ctx))).lift
        rw [hl.scope, hr.scope, Scope.skip_skip] at ha
        have hs := ha.attempt
          (f := fun _ => pure (Value.var ⟨name, kind, source, owner, flags, false⟩))
          (.pure ctx _ _) rfl rfl
        refine hr.attempt (hl.attempt hs rfl rfl) ?_ ?_
        · simp [Value.target]
        · simp [Nat.add_assoc]
  · rw [Expr.lower, Expr.prior]
    by_cases hvalue : value.lowers (d.scope ctx) = true
    · have hr := hv.emits d hvalue
      rw [Expr.lowers, hvalue, Bool.true_and] at h
      rw [if_pos hvalue]
      refine .second hr (value.lower_grows ctx) ?_ rfl rfl
      by_cases htarget : target.lowers ((d.scope ctx).skip value.draws) = true
      · rw [htarget, Bool.true_and] at h
        rw [if_pos htarget]
        have hl := ht.emits_after hr htarget
        refine .second hl (target.lower_grows ctx) ?_ rfl rfl
        cases hv : target.value ((d.scope ctx).skip value.draws) with
        | var v =>
          rw [hv] at h
          have htemp : v.temp = true := by simpa [Value.isDeclared] using h
          dsimp only
          rw [htemp, if_pos rfl]
          exact .abandon ctx _ _ _ _
        | const c => exact .abandon ctx _ _ _ _
        | unset => exact .abandon ctx _ _ _ _
      · rw [if_neg htarget]
        exact (ht.fails_after hr (Bool.eq_false_iff.mpr htarget)).first _
    · rw [if_neg hvalue]
      exact (hv.fails d (Bool.eq_false_iff.mpr hvalue)).first _

end Expr.Attempts

mutual

/-- What an attempt to lower an expression does. -/
theorem Expr.attempts (ctx : Context) : ∀ e : Expr, e.Attempts ctx
  | .binary pos operator left right => (left.attempts ctx).binary (right.attempts ctx) pos operator
  | .unary pos operator operand => (operand.attempts ctx).unary pos operator
  | .ident pos name => .ident ctx pos name
  | .literal _ type value => by
    refine ⟨fun d _ => ?_, nofun⟩
    rw [Expr.lower]
    exact (Draft.Emits.constant ctx d _ _).lift.attempt (.pure ctx _ _) rfl rfl
  | .assign pos operator target value =>
    (target.attempts ctx).assign (value.attempts ctx) pos operator
  | .call _ callee args => by
    refine ⟨fun d h => ?_, fun d h => ?_⟩
    · have hargs := (Expr.attemptsAll ctx args).emits d h
      have hc := (emitCall_emits ctx (d.after (Expr.lowerAll ctx args).run) callee
        (Expr.valueAll (d.scope ctx) args)).lift
      rw [hargs.scope] at hc
      rw [Expr.lower, Expr.code, Expr.value, Expr.draws]
      exact hargs.attempt (hc.attempt (.pure ctx _ _) rfl rfl) (by simp) rfl
    · rw [Expr.lower, Expr.prior]
      exact ((Expr.attemptsAll ctx args).fails d h).first _
  | .unknown pos kind => by
    refine ⟨nofun, fun d _ => ?_⟩
    rw [Expr.lower]
    exact .abandon ctx d _ _ _
termination_by structural e => e

theorem Expr.attemptsAll (ctx : Context) : ∀ es : List Expr, Expr.AttemptsAll ctx es
  | [] => by
    refine ⟨fun d _ => ?_, nofun⟩
    rw [Expr.lowerAll]
    exact .pure ctx d _
  | e :: es => by
    have he := e.attempts ctx
    have hes := Expr.attemptsAll ctx es
    refine ⟨fun d h => ?_, fun d h => ?_⟩
    · rw [Expr.lowersAll, Bool.and_eq_true] at h
      have hhead := he.emits d h.1
      rw [← hhead.scope] at h
      have htail := hes.emits _ h.2
      rw [hhead.scope] at htail
      rw [Expr.lowerAll, Expr.codeAll, Expr.drawsAll, Expr.valueAll]
      exact hhead.attempt (htail.attempt (.pure ctx _ _) rfl rfl) (by simp) rfl
    · rw [Expr.lowerAll, Expr.priorAll]
      by_cases hlowers : e.lowers (d.scope ctx) = true
      · have hhead := he.emits d hlowers
        rw [Expr.lowersAll, hlowers, Bool.true_and, ← hhead.scope] at h
        have htail := hes.fails _ h
        rw [hhead.scope] at htail
        rw [if_pos hlowers]
        exact .second hhead (e.lower_grows ctx) (htail.first _) rfl rfl
      · rw [if_neg hlowers]
        exact (he.fails d (Bool.eq_false_iff.mpr hlowers)).first _
termination_by structural es => es

end

/-- An attempt fails only if the expression cannot be lowered, and then as the layout says. -/
theorem Expr.fails_of_error {ctx : Context} {e : Expr} {d : Draft} {fault : Diagnostic}
    (h : d.answer (e.lower ctx).run = .error fault) :
    d.Fails ctx (e.lower ctx) (Expr.codeAll (d.scope ctx) (e.prior (d.scope ctx)))
      (Expr.drawsAll (e.prior (d.scope ctx))) := by
  cases hlowers : e.lowers (d.scope ctx) with
  | false => exact (e.attempts ctx).fails d hlowers
  | true =>
    have hanswer := ((e.attempts ctx).emits d hlowers).answer
    rw [h] at hanswer
    cases hanswer

/-- An attempt succeeds only if the expression can be lowered, and then with the value that the layout
computes. -/
theorem Expr.value_of_ok {ctx : Context} {e : Expr} {d : Draft} {v : Value}
    (h : d.answer (e.lower ctx).run = .ok v) :
    e.lowers (d.scope ctx) = true ∧ v = e.value (d.scope ctx) := by
  cases hlowers : e.lowers (d.scope ctx) with
  | true =>
    have hanswer := ((e.attempts ctx).emits d hlowers).answer
    exact ⟨rfl, Except.ok.inj (h.symm.trans hanswer)⟩
  | false =>
    obtain ⟨fault, hemits, -⟩ := (e.attempts ctx).fails d hlowers
    cases h.symm.trans hemits.answer

end SlotBoard
