import SlotBoard.Proofs.Attempts

/-!
Expressions that are lowered without a report. Such a step has met no name that does not resolve and
no construct without a rule, so the value it returns, the slots it appends and the numbers it draws
are those that the layout computes from the syntax.
-/
namespace SlotBoard

variable {α β : Type}

mutual

def Expr.Scoped (σ : Scope) : Expr → Prop
  | .binary _ _ left right => right.Scoped σ ∧ left.Scoped (σ.skip right.draws)
  | .unary _ _ operand => operand.Scoped σ
  | .ident _ name => ∃ v, σ.resolve? name = some v
  | .literal .. | .unknown .. => True
  | .assign _ _ target value => value.Scoped σ ∧ target.Scoped (σ.skip value.draws)
  | .call _ _ args => Expr.ScopedAll σ args
termination_by structural e => e

def Expr.ScopedAll (σ : Scope) : List Expr → Prop
  | [] => True
  | e :: es => e.Scoped σ ∧ Expr.ScopedAll (σ.skip e.draws) es
termination_by structural es => es

end

mutual

/-- An expression that can be lowered has no name that does not resolve. -/
theorem Expr.scoped_of_lowers : ∀ (e : Expr) (σ : Scope), e.lowers σ = true → e.Scoped σ
  | .binary _ _ left right, σ, h => by
    rw [Expr.lowers, Bool.and_eq_true] at h
    exact ⟨right.scoped_of_lowers σ h.1, left.scoped_of_lowers _ h.2⟩
  | .unary _ _ operand, σ, h => by
    rw [Expr.lowers, Bool.and_eq_true, Bool.and_eq_true] at h
    exact operand.scoped_of_lowers σ h.1.2
  | .ident .., _, h => Option.isSome_iff_exists.mp h
  | .literal .., _, _ | .unknown .., _, _ => trivial
  | .assign _ _ target value, σ, h => by
    rw [Expr.lowers, Bool.and_eq_true, Bool.and_eq_true] at h
    exact ⟨value.scoped_of_lowers σ h.1.1, target.scoped_of_lowers _ h.1.2⟩
  | .call _ _ args, σ, h => Expr.scopedAll_of_lowersAll args σ h
termination_by structural e => e

theorem Expr.scopedAll_of_lowersAll : ∀ (es : List Expr) (σ : Scope),
    Expr.lowersAll σ es = true → Expr.ScopedAll σ es
  | [], _, _ => trivial
  | e :: es, σ, h => by
    rw [Expr.lowersAll, Bool.and_eq_true] at h
    exact ⟨e.scoped_of_lowers σ h.1, Expr.scopedAll_of_lowersAll es _ h.2⟩
termination_by structural es => es

end

namespace Draft.Quiet

theorem bind {d : Draft} {x : Emit α} {f : α → Emit β} (h : d.Quiet (x >>= f))
    (hx : Keeps Grows x) (hf : ∀ a, Keeps Grows (f a)) :
    d.Quiet x ∧ (d.after x).Quiet (f (d.answer x)) :=
  (hx d).quiet_parts (hf _ _) h

theorem attempt {d : Draft} {x : Attempt α} {f : α → Attempt β} (h : d.Quiet (x >>= f).run)
    (hx : Keeps Grows x.run) (hf : ∀ a, Keeps Grows (f a).run) :
    d.Quiet x.run ∧ ∀ a, d.answer x.run = .ok a → (d.after x.run).Quiet (f a).run := by
  unfold Quiet at h
  rw [after_attempt_bind] at h
  cases hanswer : d.answer x.run with
  | error e =>
    rw [hanswer] at h
    exact ⟨h, fun a ha => by cases ha⟩
  | ok a =>
    rw [hanswer] at h
    obtain ⟨hleft, hright⟩ := (hx d).quiet_parts (hf a _) h
    refine ⟨hleft, fun b hb => ?_⟩
    cases hb
    exact hright

theorem not_report {d : Draft} {kind : DiagnosticKind} {pos : Position} {message : String} :
    ¬ d.Quiet (report kind pos message) := by
  intro h
  have hlength := congrArg List.length h
  change (d.diagnostics ++ [_]).length = d.diagnostics.length at hlength
  simp at hlength

theorem not_abandon {d : Draft} {kind : DiagnosticKind} {pos : Position} {message : String} :
    ¬ d.Quiet (abandon kind pos message : Attempt α).run :=
  fun h => not_report (d := d) h

end Draft.Quiet

/-- What an assignment does once it has lowered its value and its target. -/
theorem store_grows (ctx : Context) (pos : Position) (operator : String) (targetPos : Position)
    (r v : Value) : Keeps Draft.Grows (match v with
      | .var v =>
        if v.temp then Draft.abandon .unsupported targetPos "assignment target is not a variable"
        else do
          emitAssign ctx pos operator v r
          return .var v
      | _ => Draft.abandon .unsupported targetPos "assignment target is not a variable" :
        Attempt Value).run := by
  have hgrows := Draft.Grows.slotBlind ctx
  cases v with
  | var v =>
    dsimp only
    split
    · exact hgrows.abandon _ _ _
    · exact hgrows.attempt (hgrows.emitAssign _ _ _ _).lift fun _ => hgrows.refl
  | const c => exact hgrows.abandon _ _ _
  | unset => exact hgrows.abandon _ _ _

/-- An expression does in a draft what the layout says, if it reports nothing. -/
def Expr.Emits (ctx : Context) (e : Expr) : Prop :=
  ∀ d : Draft, d.Quiet (e.lower ctx).run → e.Scoped (d.scope ctx) ∧
    d.Emits ctx (e.lower ctx).run (.ok (e.value (d.scope ctx))) (e.code (d.scope ctx)) e.draws

/-- An attempt that reports nothing is not given up. -/
theorem Expr.lowers_of_quiet {ctx : Context} {e : Expr} {d : Draft} (h : d.Quiet (e.lower ctx).run) :
    e.lowers (d.scope ctx) = true := by
  cases hlowers : e.lowers (d.scope ctx) with
  | true => rfl
  | false => exact absurd h ((e.attempts ctx).fails d hlowers).not_quiet

/-- An expression that is lowered without a report: its names resolve, and its value, its code and
the numbers it draws are those of the layout. -/
theorem Expr.lower_emits {ctx : Context} (e : Expr) : e.Emits ctx := by
  intro d h
  have hlowers := Expr.lowers_of_quiet h
  exact ⟨e.scoped_of_lowers _ hlowers, (e.attempts ctx).emits d hlowers⟩

end SlotBoard
