import SlotBoard.Proofs.Operands

/-!
How an attempt to lower an expression ends. Operators without an opcode are reported as warnings on the
way and do not stop it. It either returns a value that the board or the module holds, and has reported
nothing but warnings; or it is given up with a fault, which is the last thing it has reported and the
only one that is not a warning.
-/
namespace SlotBoard

variable {α β : Type}

def Diagnostic.isFault (x : Diagnostic) : Bool := x.kind ≠ .unsupportedOperator

namespace Draft

/-- An attempt adds warnings, and then it returns a value as `Q` says or is given up with a fault, which
it has added last. -/
def Ends (d : Draft) (x : Attempt α) (Q : Draft → α → Prop) : Prop :=
  ∃ warnings : List Diagnostic, (∀ w ∈ warnings, w.kind = .unsupportedOperator) ∧
    match d.answer x.run with
    | .ok a => (d.after x.run).diagnostics = d.diagnostics ++ warnings ∧ Q (d.after x.run) a
    | .error fault => (d.after x.run).diagnostics = d.diagnostics ++ warnings ++ [fault] ∧
        (fault.kind = .unsupported ∨ fault.kind = .unresolved)

namespace Ends

variable {d : Draft} {P : Draft → α → Prop} {Q : Draft → β → Prop}

theorem pure {a : α} (h : P d a) : d.Ends (Pure.pure a) P :=
  ⟨[], nofun, (List.append_nil _).symm, h⟩

theorem abandon {kind : DiagnosticKind} (pos : Position) (message : String)
    (h : kind = .unsupported ∨ kind = .unresolved) : d.Ends (abandon kind pos message) P :=
  ⟨[], nofun, congrArg (· ++ _) (List.append_nil _).symm, h⟩

theorem bind {x : Attempt α} {f : α → Attempt β} (hx : d.Ends x P)
    (hf : ∀ a, P (d.after x.run) a → (d.after x.run).Ends (f a) Q) : d.Ends (x >>= f) Q := by
  obtain ⟨warnings, hwarnings, hx⟩ := hx
  unfold Ends
  rw [after_attempt_bind, answer_attempt_bind]
  cases hanswer : d.answer x.run with
  | error fault =>
    rw [hanswer] at hx
    exact ⟨warnings, hwarnings, hx⟩
  | ok a =>
    rw [hanswer] at hx
    obtain ⟨more, hmore, hf⟩ := hf a hx.2
    refine ⟨warnings ++ more, List.forall_mem_append.mpr ⟨hwarnings, hmore⟩, ?_⟩
    rwa [hx.1, List.append_assoc] at hf

/-- A step that always finishes and reports nothing. -/
theorem lift {x : Emit α} (hquiet : d.Quiet x) (hanswer : P (d.after x) (d.answer x)) :
    d.Ends (liftM x : Attempt α) P :=
  ⟨[], nofun, hquiet.trans (List.append_nil _).symm, hanswer⟩

end Ends

def Holds (ctx : Context) (d : Draft) (value : Value) : Prop := d.Knows ctx value ∧ value ≠ .unset

theorem Holds.last {ctx : Context} {d : Draft} {values : List Value} {value : Value}
    (h : d.board.values = values ++ [value]) (hvalue : value ≠ .unset) : d.Holds ctx value := by
  refine ⟨Or.inl ?_, hvalue⟩
  rw [h]
  exact List.mem_append_right _ List.mem_cons_self

theorem Grows.holds {ctx : Context} {d e : Draft} (h : d.Grows e) {value : Value}
    (hvalue : d.Holds ctx value) : e.Holds ctx value :=
  ⟨h.knows hvalue.1, hvalue.2⟩

section Writes

variable (ctx : Context) (d : Draft)

theorem emitBinary_ends (pos : Position) (operator : String) (left right : Value) :
    d.Ends (liftM (emitBinary ctx pos operator left right) : Attempt Variable)
      fun e v => e.Holds ctx (.var v) := by
  unfold emitBinary
  by_cases hnone : (Opcode.ofOperator? operator (.shared left.kind right.kind)).isNone = true
  · simp only [hnone, if_true]
    exact ⟨[_], List.forall_mem_singleton.mpr rfl, rfl, .last rfl nofun⟩
  · simp only [hnone, Bool.false_eq_true, if_false]
    exact .lift rfl (.last rfl nofun)

theorem emitStep_ends (operator : String) {target : Variable} (h : d.Holds ctx (.var target)) :
    d.Ends (liftM (emitStep operator target) : Attempt Unit) fun e _ => e.Holds ctx (.var target) :=
  .lift rfl (((Grows.slotBlind ctx).emitStep operator target d).holds h)

theorem emitAssign_ends (pos : Position) (operator : String) {target : Variable} (value : Value)
    (h : d.Holds ctx (.var target)) :
    d.Ends (liftM (emitAssign ctx pos operator target value) : Attempt Unit)
      fun e _ => e.Holds ctx (.var target) := by
  have hgrows := (Grows.slotBlind ctx).emitAssign pos operator target value d
  unfold emitAssign at hgrows ⊢
  by_cases hplain : operator = "="
  · rw [if_pos hplain] at hgrows ⊢
    exact .lift rfl (hgrows.holds h)
  · rw [if_neg hplain] at hgrows ⊢
    obtain ⟨warnings, hwarnings, hdiagnostics, -⟩ :=
      d.emitBinary_ends ctx pos (compoundOperator operator) (.var target) value
    exact ⟨warnings, hwarnings, hdiagnostics, hgrows.holds h⟩

theorem emitCall_ends (callee : String) (args : List Value) :
    d.Ends (liftM (emitCall ctx callee args) : Attempt Variable) fun e v => e.Holds ctx (.var v) :=
  .lift rfl (.last rfl nofun)

theorem resolve?_ends (name : String) :
    d.Ends (liftM (resolve? ctx name) : Attempt (Option Variable))
      fun e found => ∀ v, found = some v → e.Holds ctx (.var v) := by
  refine .lift rfl fun v hv => ⟨?_, nofun⟩
  rcases Option.or_eq_some_iff.mp hv with hlocal | ⟨-, hglobal⟩
  · exact Or.inl (Board.mem_declared_iff.mp (List.mem_of_find?_eq_some hlocal)).1
  · exact Or.inr ⟨v, List.mem_of_find?_eq_some hglobal, rfl⟩

end Writes

end Draft

open Draft

mutual

theorem Expr.lower_ends (ctx : Context) : ∀ (e : Expr) (d : Draft),
    d.Ends (e.lower ctx) fun d v => d.Holds ctx v
  | .binary pos operator left right, d => by
    rw [Expr.lower]
    refine (right.lower_ends ctx d).bind fun r _ => (left.lower_ends ctx _).bind fun l _ => ?_
    exact (emitBinary_ends ctx _ pos operator l r).bind fun _ hv => .pure hv
  | .unary pos operator operand, d => by
    rw [Expr.lower]
    split
    · exact .abandon _ _ (Or.inl rfl)
    · refine (operand.lower_ends ctx d).bind fun v hv => ?_
      cases v with
      | var target => exact (emitStep_ends ctx _ _ hv).bind fun _ hv => .pure hv
      | const c => exact .abandon _ _ (Or.inl rfl)
      | unset => exact .abandon _ _ (Or.inl rfl)
  | .ident pos name, d => by
    rw [Expr.lower]
    refine (resolve?_ends ctx d name).bind fun found hfound => ?_
    cases found with
    | none => exact .abandon _ _ (Or.inr rfl)
    | some v => exact .pure (hfound v rfl)
  | .literal _ type value, d => by
    rw [Expr.lower]
    have hconstant : d.Ends (liftM (newConstant (.ofLiteral type) value) : Attempt Constant)
        fun e c => e.Holds ctx (.const c) := .lift rfl (.last rfl nofun)
    exact hconstant.bind fun _ hc => .pure hc
  | .assign pos operator target value, d => by
    rw [Expr.lower]
    refine (value.lower_ends ctx d).bind fun r _ => (target.lower_ends ctx _).bind fun v hv => ?_
    cases v with
    | var v =>
      dsimp only
      split
      · exact .abandon _ _ (Or.inl rfl)
      · exact (emitAssign_ends ctx _ pos operator r hv).bind fun _ hv => .pure hv
    | const c => exact .abandon _ _ (Or.inl rfl)
    | unset => exact .abandon _ _ (Or.inl rfl)
  | .call _ callee args, d => by
    rw [Expr.lower]
    refine (Expr.lowerAll_ends ctx args d).bind fun values _ => ?_
    exact (emitCall_ends ctx _ callee values).bind fun _ hv => .pure hv
  | .unknown pos kind, d => by
    rw [Expr.lower]
    exact .abandon _ _ (Or.inl rfl)
termination_by structural e => e

theorem Expr.lowerAll_ends (ctx : Context) : ∀ (es : List Expr) (d : Draft),
    d.Ends (Expr.lowerAll ctx es) fun _ _ => True
  | [], d => by
    rw [Expr.lowerAll]
    exact .pure trivial
  | e :: es, d => by
    rw [Expr.lowerAll]
    exact (e.lower_ends ctx d).bind fun _ _ =>
      (Expr.lowerAll_ends ctx es _).bind fun _ _ => .pure trivial
termination_by structural es => es

end

theorem faults_of_warnings {warnings : List Diagnostic}
    (h : ∀ w ∈ warnings, w.kind = .unsupportedOperator) : warnings.filter Diagnostic.isFault = [] := by
  rw [List.filter_eq_nil_iff]
  intro w hw
  rw [Diagnostic.isFault, h w hw]
  exact Bool.false_ne_true

/-- An attempt to lower an expression reports any number of warnings. If it returns a value, it has
reported nothing else, and the value is a variable or a constant of the board or a variable of the
module. If it is given up, it has reported one fault, last of all: the one it is given up with. -/
theorem attempt_reports_at_most_one_fault (ctx : Context) (d : Draft) (e : Expr) :
    ∃ added, (d.after (e.lower ctx).run).diagnostics = d.diagnostics ++ added ∧
      match d.answer (e.lower ctx).run with
      | .ok v => (∀ x ∈ added, x.kind = .unsupportedOperator) ∧ added.filter Diagnostic.isFault = [] ∧
          (d.after (e.lower ctx).run).Knows ctx v ∧ v ≠ .unset
      | .error fault => added.getLast? = some fault ∧
          (fault.kind = .unsupported ∨ fault.kind = .unresolved) ∧
          (∀ x ∈ added.dropLast, x.kind = .unsupportedOperator) ∧
          added.filter Diagnostic.isFault = [fault] := by
  obtain ⟨warnings, hwarnings, hends⟩ := e.lower_ends ctx d
  cases hanswer : d.answer (e.lower ctx).run with
  | ok v =>
    rw [hanswer] at hends
    exact ⟨warnings, hends.1, hwarnings, faults_of_warnings hwarnings, hends.2⟩
  | error fault =>
    rw [hanswer] at hends
    obtain ⟨hdiagnostics, hkind⟩ := hends
    refine ⟨warnings ++ [fault], by rw [hdiagnostics, List.append_assoc], by simp, hkind, ?_, ?_⟩
    · rwa [List.dropLast_concat]
    · have hfault : fault.isFault = true := by
        rcases hkind with hkind | hkind <;> simp [Diagnostic.isFault, hkind]
      rw [List.filter_append, faults_of_warnings hwarnings, List.nil_append,
        List.filter_cons_of_pos hfault]
      rfl

end SlotBoard
