import Mathlib.Tactic.SplitIfs
import SlotBoard.Proofs.Calls

/-!
Operators without an opcode. Such an operator is reported and its item is emitted with the unknown
opcode, both in one step, so the reports and the items grow by the same list whatever happens to the
expression around them. A step operator always has an opcode, and nothing else emits an opcode. In the
finished module the reports therefore name the boards of the items with the unknown opcode, one for
each of them and in their order.
-/
namespace SlotBoard

namespace Opcode

/-- No operator has the unknown opcode for its own. -/
theorem ofOperator?_ne_unknown (operator : String) (kind : Kind) :
    ofOperator? operator kind ≠ some unknown := by
  unfold ofOperator?
  split_ifs <;> decide

theorem ofOperator_eq_unknown_iff (operator : String) (kind : Kind) :
    ofOperator operator kind = unknown ↔ (ofOperator? operator kind).isNone = true := by
  have hne := ofOperator?_ne_unknown operator kind
  unfold ofOperator
  cases h : ofOperator? operator kind with
  | none => exact iff_of_true rfl rfl
  | some opcode =>
    rw [h] at hne
    exact iff_of_false (fun heq => hne (congrArg some heq)) Bool.false_ne_true

/-- The operator of a step has an opcode. -/
theorem ofOperator_step {operator step : String} (h : stepOperator? operator = some step)
    (kind : Kind) : ofOperator step kind ≠ unknown := by
  have hstep : step = "+" ∨ step = "-" := by
    unfold stepOperator? at h
    split at h <;> simp_all
  rw [ne_eq, ofOperator_eq_unknown_iff]
  rcases hstep with rfl | rfl
  · exact Bool.false_ne_true
  · exact Bool.false_ne_true

end Opcode

def Operation.hasUnknownOpcode : Operation → Bool
  | binary opcode .. => opcode = .unknown
  | _ => false

theorem Operation.hasUnknownOpcode_of_not_computes {x : Operation} (h : x.computes = false) :
    x.hasUnknownOpcode = false := by
  cases x with
  | binary => cases h
  | _ => rfl

/-- The name of a board, once for each of its items with the unknown opcode. -/
def Board.unknowns (board : Board) : List String :=
  (board.operations.filter Operation.hasUnknownOpcode).map fun _ => board.name

def warned (diagnostics : List Diagnostic) : List String :=
  (diagnostics.filter fun d => d.kind = .unsupportedOperator).map Diagnostic.board

theorem warned_append (ds es : List Diagnostic) : warned (ds ++ es) = warned ds ++ warned es := by
  rw [warned, List.filter_append, List.map_append]
  rfl

/-- Other reports do not count. -/
theorem warned_append_other (ds : List Diagnostic) {es : List Diagnostic}
    (h : ∀ e ∈ es, e.kind ≠ .unsupportedOperator) : warned (ds ++ es) = warned ds := by
  have hnone : es.filter (fun e => e.kind = .unsupportedOperator) = [] := by
    rw [List.filter_eq_nil_iff]
    intro e he
    simpa using h e he
  rw [warned, List.filter_append, hnone, List.append_nil]
  rfl

namespace Draft

/-- The later draft has more reports of operators without an opcode and more items with the unknown
opcode: for each report an item, both of the same board. -/
def AddsWarnings (d e : Draft) : Prop :=
  ∃ added, warned e.diagnostics = warned d.diagnostics ++ added ∧
    e.board.unknowns = d.board.unknowns ++ added

/-- One more item adds to the board's items with the unknown opcode if it has that opcode. -/
theorem unknowns_after_emit (d : Draft) (item : Item) :
    (d.after (emit item)).board.unknowns = d.board.unknowns ++
      if item.operation.hasUnknownOpcode then [d.board.name] else [] := by
  have hname : (d.after (emit item)).board.name = d.board.name := rfl
  unfold Board.unknowns
  rw [operations_after_emit, List.filter_append, List.map_append, hname]
  by_cases h : item.operation.hasUnknownOpcode = true
  · rw [List.filter_cons_of_pos h, if_pos h]
    rfl
  · rw [List.filter_cons_of_neg h, if_neg h]
    rfl

namespace AddsWarnings

theorem of_eq {d e : Draft} (hwarned : warned e.diagnostics = warned d.diagnostics)
    (hunknowns : e.board.unknowns = d.board.unknowns) : d.AddsWarnings e :=
  ⟨[], by simpa using hwarned, by simpa using hunknowns⟩

theorem trans {a b c : Draft} (hab : a.AddsWarnings b) (hbc : b.AddsWarnings c) :
    a.AddsWarnings c := by
  obtain ⟨xs, hwarned, hunknowns⟩ := hab
  obtain ⟨ys, hwarned', hunknowns'⟩ := hbc
  refine ⟨xs ++ ys, ?_, ?_⟩
  · rw [hwarned', hwarned, List.append_assoc]
  · rw [hunknowns', hunknowns, List.append_assoc]

theorem composes : Composes AddsWarnings := ⟨fun _ => of_eq rfl rfl, trans⟩

theorem report {kind : DiagnosticKind} (pos : Position) (message : String)
    (h : kind ≠ .unsupportedOperator) : Keeps AddsWarnings (report kind pos message) := by
  intro d
  exact of_eq (warned_append_other _ (by simpa using h)) rfl

/-- An item behind a report that goes with it, or behind none. -/
theorem of_emit {d e : Draft} {item : Item} {added : List String}
    (hname : e.board.name = d.board.name) (hunknowns : e.board.unknowns = d.board.unknowns)
    (hwarned : warned e.diagnostics = warned d.diagnostics ++ added)
    (hadded : (if item.operation.hasUnknownOpcode then [d.board.name] else []) = added) :
    d.AddsWarnings (e.after (Draft.emit item)) := by
  refine ⟨added, hwarned, ?_⟩
  rw [unknowns_after_emit, hname, hunknowns, hadded]

theorem emit {item : Item} (h : item.operation.hasUnknownOpcode = false) :
    Keeps AddsWarnings (Draft.emit item) := by
  intro d
  refine of_emit rfl rfl (List.append_nil _).symm ?_
  rw [h, if_neg Bool.false_ne_true]

/-- The report is made exactly if the opcode is the unknown one. -/
theorem emitBinary (ctx : Context) (pos : Position) (operator : String) (left right : Value) :
    Keeps AddsWarnings (emitBinary ctx pos operator left right) := by
  have hopcode := Opcode.ofOperator_eq_unknown_iff operator (.shared left.kind right.kind)
  intro d
  unfold SlotBoard.emitBinary
  by_cases hnone : (Opcode.ofOperator? operator (.shared left.kind right.kind)).isNone = true
  · simp only [hnone, if_true]
    exact of_emit rfl rfl (warned_append _ _) (if_pos (decide_eq_true (hopcode.mpr hnone)))
  · simp only [hnone, Bool.false_eq_true, if_false]
    refine of_emit rfl rfl (List.append_nil _).symm (if_neg ?_)
    exact fun h => hnone (hopcode.mp (of_decide_eq_true h))

theorem emitStep {operator step : String} (target : Variable)
    (h : stepOperator? operator = some step) : Keeps AddsWarnings (emitStep step target) := by
  refine composes.bind (fun _ => of_eq rfl rfl) fun one => emit ?_
  exact decide_eq_false (Opcode.ofOperator_step h _)

theorem emitCall (ctx : Context) (callee : String) (args : List Value) :
    Keeps AddsWarnings (emitCall ctx callee args) :=
  composes.bind (fun _ => of_eq rfl rfl) fun _ => composes.bind (emit rfl) fun _ => composes.refl

theorem admitsWrites (ctx : Context) : AdmitsWrites ctx (fun _ => True) AddsWarnings where
  toComposes := composes
  constant _ _ _ := of_eq rfl rfl
  report _ pos message h := report pos message h
  binary := emitBinary ctx
  step target h _ := emitStep target h
  assign _ _ _ := emit rfl
  call := emitCall ctx

theorem patchBlind (ctx : Context) : PatchBlind ctx AddsWarnings where
  toComposes := composes
  report _ pos message h := report pos message h
  assign _ _ _ := emit rfl
  declare scope source kind flags d := by
    rw [after_declare?]
    split
    · exact composes.refl d
    · exact of_eq rfl rfl
  control _ h := emit (Operation.hasUnknownOpcode_of_not_computes h)
  patch position f hf d := by
    refine of_eq rfl ?_
    change ((d.board.modifySlot position f).operations.filter _).map _ = _
    rw [d.board.operations_modifySlot position hf]
    rfl

end AddsWarnings
end Draft

/-- The attempt to lower an expression adds reports and items in step, also if it is given up. -/
theorem Expr.lower_addsWarnings (ctx : Context) (e : Expr) :
    Keeps Draft.AddsWarnings (e.lower ctx).run :=
  e.lower_admits (Draft.AddsWarnings.admitsWrites ctx) fun _ _ _ _ _ => trivial

namespace Lowering

theorem finished_warned (l : Lowering) (f : FuncDef) :
    warned (l.finished f).diagnostics = (l.finished f).board.unknowns := by
  obtain ⟨added, hwarned, hunknowns⟩ := (Draft.AddsWarnings.patchBlind (l.context f)).function
    l.module.name f (fun e _ => e.lower_addsWarnings _) (l.blank f)
  exact hwarned.trans hunknowns.symm

def Warned (l : Lowering) : Prop := warned l.diagnostics = l.module.boards.flatMap Board.unknowns

theorem Takes.warned {l m : Lowering} {t : TopLevel} (h : l.Takes t m) (hl : l.Warned) :
    m.Warned := by
  cases h with
  | refused diagnostic h hkind => exact (warned_append_other _ (by simpa using hkind)).trans hl
  | board f h =>
    refine (warned_append _ _).trans ?_
    rw [List.flatMap_append, List.flatMap_singleton, finished_warned, hl]
  | global d diagnostics h hinit hkinds => exact (warned_append_other _ hkinds).trans hl

end Lowering

/-- Whatever is lowered: the boards that are named in the reports of operators without an opcode are
those of the items with the unknown opcode, taken board by board and slot by slot, each as often and in
the same order. Every expression adds to both lists alike, also one that is given up in the end. -/
theorem unknown_opcodes_reported_in_order :
    (∀ (name : String) (aliases : Kind.Aliases) (units : List SourceUnit),
      let l := units.foldl Lowering.unit (.start name aliases)
      warned l.diagnostics = l.module.boards.flatMap Board.unknowns) ∧
    ∀ (ctx : Context) (e : Expr) (d : Draft), ∃ added,
      warned (d.after (e.lower ctx).run).diagnostics = warned d.diagnostics ++ added ∧
        (d.after (e.lower ctx).run).board.unknowns = d.board.unknowns ++ added := by
  refine ⟨fun name aliases units => ?_, fun ctx e => e.lower_addsWarnings ctx⟩
  exact Lowering.units_induction (P := Lowering.Warned) name aliases rfl
    (fun l t h => (l.topLevel_takes t).warned h) units

/-- `void f(int n) { u + n % n; n <<= n; }`, where `u` is not declared -/
def unusualFunction : FuncDef where
  pos := {}
  name := "f"
  returnType := ["void"]
  storage := []
  params := [⟨{}, "n", ["int"], [], [], none⟩]
  bodyPos := {}
  body := [
    .expr {} (.binary {} "+" (.ident {} "u") (.binary {} "%" (.ident {} "n") (.ident {} "n"))),
    .expr {} (.assign {} "<<=" (.ident {} "n") (.ident {} "n"))]

-- the remainder is reported and its item stays, although the sum around it is given up
example :
    let l := (Lowering.start "m" []).function unusualFunction
    l.diagnostics.map Diagnostic.kind = [.unsupportedOperator, .unresolved, .unsupportedOperator] ∧
      l.module.boards.flatMap Board.unknowns = ["f", "f"] := by
  decide +kernel

end SlotBoard
