import SlotBoard.Proofs.Acceptance
import SlotBoard.Proofs.Calls
import SlotBoard.Proofs.Dominance

/-!
Where temporaries are written. Lowering draws a temporary together with the item that computes it, so
the temporaries of a board and the items that compute one go in the same order, one to one. No copy
goes to a temporary. But a step operator changes whatever variable its operand stands for, also the
result of an operator or a call: then a further item, a step, has that temporary as its result.
-/
namespace SlotBoard

namespace Operation

def isStep : Operation → Bool
  | binary _ (.var v) _ result => v = result
  | _ => false

theorem result?_of_not_computes {x : Operation} (h : x.computes = false) : x.result? = none := by
  cases x with
  | assign | binary | call => cases h
  | _ => rfl

end Operation

namespace Board

def temporaries (board : Board) : List Variable :=
  (board.values.filterMap Value.toVariable?).filter Variable.temp

theorem mem_temporaries_iff {board : Board} {t : Variable} :
    t ∈ board.temporaries ↔ .var t ∈ board.values ∧ t.temp = true := by
  simp only [temporaries, List.mem_filter, List.mem_filterMap]
  refine and_congr_left fun _ => ⟨?_, fun h => ⟨_, h, rfl⟩⟩
  rintro ⟨value, hmem, hvalue⟩
  cases value with
  | var v =>
    obtain rfl := Option.some.inj hvalue
    exact hmem
  | const c => cases hvalue
  | unset => cases hvalue

theorem temporaries_push_temp (board : Board) {t : Variable} (h : t.temp = true) :
    (board.pushValue (.var t)).temporaries = board.temporaries ++ [t] := by
  simp [temporaries, pushValue, Value.toVariable?, h]

theorem temporaries_push_other (board : Board) {value : Value}
    (h : ∀ t, value = .var t → t.temp = false) :
    (board.pushValue value).temporaries = board.temporaries := by
  cases value with
  | var v => simp [temporaries, pushValue, Value.toVariable?, h v rfl]
  | const c => simp [temporaries, pushValue, Value.toVariable?]
  | unset => simp [temporaries, pushValue, Value.toVariable?]

theorem temporaries_nodup {board : Board} (h : board.values.Nodup) : board.temporaries.Nodup := by
  refine (h.filterMap ?_).filter _
  intro a b v ha hb
  cases a <;> cases b <;> cases ha <;> cases hb
  rfl

end Board

/-- Some operations and the temporaries they compute, in the same order. An operation computes a
temporary, or it steps a variable as `P` says, or it has no result and copies nothing to a
temporary. -/
inductive Computed (P : Variable → Prop) : List Operation → List Variable → Prop
  | nil : Computed P [] []
  | result {x : Operation} {t : Variable} {xs : List Operation} {ts : List Variable}
    (hx : x.result? = some t) (h : Computed P xs ts) : Computed P (x :: xs) (t :: ts)
  | step (opcode : Opcode) (right : Value) {v : Variable} {xs : List Operation} {ts : List Variable}
    (hv : P v) (h : Computed P xs ts) : Computed P (.binary opcode (.var v) right v :: xs) ts
  | other {x : Operation} {xs : List Operation} {ts : List Variable} (hx : x.result? = none)
    (hcopy : ∀ t value, x = .assign (.var t) value → t.temp = false) (h : Computed P xs ts) :
    Computed P (x :: xs) ts

namespace Computed

variable {P : Variable → Prop} {xs ys : List Operation} {ts us : List Variable} {t : Variable}

theorem append (hx : Computed P xs ts) (hy : Computed P ys us) :
    Computed P (xs ++ ys) (ts ++ us) := by
  induction hx with
  | nil => exact hy
  | result hx _ ih => exact ih.result hx
  | step opcode right hv _ ih => exact ih.step opcode right hv
  | other hx hcopy _ ih => exact ih.other hx hcopy

theorem not_copied (h : Computed P xs ts) (ht : t.temp = true) (value : Value) :
    .assign (.var t) value ∉ xs := by
  induction h with
  | nil => exact List.not_mem_nil
  | result hx h ih =>
    refine List.not_mem_cons_of_ne_of_not_mem ?_ ih
    rintro rfl
    cases hx
  | step opcode right hv h ih => exact List.not_mem_cons_of_ne_of_not_mem nofun ih
  | other hx hcopy h ih =>
    refine List.not_mem_cons_of_ne_of_not_mem ?_ ih
    rintro rfl
    rw [hcopy t value rfl] at ht
    cases ht

/-- What is not a step computes the next temporary. -/
theorem countP_le (h : Computed P xs ts) (t : Variable) :
    xs.countP (fun x => x.result? = some t ∧ x.isStep = false) ≤ ts.count t := by
  induction h with
  | nil => exact Nat.le_refl 0
  | @result x u xs ts hx h ih =>
    by_cases heq : u = t
    · rw [heq, List.count_cons_self]
      rw [List.countP_cons]
      split <;> omega
    · rw [List.countP_cons_of_neg (by simp [hx, heq]), List.count_cons_of_ne heq]
      exact ih
  | step opcode right hv h ih =>
    rw [List.countP_cons_of_neg (by simp [Operation.isStep])]
    exact ih
  | other hx hcopy h ih =>
    rw [List.countP_cons_of_neg (by simp [hx])]
    exact ih

theorem exists_result (h : Computed P xs ts) (ht : t ∈ ts) : ∃ x ∈ xs, x.result? = some t := by
  induction h with
  | nil => cases ht
  | @result x u xs ts hx h ih =>
    rcases List.mem_cons.mp ht with rfl | ht
    · exact ⟨x, .head _, hx⟩
    · obtain ⟨y, hy, hresult⟩ := ih ht
      exact ⟨y, .tail _ hy, hresult⟩
  | step opcode right hv h ih =>
    obtain ⟨y, hy, hresult⟩ := ih ht
    exact ⟨y, .tail _ hy, hresult⟩
  | other hx hcopy h ih =>
    obtain ⟨y, hy, hresult⟩ := ih ht
    exact ⟨y, .tail _ hy, hresult⟩

/-- Where only declared variables are stepped, all results are those of the temporaries. -/
theorem countP_eq (h : Computed (fun v => v.temp = false) xs ts) (ht : t.temp = true) :
    xs.countP (fun x => x.result? = some t) = ts.count t := by
  induction h with
  | nil => rfl
  | @result x u xs ts hx h ih =>
    rw [List.countP_cons, List.count_cons, ih, hx]
    simp
  | @step opcode right v xs ts hv h ih =>
    have hne : v ≠ t := by
      rintro rfl
      rw [hv] at ht
      cases ht
    rw [List.countP_cons_of_neg (by simp [Operation.result?, hne])]
    exact ih
  | other hx hcopy h ih =>
    rw [List.countP_cons_of_neg (by simp [hx])]
    exact ih

end Computed

namespace Draft

/-- The later draft has more operations and more temporaries, and those computed are those drawn. -/
def AddsResults (P : Variable → Prop) (d e : Draft) : Prop :=
  ∃ xs ts, e.board.operations = d.board.operations ++ xs ∧
    e.board.temporaries = d.board.temporaries ++ ts ∧ Computed P xs ts

namespace AddsResults

variable {P : Variable → Prop}

theorem of_eq {d e : Draft} (hoperations : e.board.operations = d.board.operations)
    (htemporaries : e.board.temporaries = d.board.temporaries) : d.AddsResults P e :=
  ⟨[], [], by simpa using hoperations, by simpa using htemporaries, .nil⟩

theorem trans {a b c : Draft} (hab : a.AddsResults P b) (hbc : b.AddsResults P c) :
    a.AddsResults P c := by
  obtain ⟨xs, ts, hxs, hts, hx⟩ := hab
  obtain ⟨ys, us, hys, hus, hy⟩ := hbc
  refine ⟨xs ++ ys, ts ++ us, ?_, ?_, hx.append hy⟩
  · rw [hys, hxs, List.append_assoc]
  · rw [hus, hts, List.append_assoc]

theorem composes (P : Variable → Prop) : Composes (AddsResults P) :=
  ⟨fun _ => of_eq rfl rfl, trans⟩

theorem constant (kind : Kind) (literal : String) :
    Keeps (AddsResults P) (newConstant kind literal) :=
  fun d => of_eq rfl (d.board.temporaries_push_other nofun)

/-- An operation that neither has a result nor copies to a temporary. -/
theorem other {item : Item} (hresult : item.operation.result? = none)
    (hcopy : ∀ t value, item.operation = .assign (.var t) value → t.temp = false) :
    Keeps (AddsResults P) (emit item) := by
  intro d
  refine ⟨[item.operation], [], d.operations_after_emit item, ?_, .other hresult hcopy .nil⟩
  exact (List.append_nil _).symm

theorem step (operator : String) {target : Variable} (h : P target) :
    Keeps (AddsResults P) (emitStep operator target) := by
  refine (composes P).bind (constant _ _) fun one d => ?_
  refine ⟨[_], [], d.operations_after_emit _, ?_, .step _ _ h .nil⟩
  exact (List.append_nil _).symm

/-- A temporary and the operation that computes it, with a report between them or none. -/
theorem result {ctx : Context} {stem : String} {kind : Kind} {d e : Draft} {x : Operation}
    (he : e.board = (d.after (newTemporary ctx stem kind)).board)
    (hx : x.result? = some (d.answer (newTemporary ctx stem kind))) :
    d.AddsResults P (e.after (emit ⟨x, []⟩)) := by
  refine ⟨[x], [d.answer (newTemporary ctx stem kind)], ?_, ?_, .result hx .nil⟩
  · rw [operations_after_emit, Board.operations, he]
    rfl
  · change e.board.temporaries = _
    rw [he]
    exact d.board.temporaries_push_temp rfl

theorem emitBinary (ctx : Context) (pos : Position) (operator : String) (left right : Value) :
    Keeps (AddsResults P) (emitBinary ctx pos operator left right) := by
  intro d
  unfold SlotBoard.emitBinary
  by_cases hnone : (Opcode.ofOperator? operator (.shared left.kind right.kind)).isNone = true
  · simp only [hnone, if_true]
    exact result rfl rfl
  · simp only [hnone, Bool.false_eq_true, if_false]
    exact result rfl rfl

theorem emitCall (ctx : Context) (callee : String) (args : List Value) :
    Keeps (AddsResults P) (emitCall ctx callee args) :=
  fun _ => result rfl rfl

theorem admitsWrites (ctx : Context) (P : Variable → Prop) : AdmitsWrites ctx P (AddsResults P) where
  toComposes := composes P
  constant := constant
  report _ _ _ _ _ := of_eq rfl rfl
  binary := emitBinary ctx
  step _ _ h := step _ h
  assign target value htarget := other rfl fun t _ ht => by
    cases ht
    exact htarget
  call := emitCall ctx

theorem patchBlind (ctx : Context) (P : Variable → Prop) : PatchBlind ctx (AddsResults P) where
  toComposes := composes P
  report _ _ _ _ _ := of_eq rfl rfl
  assign := (admitsWrites ctx P).assign
  declare scope source kind flags d := by
    rw [after_declare?]
    split
    · exact of_eq rfl rfl
    · refine of_eq rfl (d.board.temporaries_push_other fun t ht => ?_)
      cases ht
      rfl
  control item h := by
    refine other (Operation.result?_of_not_computes h) fun t value ht => ?_
    rw [ht] at h
    cases h
  patch position f hf d := of_eq (d.board.operations_modifySlot position hf) rfl

end AddsResults
end Draft

namespace Expr

def isComputed : Expr → Bool
  | binary .. | call .. => true
  | unary _ _ operand => operand.isComputed
  | _ => false

theorem temp_of_value : ∀ (e : Expr) {σ : Scope} {v : Variable}, σ.Plain → e.lowers σ = true →
    e.value σ = .var v → v.temp = e.isComputed
  | binary .., _, _, _, _, hv => by
    cases hv
    rfl
  | call .., _, _, _, _, hv => by
    cases hv
    rfl
  | unary _ _ operand, σ, v, hσ, hlowers, hv => by
    rw [lowers, Bool.and_eq_true, Bool.and_eq_true] at hlowers
    exact operand.temp_of_value hσ hlowers.1.2 hv
  | ident _ name, σ, v, hσ, hlowers, hv => by
    obtain ⟨w, hw⟩ := Option.isSome_iff_exists.mp hlowers
    rw [value, hw] at hv
    obtain rfl : w = v := Value.var.inj hv
    exact hσ name w hw
  | literal .., _, _, _, _, hv => by cases hv
  | assign _ _ target value, σ, v, _, hlowers, hv => by
    rw [lowers, Bool.and_eq_true] at hlowers
    have hdeclared := hlowers.2
    rw [Expr.value] at hv
    rw [hv] at hdeclared
    have htemp : v.temp = false := by simpa [Value.isDeclared] using hdeclared
    exact htemp
  | unknown .., _, _, _, hlowers, _ => by cases hlowers
termination_by structural e => e

/-- What is not computed stands for no temporary. -/
theorem standsFor_declared {ctx : Context} (hctx : ctx.Plain) {e : Expr} (h : e.isComputed = false) :
    e.StandsFor ctx fun v => v.temp = false := by
  intro d v hanswer
  obtain ⟨hlowers, hv⟩ := value_of_ok hanswer
  rw [← h]
  exact e.temp_of_value (d.scope_plain hctx) hlowers hv.symm

theorem isDeclared_value : ∀ (e : Expr) (σ : Scope), e.isPlace = false →
    (e.value σ).isDeclared = false
  | binary .., _, _ | literal .., _, _ | call .., _, _ | unknown .., _, _ => rfl
  | unary _ _ operand, σ, h => operand.isDeclared_value σ h
  | ident .., _, h | assign .., _, h => by cases h
termination_by structural e => e

theorem isVariable_value : ∀ (e : Expr) (σ : Scope), e.isPlace = false → e.isComputed = false →
    (e.value σ).isVariable = false
  | literal .., _, _, _ | unknown .., _, _, _ => rfl
  | unary _ _ operand, σ, hplace, hcomputed => operand.isVariable_value σ hplace hcomputed
  | ident .., _, h, _ | assign .., _, h, _ => by cases h
  | binary .., _, _, h | call .., _, _, h => by cases h
termination_by structural e => e

/-- An assignment to what is no declared variable is reported. -/
theorem assign_rejected (ctx : Context) (d : Draft) (pos : Position) (operator : String)
    {target : Expr} (value : Expr) (h : target.isPlace = false) :
    d.Rejects ((assign pos operator target value).lower ctx) := by
  refine Draft.Fails.rejects (((assign pos operator target value).attempts ctx).fails d ?_)
  rw [lowers, target.isDeclared_value _ h, Bool.and_false]

/-- A step of what is no variable is reported. -/
theorem unary_rejected (ctx : Context) (d : Draft) (pos : Position) (operator : String)
    {operand : Expr} (hplace : operand.isPlace = false) (hcomputed : operand.isComputed = false) :
    d.Rejects ((unary pos operator operand).lower ctx) := by
  refine Draft.Fails.rejects (((unary pos operator operand).attempts ctx).fails d ?_)
  rw [lowers, operand.isVariable_value _ hplace hcomputed, Bool.and_false]

end Expr

def FuncDef.stepped (f : FuncDef) : List Expr := (Stmt.exprsAll f.body).flatMap Expr.stepped

namespace Lowering

/-- The temporaries of a finished function are those that its items compute. -/
theorem finished_computed (l : Lowering) (f : FuncDef) {P : Variable → Prop}
    (h : ∀ operand ∈ f.stepped, operand.StandsFor (l.context f) P) :
    Computed P (l.finished f).board.operations (l.finished f).board.temporaries := by
  obtain ⟨xs, ts, hxs, hts, hcomputed⟩ :=
    (Draft.AddsResults.patchBlind (l.context f) P).function l.module.name f (fun e he =>
      e.lower_admits (Draft.AddsResults.admitsWrites (l.context f) P) fun operand hoperand =>
        h operand (List.mem_flatMap.mpr ⟨e, he, hoperand⟩)) (l.blank f)
  rw [← finished] at hxs hts
  rw [hxs, hts]
  exact hcomputed

theorem finished_values_nodup (l : Lowering) (f : FuncDef) :
    (l.finished f).board.values.Nodup := by
  have hnumbers : ((List.range' l.module.counter (l.finished f).board.values.length).map some).Nodup :=
    (List.nodup_range' 1).map fun _ _ h => Option.some.inj h
  rw [← (l.finished_counted f).2] at hnumbers
  exact List.Nodup.of_map _ hnumbers

end Lowering

/-- The first operation of a block with a temporary as its result does not step it, since a step reads
what an operation before it has computed. -/
theorem Block.exists_computing {known : Value → Prop} {xs : List Operation} (h : Block known xs)
    {t : Variable} (ht : t.temp = true) (hx : ∃ x ∈ xs, x.result? = some t) :
    ∃ x ∈ xs, x.result? = some t ∧ x.isStep = false := by
  have hfind : (xs.find? fun x => x.result? = some t).isSome = true := by
    simpa using hx
  obtain ⟨x, hfirst⟩ := Option.isSome_iff_exists.mp hfind
  obtain ⟨hresult, front, back, rfl, hfront⟩ := List.find?_eq_some_iff_append.mp hfirst
  have hresult : x.result? = some t := by simpa using hresult
  refine ⟨x, List.mem_append_right _ List.mem_cons_self, hresult, ?_⟩
  have hfits := h front x back rfl
  rw [← Bool.not_eq_true]
  intro hstep
  obtain ⟨opcode, right, rfl⟩ : ∃ opcode right, x = .binary opcode (.var t) right t := by
    cases x with
    | binary opcode left right result =>
      obtain rfl := Option.some.inj hresult
      cases left with
      | var v =>
        obtain rfl : v = result := by simpa [Operation.isStep] using hstep
        exact ⟨opcode, right, rfl⟩
      | const c => cases hstep
      | unset => cases hstep
    | _ => cases hstep
  obtain ⟨y, hy, hcomputes⟩ := (hfits.reads (.var t) (.head _)).computed t rfl ht
  have hnot := hfront y hy
  simp [hcomputes] at hnot

/-- Whatever is lowered, and whatever is reported on the way: no copy goes to a temporary, and one item
of its board computes it without reading it. That is the only item with the temporary as its result,
unless a function of the board's name steps a computed value. An assignment to what is no declared
variable and a step of what is no variable are reported. -/
theorem temporary_computed_by_one_item (name : String) (aliases : Kind.Aliases)
    (units : List SourceUnit) :
    (∀ b ∈ (units.foldl Lowering.unit (.start name aliases)).module.boards, ∀ t : Variable,
      .var t ∈ b.values → t.temp = true →
      (∀ value, .assign (.var t) value ∉ b.operations) ∧
      b.operations.countP (fun x => x.result? = some t ∧ x.isStep = false) = 1 ∧
      ((∀ f, .func f ∈ units.flatMap SourceUnit.decls → f.name = b.name →
          ∀ operand ∈ f.stepped, operand.isComputed = false) →
        b.operations.countP (fun x => x.result? = some t) = 1)) ∧
    ∀ (ctx : Context) (d : Draft) (pos : Position) (operator : String) (operand : Expr),
      operand.isPlace = false →
      (∀ value, d.Rejects ((Expr.assign pos operator operand value).lower ctx)) ∧
      (operand.isComputed = false → d.Rejects ((Expr.unary pos operator operand).lower ctx)) := by
  refine ⟨fun b hb t hvalue ht => ?_, fun ctx d pos operator operand hplace => ?_⟩
  · obtain ⟨l, f, hplain, hf, rfl⟩ := Lowering.exists_finished_of_mem hb
    have hmem := Board.mem_temporaries_iff.mpr ⟨hvalue, ht⟩
    have hnodup := Board.temporaries_nodup (l.finished_values_nodup f)
    have hall := l.finished_computed f (P := fun _ => True) fun _ _ _ _ _ => trivial
    refine ⟨hall.not_copied ht, Nat.le_antisymm ?_ ?_, fun hsteps => ?_⟩
    · have hle := hall.countP_le t
      rwa [List.count_eq_one_of_mem hnodup hmem] at hle
    · obtain ⟨blocks, hblocks⟩ := Lowering.finished_blocks hplain f
      obtain ⟨x, hx, hresult⟩ := hall.exists_result hmem
      rw [hblocks.board_operations] at hx ⊢
      obtain ⟨block, hblock, hx⟩ := List.mem_flatten.mp hx
      obtain ⟨y, hy, hcomputes⟩ := (hblocks.sound block hblock).exists_computing ht ⟨x, hx, hresult⟩
      refine List.countP_pos_iff.mpr ⟨y, List.mem_flatten_of_mem hblock hy, ?_⟩
      exact decide_eq_true hcomputes
    · have hctx : (l.context f).Plain := hplain
      have hdeclared := l.finished_computed f fun operand hoperand =>
        Expr.standsFor_declared hctx (hsteps f hf (l.finished_name f).symm operand hoperand)
      rw [hdeclared.countP_eq ht, List.count_eq_one_of_mem hnodup hmem]
  · exact ⟨fun value => Expr.assign_rejected ctx d pos operator value hplace,
      fun hcomputed => Expr.unary_rejected ctx d pos operator hplace hcomputed⟩

/-- `void f(int a) { body }` -/
def unaryFunction (body : List Stmt) : FuncDef where
  pos := {}
  name := "f"
  returnType := ["void"]
  storage := []
  params := [⟨{}, "a", ["int"], [], [], none⟩]
  bodyPos := {}
  body

/-- `a += g(a++);` -/
def accumulation : Stmt :=
  .expr {} (.assign {} "+=" (.ident {} "a") (.call {} "g" [.unary {} "p++" (.ident {} "a")]))

theorem accumulation_computes_call_once :
    let units : List SourceUnit := [⟨"u", [.func (unaryFunction [accumulation])]⟩]
    let b := ((Lowering.start "m" []).finished (unaryFunction [accumulation])).board
    let t := Variable.temporary "call" "f" 2 .unknown {}
    b ∈ (units.foldl Lowering.unit (.start "m" [])).module.boards ∧
      b.operations.any Operation.isStep = true ∧ .var t ∈ b.values ∧ t.temp = true ∧
      b.operations.countP (fun x => x.result? = some t) = 1 := by
  intro units b t
  have hb : b ∈ (units.foldl Lowering.unit (.start "m" [])).module.boards := by decide +kernel
  have ht : .var t ∈ b.values := by decide +kernel
  have hsteps : ∀ f, .func f ∈ units.flatMap SourceUnit.decls → f.name = b.name →
      ∀ operand ∈ f.stepped, operand.isComputed = false := by
    intro f hf _ operand hoperand
    obtain rfl : f = unaryFunction [accumulation] := by simpa [units] using hf
    obtain rfl : operand = .ident {} "a" := List.mem_singleton.mp hoperand
    rfl
  obtain ⟨-, -, honce⟩ := (temporary_computed_by_one_item "m" [] units).1 b hb t ht rfl
  exact ⟨hb, by decide +kernel, ht, rfl, honce hsteps⟩

/-- The statement `(a + a)++;` is lowered without a report, and two items have the temporary of the sum
as their result. -/
theorem stepped_sum_computed_twice :
    let f := unaryFunction [.expr {} (.unary {} "p++" (.binary {} "+" (.ident {} "a") (.ident {} "a")))]
    let l := [⟨"u", [.func f]⟩].foldl Lowering.unit (.start "m" [])
    let t := Variable.temporary "binary_op" "f" 1 .int {}
    l.diagnostics = [] ∧ ∃ b ∈ l.module.boards, .var t ∈ b.values ∧ t.temp = true ∧
      b.operations.countP (fun x => x.result? = some t) = 2 := by
  decide +kernel

end SlotBoard
