import SlotBoard.Proofs.Attempts

/-!
The order in which expressions are lowered. An expression is written down as the list of its visits in
post-order: the right operand comes before the left one, the value of an assignment before its target,
arguments come in their order, and the node itself comes last. A stack machine takes the visits one by
one. It numbers the values it introduces one after another, and puts each operation into the next slot.
What lowering an expression appends to the board is what the machine comes to.
-/
namespace SlotBoard

/-- A step of a traversal. A compound assignment is two steps, the computation and the copy. -/
inductive Visit where
  | name (name : String)
  | literal (type text : String)
  | operator (operator : String)
  | compound (operator : String)
  | copy
  | step (operator : String)
  | call (callee : String) (arguments : Nat)
deriving DecidableEq

mutual

def Expr.visits : Expr → List Visit
  | .binary _ operator left right => right.visits ++ left.visits ++ [.operator operator]
  | .unary _ operator operand => operand.visits ++ [.step operator]
  | .ident _ name => [.name name]
  | .literal _ type text => [.literal type text]
  | .assign _ operator target value =>
    value.visits ++ target.visits ++ if operator = "=" then [.copy] else [.compound operator, .copy]
  | .call _ callee args => Expr.visitsAll args ++ [.call callee args.length]
  | .unknown .. => []
termination_by structural e => e

def Expr.visitsAll : List Expr → List Visit
  | [] => []
  | e :: es => e.visits ++ Expr.visitsAll es
termination_by structural es => es

end

/-- What a traversal has come to: the values of the expressions that are still to be used, the last one
first, and the values and operations it has added. -/
structure Traversal where
  stack : List Value := []
  values : List Value := []
  operations : List Operation := []

namespace Traversal

/-- The scope in which the next value is made: every value so far has drawn a number. -/
def scope (σ : Scope) (t : Traversal) : Scope := σ.skip t.values.length

/-- Take one step. It fails if the stack does not hold what the step works on, or if there is no
variable of a name. -/
def visit (σ : Scope) (t : Traversal) : Visit → Option Traversal
  | .name name => (σ.resolve? name).map fun v => { t with stack := .var v :: t.stack }
  | .literal type text =>
    let constant := Value.const ((t.scope σ).constant (.ofLiteral type) text)
    some { t with stack := constant :: t.stack, values := t.values ++ [constant] }
  | .operator operator =>
    match t.stack with
    | left :: right :: stack =>
      let result := Value.var ((t.scope σ).result operator left right)
      some ⟨result :: stack, t.values ++ [result],
        t.operations ++ [(t.scope σ).computation operator left right]⟩
    | _ => none
  | .compound operator =>
    match t.stack with
    | target :: value :: stack =>
      let result := Value.var ((t.scope σ).result (compoundOperator operator) target value)
      some ⟨target :: result :: stack, t.values ++ [result],
        t.operations ++ [(t.scope σ).computation (compoundOperator operator) target value]⟩
    | _ => none
  | .copy =>
    match t.stack with
    | target :: value :: stack =>
      some ⟨target :: stack, t.values, t.operations ++ [.assign target value]⟩
    | _ => none
  | .step operator =>
    match t.stack with
    | .var target :: _ =>
      some { t with
        values := t.values ++ [.const ((t.scope σ).constant .int "1")]
        operations := t.operations ++ [(t.scope σ).increment operator target] }
    | _ => none
  | .call callee arguments =>
    if arguments ≤ t.stack.length then
      let result := (t.scope σ).callResult callee
      some ⟨.var result :: t.stack.drop arguments, t.values ++ [.var result],
        t.operations ++ [.call callee (t.stack.take arguments).reverse result]⟩
    else none

/-- A draft has the values and the operations of a traversal more than an earlier one. -/
structure Mirrors (ctx : Context) (start : Draft) (t : Traversal) (d : Draft) : Prop where
  values : d.board.values = start.board.values ++ t.values
  slots : d.board.slots = start.board.slots ++
    place start.board.slots.length (start.board.slots.length + t.operations.length) t.operations
  scope : d.scope ctx = t.scope (start.scope ctx)

/-- The traversal goes on from one state to another, and the draft with it. -/
def Follows (ctx : Context) (start : Draft) (visits : List Visit) (t : Traversal)
    (stack : List Value) (d : Draft) : Prop :=
  ∃ t', visits.foldlM (visit (start.scope ctx)) t = some t' ∧ t'.stack = stack ∧
    t'.Mirrors ctx start d

variable {ctx : Context} {start d : Draft} {t : Traversal} {α : Type}

theorem Mirrors.nil (ctx : Context) (d : Draft) : Mirrors ctx d {} d :=
  ⟨by simp, by simp [place], rfl⟩

/-- A step that writes the same to the draft as to the traversal. -/
theorem Mirrors.emits {step : Emit α} {a : α} {xs : List Operation} (h : t.Mirrors ctx start d)
    (stack vs : List Value) (hstep : d.Emits ctx step a xs vs.length)
    (hvalues : (d.after step).board.values = d.board.values ++ vs) :
    Mirrors ctx start ⟨stack, t.values ++ vs, t.operations ++ xs⟩ (d.after step) where
  values := by rw [hvalues, h.values, List.append_assoc]
  slots := Draft.Emits.slots_append h.slots hstep.slots
  scope := by
    rw [hstep.scope, h.scope, Traversal.scope, Traversal.scope, Scope.skip_skip, List.length_append]

/-- One traversal behind the other. -/
theorem Follows.behind {xs ys : List Visit} {t' : Traversal} {stack : List Value}
    (hx : xs.foldlM (visit (start.scope ctx)) t = some t') (hy : Follows ctx start ys t' stack d) :
    Follows ctx start (xs ++ ys) t stack d := by
  obtain ⟨t'', hrun, hstack, hmirrors⟩ := hy
  refine ⟨t'', ?_, hstack, hmirrors⟩
  rw [List.foldlM_append, hx]
  exact hrun

theorem Follows.append {xs ys : List Visit} {stack stack' : List Value} {e : Draft}
    (hx : Follows ctx start xs t stack d)
    (hy : ∀ t', t'.stack = stack → Mirrors ctx start t' d → Follows ctx start ys t' stack' e) :
    Follows ctx start (xs ++ ys) t stack' e := by
  obtain ⟨t', hrun, hstack, hmirrors⟩ := hx
  exact .behind hrun (hy t' hstack hmirrors)

theorem Follows.single {x : Visit} {t' : Traversal} (h : visit (start.scope ctx) t x = some t')
    (hmirrors : t'.Mirrors ctx start d) : Follows ctx start [x] t t'.stack d :=
  ⟨t', by simp [h], rfl, hmirrors⟩

end Traversal

section Values

variable (ctx : Context) (d : Draft)

theorem emitBinary_values (pos : Position) (operator : String) (left right : Value) :
    (d.after (emitBinary ctx pos operator left right)).board.values =
      d.board.values ++ [.var ((d.scope ctx).result operator left right)] := by
  unfold emitBinary
  by_cases hnone : (Opcode.ofOperator? operator (.shared left.kind right.kind)).isNone = true
  · simp only [hnone, if_true]
    rfl
  · simp only [hnone, Bool.false_eq_true, if_false]
    rfl

theorem emitStep_values (operator : String) (target : Variable) :
    (d.after (emitStep operator target)).board.values =
      d.board.values ++ [.const ((d.scope ctx).constant .int "1")] := rfl

theorem emitCall_values (callee : String) (args : List Value) :
    (d.after (emitCall ctx callee args)).board.values =
      d.board.values ++ [.var ((d.scope ctx).callResult callee)] := rfl

end Values

namespace Traversal.Mirrors

variable {ctx : Context} {start d : Draft} {t : Traversal} {stack : List Value}

theorem name (h : t.Mirrors ctx start d) {name : String} {v : Variable}
    (hv : d.answer (Draft.resolve? ctx name) = some v) :
    Follows ctx start [.name name] t (.var v :: t.stack) d := by
  have hresolved : (start.scope ctx).resolve? name = some v := by
    rw [(Draft.Emits.resolve? ctx d name).answer, h.scope] at hv
    exact hv
  have hnew : Mirrors ctx start ⟨.var v :: t.stack, t.values, t.operations⟩ d :=
    ⟨h.values, h.slots, h.scope⟩
  refine .single ?_ hnew
  rw [visit, hresolved]
  rfl

theorem literal (h : t.Mirrors ctx start d) (type text : String) :
    Follows ctx start [.literal type text] t
      (.const (d.answer (Draft.newConstant (.ofLiteral type) text)) :: t.stack)
      (d.after (Draft.newConstant (.ofLiteral type) text)) := by
  have hemits := Draft.Emits.constant ctx d (.ofLiteral type) text
  have hnew := h.emits (.const ((d.scope ctx).constant (.ofLiteral type) text) :: t.stack)
    [.const ((d.scope ctx).constant (.ofLiteral type) text)] hemits rfl
  rw [List.append_nil] at hnew
  rw [hemits.answer]
  refine .single ?_ hnew
  rw [visit, ← h.scope]

theorem operator (h : t.Mirrors ctx start d) (pos : Position) (operator : String)
    {left right : Value} (hstack : t.stack = left :: right :: stack) :
    Follows ctx start [.operator operator] t
      (.var (d.answer (emitBinary ctx pos operator left right)) :: stack)
      (d.after (emitBinary ctx pos operator left right)) := by
  have hemits := emitBinary_emits ctx d pos operator left right
  rw [hemits.answer]
  refine .single ?_ (h.emits _ [_] hemits (emitBinary_values ctx d pos operator left right))
  rw [visit, hstack, ← h.scope]

theorem compound (h : t.Mirrors ctx start d) (pos : Position) (operator : String)
    {target value : Value} (hstack : t.stack = target :: value :: stack) :
    Follows ctx start [.compound operator] t
      (target :: .var (d.answer (emitBinary ctx pos (compoundOperator operator) target value)) ::
        stack)
      (d.after (emitBinary ctx pos (compoundOperator operator) target value)) := by
  have hemits := emitBinary_emits ctx d pos (compoundOperator operator) target value
  rw [hemits.answer]
  refine .single ?_ (h.emits _ [_] hemits (emitBinary_values ctx d pos _ target value))
  rw [visit, hstack, ← h.scope]

theorem copy (h : t.Mirrors ctx start d) {target value : Value}
    (hstack : t.stack = target :: value :: stack) :
    Follows ctx start [.copy] t (target :: stack)
      (d.after (Draft.emit ⟨.assign target value, []⟩)) := by
  have hemits : d.Emits ctx (Draft.emit ⟨.assign target value, []⟩) () [.assign target value] 0 :=
    .emit ctx d rfl
  have hnew := h.emits (target :: stack) [] hemits (List.append_nil _).symm
  rw [List.append_nil] at hnew
  refine .single ?_ hnew
  rw [visit, hstack]

theorem step (h : t.Mirrors ctx start d) {operator step : String} {target : Variable}
    (hstep : stepOperator? operator = some step) (hstack : t.stack = .var target :: stack) :
    Follows ctx start [.step operator] t (.var target :: stack)
      (d.after (emitStep step target)) := by
  have hemits := emitStep_emits ctx d target hstep
  refine .single ?_ (h.emits _ [_] hemits (emitStep_values ctx d step target))
  rw [visit, hstack, ← h.scope]

theorem call (h : t.Mirrors ctx start d) (callee : String) {args : List Value}
    (hstack : t.stack = args.reverse ++ stack) :
    Follows ctx start [.call callee args.length] t
      (.var (d.answer (emitCall ctx callee args)) :: stack)
      (d.after (emitCall ctx callee args)) := by
  have hemits := emitCall_emits ctx d callee args
  have hlength : args.length ≤ t.stack.length := by
    rw [hstack, List.length_append, List.length_reverse]
    omega
  have htake : (t.stack.take args.length).reverse = args := by
    rw [hstack, List.take_left' (List.length_reverse ..), List.reverse_reverse]
  have hdrop : t.stack.drop args.length = stack := by
    rw [hstack, List.drop_left' (List.length_reverse ..)]
  rw [hemits.answer]
  refine .single ?_ (h.emits _ [_] hemits (emitCall_values ctx d callee args))
  rw [visit, if_pos hlength, htake, hdrop, ← h.scope]

/-- The code of an assignment is one step or two. -/
theorem assignment (h : t.Mirrors ctx start d) (pos : Position) (operator : String)
    {target : Variable} {value : Value} (hstack : t.stack = .var target :: value :: stack) :
    Follows ctx start (if operator = "=" then [.copy] else [.compound operator, .copy]) t
      (.var target :: stack) (d.after (emitAssign ctx pos operator target value)) := by
  unfold emitAssign
  by_cases heq : operator = "="
  · rw [if_pos heq, if_pos heq]
    exact h.copy hstack
  · rw [if_neg heq, if_neg heq, Draft.after_bind]
    have hcomputed := h.compound pos operator hstack
    exact hcomputed.append fun t' hstack' h' => h'.copy hstack'

end Traversal.Mirrors

namespace Draft

/-- Both parts of an attempt that succeeds have succeeded. -/
theorem ok_of_bind {α β : Type} {d : Draft} {x : Attempt α} {f : α → Attempt β} {b : β}
    (h : d.answer (x >>= f).run = .ok b) :
    ∃ a, d.answer x.run = .ok a ∧ (d.after x.run).answer (f a).run = .ok b ∧
      d.after (x >>= f).run = (d.after x.run).after (f a).run := by
  rw [answer_attempt_bind] at h
  rw [after_attempt_bind]
  cases hx : d.answer x.run with
  | error fault =>
    rw [hx] at h
    cases h
  | ok a =>
    rw [hx] at h
    exact ⟨a, rfl, h, rfl⟩

end Draft

section Run

open Traversal

variable {ctx : Context} {start : Draft}

mutual

/-- An expression that is lowered leaves its value on the stack and its code on the board. -/
theorem Expr.follows : ∀ (e : Expr) {d : Draft} {t : Traversal} {v : Value},
    t.Mirrors ctx start d → d.answer (e.lower ctx).run = .ok v →
      Follows ctx start e.visits t (v :: t.stack) (d.after (e.lower ctx).run)
  | .binary pos operator left right, d, t, v, h, hv => by
    rw [Expr.lower] at hv ⊢
    obtain ⟨r, hr, hv, hafter⟩ := Draft.ok_of_bind hv
    obtain ⟨l, hl, hv, hafter'⟩ := Draft.ok_of_bind hv
    have hoperands : Follows ctx start (right.visits ++ left.visits) t (l :: r :: t.stack)
        ((d.after (right.lower ctx).run).after (left.lower ctx).run) :=
      (right.follows h hr).append fun t' hstack h' => hstack ▸ left.follows h' hl
    rw [hafter, hafter', Expr.visits, ← Except.ok.inj hv]
    exact hoperands.append fun t' hstack h' => h'.operator pos operator hstack
  | .unary pos operator operand, d, t, v, h, hv => by
    rw [Expr.lower] at hv ⊢
    cases hstep : stepOperator? operator with
    | none =>
      rw [hstep] at hv
      cases hv
    | some step =>
      rw [hstep] at hv
      obtain ⟨target, htarget, hv, hafter⟩ := Draft.ok_of_bind hv
      dsimp only
      rw [hafter, Expr.visits]
      refine (operand.follows h htarget).append fun t' hstack h' => ?_
      cases target with
      | var target =>
        rw [← Except.ok.inj hv]
        exact h'.step hstep hstack
      | const c => cases hv
      | unset => cases hv
  | .ident pos name, d, t, v, h, hv => by
    rw [Expr.lower] at hv ⊢
    obtain ⟨found, hfound, hv, hafter⟩ := Draft.ok_of_bind hv
    rw [hafter]
    cases found with
    | none => cases hv
    | some w =>
      rw [← Except.ok.inj hv]
      exact h.name (Except.ok.inj hfound)
  | .literal _ type text, d, t, v, h, hv => by
    rw [Expr.lower] at hv ⊢
    rw [← Except.ok.inj hv]
    exact h.literal type text
  | .assign pos operator target value, d, t, v, h, hv => by
    rw [Expr.lower] at hv ⊢
    obtain ⟨r, hr, hv, hafter⟩ := Draft.ok_of_bind hv
    obtain ⟨l, hl, hv, hafter'⟩ := Draft.ok_of_bind hv
    have hoperands : Follows ctx start (value.visits ++ target.visits) t (l :: r :: t.stack)
        ((d.after (value.lower ctx).run).after (target.lower ctx).run) :=
      (value.follows h hr).append fun t' hstack h' => hstack ▸ target.follows h' hl
    rw [hafter, hafter', Expr.visits]
    refine hoperands.append fun t' hstack h' => ?_
    cases l with
    | var w =>
      by_cases htemp : w.temp = true
      · simp only [htemp, if_true] at hv
        cases hv
      · simp only [htemp, Bool.false_eq_true, if_false] at hv ⊢
        rw [← Except.ok.inj hv]
        exact h'.assignment pos operator hstack
    | const c => cases hv
    | unset => cases hv
  | .call _ callee args, d, t, v, h, hv => by
    rw [Expr.lower] at hv ⊢
    obtain ⟨vs, hvs, hv, hafter⟩ := Draft.ok_of_bind hv
    obtain ⟨hlength, hargs⟩ := Expr.followsAll args h hvs
    rw [hafter, Expr.visits, ← Except.ok.inj hv, ← hlength]
    exact hargs.append fun t' hstack h' => h'.call callee hstack
  | .unknown pos kind, d, t, v, h, hv => by
    rw [Expr.lower] at hv
    cases hv
termination_by structural e => e

/-- Arguments lie on the stack in reverse. -/
theorem Expr.followsAll : ∀ (es : List Expr) {d : Draft} {t : Traversal} {vs : List Value},
    t.Mirrors ctx start d → d.answer (Expr.lowerAll ctx es).run = .ok vs →
      vs.length = es.length ∧ Follows ctx start (Expr.visitsAll es) t (vs.reverse ++ t.stack)
        (d.after (Expr.lowerAll ctx es).run)
  | [], d, t, vs, h, hvs => by
    rw [Expr.lowerAll] at hvs ⊢
    rw [← Except.ok.inj hvs]
    exact ⟨rfl, t, rfl, rfl, h⟩
  | e :: es, d, t, vs, h, hvs => by
    rw [Expr.lowerAll] at hvs ⊢
    obtain ⟨v, hv, hvs, hafter⟩ := Draft.ok_of_bind hvs
    obtain ⟨ws, hws, hvs, hafter'⟩ := Draft.ok_of_bind hvs
    obtain ⟨t', hrun, hstack, h'⟩ := e.follows h hv
    obtain ⟨hlength, hrest⟩ := Expr.followsAll es h' hws
    rw [hafter, hafter', ← Except.ok.inj hvs, Expr.visitsAll]
    refine ⟨congrArg Nat.succ hlength, .behind hrun ?_⟩
    rw [List.reverse_cons, List.append_assoc, List.singleton_append, ← hstack]
    exact hrest
termination_by structural es => es

end

end Run

/-- What an item does, its operands and its result apart. -/
inductive Shape where
  | copy
  | computation
  | call (callee : String) (arguments : Nat)
  | other
deriving DecidableEq

def Operation.shape : Operation → Shape
  | assign .. => .copy
  | binary .. => .computation
  | call callee args _ => .call callee args.length
  | _ => .other

namespace Visit

def stem? : Visit → Option String
  | name _ | copy => none
  | literal .. | step _ => some "constant"
  | operator _ | compound _ => some "binary_op"
  | call .. => some "call"

def shape? : Visit → Option Shape
  | name _ | literal .. => none
  | copy => some .copy
  | operator _ | compound _ | step _ => some .computation
  | call callee arguments => some (.call callee arguments)

end Visit

namespace Traversal

variable {σ : Scope} {t t' : Traversal}

/-- What a step adds. -/
theorem visit_adds {x : Visit} (h : visit σ t x = some t') :
    (∃ added, t'.values = t.values ++ added ∧
      added.map Value.name = x.stem?.toList.map (stamp · σ.owner (σ.counter + t.values.length))) ∧
    ∃ added, t'.operations = t.operations ++ added ∧ added.map Operation.shape = x.shape?.toList := by
  cases x with
  | name name =>
    obtain ⟨v, -, rfl⟩ := Option.map_eq_some_iff.mp h
    exact ⟨⟨[], by simp, rfl⟩, [], by simp, rfl⟩
  | literal type text =>
    cases h
    exact ⟨⟨[_], rfl, rfl⟩, [], by simp, rfl⟩
  | operator _ | compound _ | step _ =>
    rw [visit] at h
    split at h
    · cases h
      exact ⟨⟨[_], rfl, rfl⟩, [_], rfl, rfl⟩
    · cases h
  | copy =>
    rw [visit] at h
    split at h
    · cases h
      exact ⟨⟨[], by simp, rfl⟩, [_], rfl, rfl⟩
    · cases h
  | call callee arguments =>
    rw [visit] at h
    split at h
    · rename_i hle
      cases h
      refine ⟨⟨[_], rfl, rfl⟩, [_], rfl, ?_⟩
      simp [Operation.shape, Visit.shape?, hle]
    · cases h

/-- What a run adds: names with consecutive numbers, and items in the order of the steps. -/
theorem run_adds {xs : List Visit} (h : xs.foldlM (visit σ) t = some t') :
    (∃ added, t'.values = t.values ++ added ∧ added.map Value.name =
      ((xs.filterMap Visit.stem?).zipIdx (σ.counter + t.values.length)).map fun (stem, n) =>
        stamp stem σ.owner n) ∧
    ∃ added, t'.operations = t.operations ++ added ∧
      added.map Operation.shape = xs.filterMap Visit.shape? := by
  induction xs generalizing t with
  | nil =>
    cases h
    exact ⟨⟨[], by simp, rfl⟩, [], by simp, rfl⟩
  | cons x xs ih =>
    rw [List.foldlM_cons] at h
    obtain ⟨u, hu, hrest⟩ := Option.bind_eq_some_iff.mp h
    obtain ⟨⟨vs, hvs, hnames⟩, ops, hops, hshapes⟩ := visit_adds hu
    obtain ⟨⟨ws, hws, hnames'⟩, ops', hops', hshapes'⟩ := ih hrest
    refine ⟨⟨vs ++ ws, by rw [hws, hvs, List.append_assoc], ?_⟩, ops ++ ops',
      by rw [hops', hops, List.append_assoc], ?_⟩
    · have hlength : vs.length = x.stem?.toList.length := by
        simpa using congrArg List.length hnames
      rw [List.map_append, hnames, hnames', hvs, List.length_append, hlength, List.filterMap_cons]
      cases x.stem? with
      | none => rfl
      | some stem => rfl
    · rw [List.map_append, hshapes, hshapes', List.filterMap_cons]
      cases x.shape? with
      | none => rfl
      | some shape => rfl

end Traversal

/-- Operations that all go on at the next address. -/
theorem place_straight (a : Nat) (xs : List Operation) :
    place a (a + xs.length) xs =
      xs.mapIdx fun i x => Slot.single (a + i) ⟨x, [((a + i + 1 : Nat) : Int)]⟩ := by
  induction xs generalizing a with
  | nil => rfl
  | cons x xs ih =>
    have hend : a + (x :: xs).length = a + 1 + xs.length := by
      rw [List.length_cons]
      omega
    have hnext : ∀ i, a + 1 + i = a + (i + 1) := by
      intro i
      omega
    rw [place_cons, hend, follow_end, ih, List.mapIdx_cons]
    simp only [hnext, Nat.add_zero]

/-- An expression that is lowered without error appends to the board what its traversal in post-order
comes to, and nothing else: the values and the items that the steps make, one value for each literal, step
operator, binary operation, call and compound operator, numbered one after another, and one item for each
step but those of names and literals, in a slot of its own that goes on at the next address. -/
theorem lowering_follows_postorder (ctx : Context) (e : Expr) (d : Draft) (v : Value)
    (h : d.answer (e.lower ctx).run = .ok v) :
    ∃ values operations,
      e.visits.foldlM (Traversal.visit (d.scope ctx)) {} = some ⟨[v], values, operations⟩ ∧
      (d.after (e.lower ctx).run).board.values = d.board.values ++ values ∧
      (d.after (e.lower ctx).run).board.slots = d.board.slots ++ operations.mapIdx (fun i x =>
        Slot.single (d.board.slots.length + i) ⟨x, [((d.board.slots.length + i + 1 : Nat) : Int)]⟩) ∧
      (d.after (e.lower ctx).run).counter = d.counter + values.length ∧
      values.map Value.name = ((e.visits.filterMap Visit.stem?).zipIdx d.counter).map
        (fun (stem, n) => stamp stem d.board.name n) ∧
      operations.map Operation.shape = e.visits.filterMap Visit.shape? := by
  obtain ⟨⟨stack, values, operations⟩, hrun, hstack, hmirrors⟩ := e.follows (.nil ctx d) h
  obtain rfl : stack = [v] := hstack
  obtain ⟨⟨vs, hvs, hnames⟩, ops, hops, hshapes⟩ := Traversal.run_adds hrun
  obtain rfl : values = vs := hvs
  obtain rfl : operations = ops := hops
  refine ⟨values, operations, hrun, hmirrors.values, ?_, congrArg Scope.counter hmirrors.scope,
    hnames, hshapes⟩
  rw [hmirrors.slots, place_straight]

/-- `n += g(n++, 2) + h()` -/
def tally : Expr :=
  .assign {} "+=" (.ident {} "n") (.binary {} "+"
    (.call {} "g" [.unary {} "p++" (.ident {} "n"), .literal {} "int" "2"]) (.call {} "h" []))

def tallyDraft : Draft where
  board :=
    { name := "f", kind := .void
      values := [.var (.declared "n" "f" "f" 0 .int {})]
      slots := [Slot.single 0 ⟨.exit, [1]⟩, Slot.single 1 ⟨.entry, [2]⟩] }
  counter := 1

/-- The call on the right comes first, the copy last. -/
theorem tally_follows_postorder :
    let ctx : Context := ⟨[], [], [], false⟩
    let d := tallyDraft.after (tally.lower ctx).run
    tally.visits = [.call "h" 0, .name "n", .step "p++", .literal "int" "2", .call "g" 2,
      .operator "+", .name "n", .compound "+=", .copy] ∧
    d.board.values.map Value.name = ["n_f_0", "call_f_1", "constant_f_2", "constant_f_3", "call_f_4",
      "binary_op_f_5", "binary_op_f_6"] ∧
    d.board.slots.length = 8 ∧ d.counter = 7 := by
  intro ctx d
  have hvalue : tallyDraft.answer (tally.lower ctx).run =
      .ok (.var (.declared "n" "f" "f" 0 .int {})) := rfl
  have hvisits : tally.visits = [.call "h" 0, .name "n", .step "p++", .literal "int" "2",
      .call "g" 2, .operator "+", .name "n", .compound "+=", .copy] := by
    decide
  obtain ⟨values, operations, -, hvalues, hslots, hcounter, hnames, hshapes⟩ :=
    lowering_follows_postorder ctx tally tallyDraft _ hvalue
  rw [hvisits] at hnames hshapes
  have hcount : values.length = 6 := by
    rw [← List.length_map, hnames]
    rfl
  have hitems : operations.length = 6 := by
    rw [← List.length_map, hshapes]
    rfl
  refine ⟨hvisits, ?_, ?_, ?_⟩
  · rw [hvalues, List.map_append, hnames]
    decide +kernel
  · rw [hslots, List.length_append, List.length_mapIdx, hitems]
    rfl
  · rw [hcounter, hcount]
    rfl

end SlotBoard
