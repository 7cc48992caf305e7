import SlotBoard.Proofs.Twins

/-!
Two runs of one lowering. A step that runs in twin drafts leaves twins and gives answers that
correspond. This is shown for the primitive steps, and by induction over the syntax for expressions and
statements; so nothing that a function leaves behind depends on more of the module than twins share.
-/
namespace SlotBoard

variable {α β : Type}

namespace Surroundings

variable {p : Surroundings} {d e : Draft}

/-- A step of the one run and a step of the other leave twins, in which all operands that corresponded
still do, and their answers meet a condition on what corresponds then. -/
structure Runs (p : Surroundings) (d e : Draft) (x y : Emit α)
    (Q : (Value → Value → Prop) → α → α → Prop) : Prop where
  twin : p.Twin (d.after x) (e.after y)
  keeps : ∀ v w, p.Operands d e v w → p.Operands (d.after x) (e.after y) v w
  answer : Q (p.Operands (d.after x) (e.after y)) (d.answer x) (e.answer y)

def Same (_ : Value → Value → Prop) (a b : α) : Prop := a = b

/-- Both attempts succeed with answers that meet a condition, or both are given up with one
diagnostic. -/
inductive Outcome (Q : (Value → Value → Prop) → α → α → Prop) (R : Value → Value → Prop) :
    Except Diagnostic α → Except Diagnostic α → Prop
  | ok {a b : α} (h : Q R a b) : Outcome Q R (.ok a) (.ok b)
  | error (fault : Diagnostic) : Outcome Q R (.error fault) (.error fault)

namespace Runs

variable {P : (Value → Value → Prop) → α → α → Prop} {Q : (Value → Value → Prop) → β → β → Prop}

theorem bind {x y : Emit α} {f g : α → Emit β} (hx : p.Runs d e x y P)
    (hf : ∀ d' e' a b, p.Twin d' e' → (∀ v w, p.Operands d e v w → p.Operands d' e' v w) →
      P (p.Operands d' e') a b → p.Runs d' e' (f a) (g b) Q) :
    p.Runs d e (x >>= f) (y >>= g) Q := by
  have hrest := hf _ _ _ _ hx.twin hx.keeps hx.answer
  exact ⟨hrest.twin, fun v w hvw => hrest.keeps v w (hx.keeps v w hvw), hrest.answer⟩

/-- The rule for a step that gives both runs the same answer. -/
theorem andThen {x y : Emit α} {f g : α → Emit β} (hx : p.Runs d e x y Same)
    (hf : ∀ d' e' a, p.Twin d' e' → (∀ v w, p.Operands d e v w → p.Operands d' e' v w) →
      p.Runs d' e' (f a) (g a) Q) : p.Runs d e (x >>= f) (y >>= g) Q := by
  refine hx.bind fun d' e' a b htwin hkeeps hab => ?_
  obtain rfl : a = b := hab
  exact hf d' e' a htwin hkeeps

theorem attempt {x y : Attempt α} {f g : α → Attempt β} (hx : p.Runs d e x.run y.run (Outcome P))
    (hf : ∀ d' e' a b, p.Twin d' e' → (∀ v w, p.Operands d e v w → p.Operands d' e' v w) →
      P (p.Operands d' e') a b → p.Runs d' e' (f a).run (g b).run (Outcome Q)) :
    p.Runs d e (x >>= f).run (y >>= g).run (Outcome Q) := by
  rw [ExceptT.run_bind, ExceptT.run_bind]
  refine hx.bind fun d' e' a b htwin hkeeps hab => ?_
  cases hab with
  | ok h => exact hf d' e' _ _ htwin hkeeps h
  | error fault => exact ⟨htwin, fun _ _ h => h, .error fault⟩

theorem pure (h : p.Twin d e) {a b : α} (hab : P (p.Operands d e) a b) :
    p.Runs d e (Pure.pure a) (Pure.pure b) P :=
  ⟨h, fun _ _ hvw => hvw, hab⟩

theorem ok (h : p.Twin d e) {a b : α} (hab : P (p.Operands d e) a b) :
    p.Runs d e (Pure.pure a : Attempt α).run (Pure.pure b : Attempt α).run (Outcome P) :=
  ⟨h, fun _ _ hvw => hvw, .ok hab⟩

theorem lift {x y : Emit α} (hx : p.Runs d e x y P) :
    p.Runs d e (liftM x : Attempt α).run (liftM y : Attempt α).run (Outcome P) :=
  ⟨hx.twin, hx.keeps, .ok hx.answer⟩

theorem report (h : p.Twin d e) (kind : DiagnosticKind) (pos : Position) (message : String) :
    p.Runs d e (Draft.report kind pos message) (Draft.report kind pos message) Same where
  twin := { h with
    diagnostics := by
      change d.diagnostics ++ [{ kind, pos, board := d.board.name, message }] =
        e.diagnostics ++ [{ kind, pos, board := e.board.name, message }]
      rw [h.diagnostics, h.name] }
  keeps _ _ hvw := hvw
  answer := by
    change ({ kind, pos, board := d.board.name, message } : Diagnostic) =
      { kind, pos, board := e.board.name, message }
    rw [h.name]

theorem abandon (h : p.Twin d e) (kind : DiagnosticKind) (pos : Position) (message : String) :
    p.Runs d e (Draft.abandon kind pos message : Attempt α).run
      (Draft.abandon kind pos message : Attempt α).run (Outcome P) := by
  refine (report h kind pos message).lift.attempt fun d' e' a b htwin _ hab => ?_
  obtain rfl : a = b := hab
  exact ⟨htwin, fun _ _ hvw => hvw, .error a⟩

theorem size (h : p.Twin d e) : p.Runs d e Draft.size Draft.size Same :=
  ⟨h, fun _ _ hvw => hvw, h.slots.length_eq⟩

/-- Both runs draw a number and make the same value with it. -/
theorem introduce (h : p.Twin d e) (make : String → Nat → α) (toValue : α → Value)
    (hmake : ∀ owner m n, (toValue (make owner m)).Redrawn m n (toValue (make owner n))) :
    p.Runs d e (Draft.introduce make toValue) (Draft.introduce make toValue)
      fun R a b => R (toValue a) (toValue b) := by
  have hdrawn : (toValue (make d.board.name d.counter)).Redrawn
      (p.leftFirst + d.board.values.length) (p.rightFirst + e.board.values.length)
      (toValue (make e.board.name e.counter)) := by
    rw [h.name, ← h.leftCounter, ← h.rightCounter]
    exact hmake _ _ _
  have hkeeps : ∀ v w, p.Operands d e v w → p.Operands (d.after (Draft.introduce make toValue))
      (e.after (Draft.introduce make toValue)) v w :=
    fun v w hvw => hvw.mono (List.prefix_append _ _) (List.prefix_append _ _)
  refine ⟨?_, hkeeps, ?_⟩
  · exact { h with
      values := h.values.concat hdrawn
      leftCounter := by
        change d.counter + 1 = p.leftFirst + (d.board.values ++ [_]).length
        rw [h.leftCounter, List.length_append, List.length_singleton, Nat.add_assoc]
      rightCounter := by
        change e.counter + 1 = p.rightFirst + (e.board.values ++ [_]).length
        rw [h.rightCounter, List.length_append, List.length_singleton, Nat.add_assoc]
      slots := h.slots.imp fun _ _ hslot => hslot.imp hkeeps }
  · refine .owned d.board.values.length List.getElem?_concat_length ?_ ?_
    · rw [h.values.length_eq]
      exact List.getElem?_concat_length
    · rwa [← h.values.length_eq] at hdrawn

theorem emit (h : p.Twin d e) {x y : Operation} (hxy : x.Alike (p.Operands d e) y)
    (next : List Int) : p.Runs d e (Draft.emit ⟨x, next⟩) (Draft.emit ⟨y, next⟩) Same where
  twin := { h with
    slots := by
      refine List.rel_append h.slots (.cons (Slot.Alike.push ⟨?_, .nil⟩ ⟨hxy, rfl⟩) .nil)
      exact congrArg Address.index h.slots.length_eq }
  keeps _ _ hvw := hvw
  answer := rfl

theorem patch (h : p.Twin d e) (position : Nat) {f : Slot → Slot}
    (hf : ∀ s t, s.Alike (p.Operands d e) t → (f s).Alike (p.Operands d e) (f t)) :
    p.Runs d e (Draft.onBoard (·.modifySlot position f)) (Draft.onBoard (·.modifySlot position f))
      Same where
  twin := { h with slots := forall₂_modify hf h.slots position }
  keeps _ _ hvw := hvw
  answer := rfl

theorem setNext (h : p.Twin d e) (position : Nat) (next : List Int) :
    p.Runs d e (Draft.setNext position next) (Draft.setNext position next) Same := by
  refine patch h position fun s t hst => ⟨hst.address, ?_⟩
  have hitems := hst.items
  unfold Slot.setNext
  generalize s.items = is at hitems
  generalize t.items = js at hitems
  cases hitems with
  | nil => exact .nil
  | cons hi hrest => exact .cons ⟨hi.operation, rfl⟩ hrest

theorem closeAt (h : p.Twin d e) (slot : Option Nat) (target : Nat) :
    p.Runs d e (Draft.closeAt slot target) (Draft.closeAt slot target) Same := by
  cases slot with
  | none => exact .pure h rfl
  | some position =>
    refine patch h position fun s t hst => ?_
    rw [hst.isOpen_eq]
    split
    · exact hst.retarget target
    · exact hst

theorem placeholder (h : p.Twin d e) : p.Runs d e Draft.placeholder Draft.placeholder Same :=
  (size h).andThen fun _ _ _ htwin _ => emit htwin .jump _

theorem lastAppended {x y : Emit Unit} (h : p.Twin d e) (hx : p.Runs d e x y Same) :
    p.Runs d e (Draft.lastAppended x) (Draft.lastAppended y) Same := by
  have hstart : d.board.slots.length = e.board.slots.length := h.slots.length_eq
  refine ⟨hx.twin, hx.keeps, ?_⟩
  change (if d.board.slots.length < (d.after x).board.slots.length then
      some ((d.after x).board.slots.length - 1) else none) =
    if e.board.slots.length < (e.after y).board.slots.length then
      some ((e.after y).board.slots.length - 1) else none
  rw [hstart, hx.twin.slots.length_eq]

theorem newTemporary (h : p.Twin d e) (stem : String) (kind : Kind) :
    p.Runs d e (Draft.newTemporary p.left stem kind) (Draft.newTemporary p.right stem kind)
      fun R a b => R (.var a) (.var b) := by
  unfold Draft.newTemporary Draft.flagged
  rw [p.isPrivate]
  exact introduce h _ _ fun owner _ _ => .temporary stem owner kind _

theorem newConstant (h : p.Twin d e) (kind : Kind) (literal : String) :
    p.Runs d e (Draft.newConstant kind literal) (Draft.newConstant kind literal)
      fun R a b => R (.const a) (.const b) :=
  introduce h _ _ fun owner _ _ => .constant owner kind literal

/-- Both runs look a source name up among the values so far. -/
theorem lookup (h : p.Twin d e) (source : String) :
    p.Runs d e (get : Emit Draft) (get : Emit Draft) fun R a b =>
      Option.Rel (fun v w => R (.var v) (.var w)) (a.board.local? source) (b.board.local? source) := by
  refine ⟨h, fun _ _ hvw => hvw, ?_⟩
  exact rel_imp (h.values.findDeclared source) fun _ _ ⟨k, hv, hw, hdrawn⟩ => .owned k hv hw hdrawn

theorem resolve? (h : p.Twin d e) (source : String) :
    p.Runs d e (Draft.resolve? p.left source) (Draft.resolve? p.right source)
      fun R => Option.Rel fun v w => R (.var v) (.var w) := by
  refine (lookup h source).bind fun d' e' a b htwin _ hab => .pure htwin ?_
  generalize a.board.local? source = x at hab
  generalize b.board.local? source = y at hab
  cases hab with
  | some hvw => exact .some hvw
  | none =>
    have hkind := p.globals source
    rw [Option.none_or, Option.none_or]
    cases hleft : p.left.globals.find? fun v => v.source = source with
    | none =>
      rw [hleft, Option.map_none] at hkind
      rw [Option.map_eq_none_iff.mp hkind.symm]
      exact .none
    | some v =>
      rw [hleft, Option.map_some] at hkind
      obtain ⟨w, hright, -⟩ := Option.map_eq_some_iff.mp hkind.symm
      rw [hright]
      exact .some (.global source hleft hright)

theorem declare? (h : p.Twin d e) (scope : Option String) (source : String) (kind : Kind)
    (flags : Flags) :
    p.Runs d e (Draft.declare? p.left scope source kind flags)
      (Draft.declare? p.right scope source kind flags)
      fun R => Option.Rel fun v w => R (.var v) (.var w) := by
  unfold Draft.declare? Draft.flagged
  rw [p.isPrivate]
  refine (lookup h source).bind fun d' e' a b htwin _ hab => ?_
  generalize a.board.local? source = x at hab
  generalize b.board.local? source = y at hab
  cases hab with
  | some _ => exact .pure htwin .none
  | none =>
    refine (introduce htwin _ _ fun owner _ _ => ?_).bind fun _ _ v w htwin' _ hvw => ?_
    · exact .declared source owner (scope.getD owner) kind _
    · exact .pure htwin' (.some hvw)

theorem emitBinary (h : p.Twin d e) (pos : Position) (operator : String) {l l' r r' : Value}
    (hl : p.Operands d e l l') (hr : p.Operands d e r r') :
    p.Runs d e (emitBinary p.left pos operator l r) (emitBinary p.right pos operator l' r')
      fun R a b => R (.var a) (.var b) := by
  unfold SlotBoard.emitBinary
  rw [hl.kind_eq, hr.kind_eq]
  refine (newTemporary h _ _).bind fun d' e' a b htwin hkeeps hab => ?_
  have hlast : ∀ d'' e'', p.Twin d'' e'' →
      (∀ v w, p.Operands d' e' v w → p.Operands d'' e'' v w) →
      p.Runs d'' e'' (do
          Draft.emit ⟨.binary (.ofOperator operator (.shared l'.kind r'.kind)) l r a, []⟩
          return a) (do
          Draft.emit ⟨.binary (.ofOperator operator (.shared l'.kind r'.kind)) l' r' b, []⟩
          return b) fun R a b => R (.var a) (.var b) := by
    intro d'' e'' htwin' hkeeps'
    have hresult := hkeeps' _ _ hab
    have hleft := hkeeps' _ _ (hkeeps _ _ hl)
    have hright := hkeeps' _ _ (hkeeps _ _ hr)
    refine (emit htwin' (.binary _ hleft hright hresult) []).andThen fun _ _ _ ht hk => ?_
    exact .pure ht (hk _ _ hresult)
  dsimp only
  split
  · exact (report htwin _ _ _).andThen fun d'' e'' _ ht hk => hlast d'' e'' ht hk
  · exact hlast d' e' htwin fun _ _ hvw => hvw

theorem emitStep (h : p.Twin d e) (operator : String) {v w : Variable}
    (hvw : p.Operands d e (.var v) (.var w)) :
    p.Runs d e (emitStep operator v) (emitStep operator w) Same := by
  have hkind : v.kind = w.kind := hvw.kind_eq
  refine (newConstant h .int "1").bind fun d' e' a b htwin hkeeps hab => ?_
  have htarget := hkeeps _ _ hvw
  have hone : a.kind = b.kind := hab.kind_eq
  rw [hkind, hone]
  exact emit htwin (.binary _ htarget hab htarget) []

theorem emitAssign (h : p.Twin d e) (pos : Position) (operator : String) {v w : Variable}
    {r r' : Value} (hvw : p.Operands d e (.var v) (.var w)) (hr : p.Operands d e r r') :
    p.Runs d e (emitAssign p.left pos operator v r) (emitAssign p.right pos operator w r') Same := by
  unfold SlotBoard.emitAssign
  split
  · exact emit h (.assign hvw hr) []
  · refine (emitBinary h pos _ hvw hr).bind fun d' e' a b htwin hkeeps hab => ?_
    exact emit htwin (.assign (hkeeps _ _ hvw) hab) []

theorem emitCall (h : p.Twin d e) (callee : String) {args args' : List Value}
    (hargs : List.Forall₂ (p.Operands d e) args args') :
    p.Runs d e (emitCall p.left callee args) (emitCall p.right callee args')
      fun R a b => R (.var a) (.var b) := by
  unfold SlotBoard.emitCall
  rw [p.signatures]
  refine (newTemporary h _ _).bind fun d' e' a b htwin hkeeps hab => ?_
  refine (emit htwin (.call callee (hargs.imp hkeeps) hab) []).andThen fun _ _ _ ht hk => ?_
  exact .pure ht (hk _ _ hab)

end Runs

def RunsExpr (p : Surroundings) (x : Expr) : Prop :=
  ∀ d e, p.Twin d e →
    p.Runs d e (x.lower p.left).run (x.lower p.right).run (Outcome fun R v w => R v w)

def RunsStep (p : Surroundings) (x y : Emit Unit) : Prop := ∀ d e, p.Twin d e → p.Runs d e x y Same

namespace RunsExpr

theorem unary {operand : Expr} (ih : p.RunsExpr operand) (pos : Position) (operator : String) :
    p.RunsExpr (.unary pos operator operand) := by
  intro d e h
  rw [Expr.lower, Expr.lower]
  split
  · exact .abandon h _ _ _
  · refine (ih d e h).attempt fun d' e' v w htwin _ hvw => ?_
    rcases hvw.form with ⟨x, y, rfl, rfl, -⟩ | ⟨b, c, rfl, rfl⟩
    · exact (Runs.emitStep htwin _ hvw).lift.attempt fun _ _ _ _ ht hk _ => .ok ht (hk _ _ hvw)
    · exact .abandon htwin _ _ _

theorem ident (p : Surroundings) (pos : Position) (name : String) : p.RunsExpr (.ident pos name) := by
  intro d e h
  rw [Expr.lower, Expr.lower]
  refine (Runs.resolve? h name).lift.attempt fun d' e' a b htwin _ hab => ?_
  cases hab with
  | some hvw => exact .ok htwin hvw
  | none => exact .abandon htwin _ _ _

theorem assign {target value : Expr} (iht : p.RunsExpr target) (ihv : p.RunsExpr value)
    (pos : Position) (operator : String) : p.RunsExpr (.assign pos operator target value) := by
  intro d e h
  rw [Expr.lower, Expr.lower]
  refine (ihv d e h).attempt fun d₁ e₁ r r' htwin₁ _ hr => ?_
  refine (iht d₁ e₁ htwin₁).attempt fun d₂ e₂ v w htwin hkeeps hvw => ?_
  rcases hvw.form with ⟨x, y, rfl, rfl, htemp⟩ | ⟨b, c, rfl, rfl⟩
  · dsimp only
    rw [htemp]
    split
    · exact .abandon htwin _ _ _
    · exact (Runs.emitAssign htwin pos operator hvw (hkeeps _ _ hr)).lift.attempt
        fun _ _ _ _ ht hk _ => .ok ht (hk _ _ hvw)
  · exact .abandon htwin _ _ _

end RunsExpr

mutual

theorem runsExpr (p : Surroundings) : ∀ x : Expr, p.RunsExpr x
  | .binary pos operator left right => by
    intro d e h
    rw [Expr.lower, Expr.lower]
    refine (p.runsExpr right d e h).attempt fun d₁ e₁ r r' htwin₁ _ hr => ?_
    refine (p.runsExpr left d₁ e₁ htwin₁).attempt fun d₂ e₂ l l' htwin hkeeps hl => ?_
    exact (Runs.emitBinary htwin pos operator hl (hkeeps _ _ hr)).lift.attempt
      fun _ _ _ _ ht _ hab => .ok ht hab
  | .unary pos operator operand => (p.runsExpr operand).unary pos operator
  | .ident pos name => .ident p pos name
  | .literal _ type value => by
    intro d e h
    rw [Expr.lower, Expr.lower]
    exact (Runs.newConstant h _ _).lift.attempt fun _ _ _ _ ht _ hab => .ok ht hab
  | .assign pos operator target value =>
    (p.runsExpr target).assign (p.runsExpr value) pos operator
  | .call _ callee args => by
    intro d e h
    rw [Expr.lower, Expr.lower]
    refine (p.runsExprs args h).attempt fun d' e' vs ws htwin _ hvs => ?_
    exact (Runs.emitCall htwin callee hvs).lift.attempt fun _ _ _ _ ht _ hab => .ok ht hab
  | .unknown pos kind => by
    intro d e h
    rw [Expr.lower, Expr.lower]
    exact .abandon h _ _ _
termination_by structural x => x

theorem runsExprs (p : Surroundings) : ∀ (xs : List Expr) {d e : Draft}, p.Twin d e →
    p.Runs d e (Expr.lowerAll p.left xs).run (Expr.lowerAll p.right xs).run
      (Outcome fun R vs ws => List.Forall₂ R vs ws)
  | [], d, e, h => by
    rw [Expr.lowerAll, Expr.lowerAll]
    exact .ok h .nil
  | x :: xs, d, e, h => by
    rw [Expr.lowerAll, Expr.lowerAll]
    refine (p.runsExpr x d e h).attempt fun d₁ e₁ v w htwin₁ _ hvw => ?_
    refine (p.runsExprs xs htwin₁).attempt fun d₂ e₂ vs ws htwin hkeeps hvs => ?_
    exact .ok htwin (.cons (hkeeps _ _ hvw) hvs)
termination_by structural xs => xs

end

/-- What is done with the value of an expression is done in both runs with corresponding ones. -/
theorem Runs.withValue (h : p.Twin d e) (x : Expr) {f g : Value → Emit Unit}
    (hf : ∀ d' e' v w, p.Twin d' e' → (∀ v w, p.Operands d e v w → p.Operands d' e' v w) →
      p.Operands d' e' v w → p.Runs d' e' (f v) (g w) Same) :
    p.Runs d e (withValue p.left x f) (withValue p.right x g) Same := by
  refine (p.runsExpr x d e h).bind fun d' e' a b htwin hkeeps hab => ?_
  cases hab with
  | ok hvw => exact hf d' e' _ _ htwin hkeeps hvw
  | error fault => exact .pure htwin rfl

namespace RunsStep

theorem idle (p : Surroundings) : p.RunsStep (return) (return) := fun _ _ h => .pure h rfl

theorem bind {x x' y y' : Emit Unit} (hx : p.RunsStep x x') (hy : p.RunsStep y y') :
    p.RunsStep (do x; y) (do x'; y') :=
  fun d e h => (hx d e h).andThen fun d' e' _ htwin _ => hy d' e' htwin

theorem report (p : Surroundings) (kind : DiagnosticKind) (pos : Position) (message : String) :
    p.RunsStep (discard (Draft.report kind pos message)) (discard (Draft.report kind pos message)) :=
  fun _ _ h => (Runs.report h kind pos message).andThen fun _ _ _ htwin _ => .pure htwin rfl

theorem decl (p : Surroundings) (decl : Decl) :
    p.RunsStep (decl.lower p.left) (decl.lower p.right) := by
  intro d e h
  unfold Decl.lower
  rw [p.aliases]
  refine (Runs.declare? h none decl.name _ _).bind fun d' e' a b htwin _ hab => ?_
  cases hab with
  | none => exact report p _ _ _ d' e' htwin
  | some hvw =>
    dsimp only
    split
    · exact .pure htwin rfl
    · refine .withValue htwin _ fun d'' e'' r r' htwin' hkeeps hr => ?_
      exact .emit htwin' (.assign (hkeeps _ _ hvw) hr) []

theorem ret (p : Surroundings) (value : Option Expr) :
    p.RunsStep (lowerReturn p.left value) (lowerReturn p.right value) := by
  intro d e h
  cases value with
  | none => exact .emit h (.ret .none) [0]
  | some x => exact .withValue h x fun d' e' v w htwin _ hvw => .emit htwin (.ret (.some hvw)) [0]

theorem ifThen {thenBranch : Stmt} {elseBranch : Option Stmt}
    (hthen : p.RunsStep (thenBranch.lower p.left) (thenBranch.lower p.right))
    (helse : p.RunsStep (Stmt.lowerOption p.left elseBranch) (Stmt.lowerOption p.right elseBranch))
    (pos : Position) (cond : Expr) :
    p.RunsStep (Stmt.lower p.left (.ifThen pos cond thenBranch elseBranch))
      (Stmt.lower p.right (.ifThen pos cond thenBranch elseBranch)) := by
  intro d e h
  rw [Stmt.lower, Stmt.lower]
  refine .withValue h cond fun d₁ e₁ v w h₁ _ hvw => ?_
  refine (Runs.size h₁).andThen fun d₂ e₂ head h₂ hkeeps => ?_
  refine (Runs.emit h₂ (.jumpIfTrue (hkeeps _ _ hvw)) []).andThen fun d₃ e₃ _ h₃ _ => ?_
  refine (Runs.lastAppended h₃ (hthen d₃ e₃ h₃)).andThen fun d₄ e₄ thenEnd h₄ _ => ?_
  refine (Runs.size h₄).andThen fun d₅ e₅ elseStart h₅ _ => ?_
  refine (Runs.lastAppended h₅ (helse d₅ e₅ h₅)).andThen fun d₆ e₆ elseEnd h₆ _ => ?_
  refine (Runs.setNext h₆ _ _).andThen fun d₇ e₇ _ h₇ _ => ?_
  refine (Runs.size h₇).andThen fun d₈ e₈ join h₈ _ => ?_
  refine (Runs.placeholder h₈).andThen fun d₉ e₉ _ h₉ _ => ?_
  exact (Runs.closeAt h₉ thenEnd join).andThen fun _ _ _ h _ => .closeAt h elseEnd join

theorem withHead (p : Surroundings) (cond : Option Expr) {f g : Nat → Emit Unit}
    (hf : ∀ head, p.RunsStep (f head) (g head)) :
    p.RunsStep (withHead p.left cond f) (withHead p.right cond g) := by
  intro d e h
  cases cond with
  | none =>
    refine (Runs.size h).andThen fun d₁ e₁ head h₁ _ => ?_
    exact (Runs.placeholder h₁).andThen fun d₂ e₂ _ h₂ _ => hf head d₂ e₂ h₂
  | some x =>
    refine .withValue h x fun d₁ e₁ v w h₁ _ hvw => ?_
    refine (Runs.size h₁).andThen fun d₂ e₂ head h₂ hkeeps => ?_
    exact (Runs.emit h₂ (.jumpIfTrue (hkeeps _ _ hvw)) []).andThen fun d₃ e₃ _ h₃ _ => hf head d₃ e₃ h₃

theorem closeLoop (p : Surroundings) (tail : Option Nat) (condition : Nat) :
    p.RunsStep (closeLoop tail condition) (closeLoop tail condition) := by
  intro d e h
  cases tail with
  | none => exact .emit h .jump _
  | some position => exact .closeAt h (some position) condition

theorem forLoop {init next : Option Stmt} {body : Stmt}
    (hinit : p.RunsStep (Stmt.lowerOption p.left init) (Stmt.lowerOption p.right init))
    (hbody : p.RunsStep (body.lower p.left) (body.lower p.right))
    (hnext : p.RunsStep (Stmt.lowerOption p.left next) (Stmt.lowerOption p.right next))
    (pos : Position) (cond : Option Expr) :
    p.RunsStep (Stmt.lower p.left (.forLoop pos init cond next body))
      (Stmt.lower p.right (.forLoop pos init cond next body)) := by
  intro d e h
  rw [Stmt.lower, Stmt.lower]
  refine (hinit d e h).andThen fun d₁ e₁ _ h₁ _ => ?_
  refine (Runs.size h₁).andThen fun d₂ e₂ condition h₂ _ => ?_
  refine withHead p cond (fun head d₃ e₃ h₃ => ?_) d₂ e₂ h₂
  refine (Runs.lastAppended h₃ (hbody d₃ e₃ h₃)).andThen fun d₄ e₄ bodyEnd h₄ _ => ?_
  refine (Runs.lastAppended h₄ (hnext d₄ e₄ h₄)).andThen fun d₅ e₅ nextEnd h₅ _ => ?_
  refine (closeLoop p _ condition d₅ e₅ h₅).andThen fun d₆ e₆ _ h₆ _ => ?_
  refine (Runs.size h₆).andThen fun d₇ e₇ join h₇ _ => ?_
  refine (Runs.placeholder h₇).andThen fun d₈ e₈ _ h₈ _ => ?_
  split
  · exact .setNext h₈ _ _
  · exact .pure h₈ rfl

end RunsStep

mutual

/-- A statement runs in twins. -/
theorem runsStmt (p : Surroundings) : ∀ s : Stmt, p.RunsStep (s.lower p.left) (s.lower p.right)
  | .block _ items => by
    rw [Stmt.lower, Stmt.lower]
    exact p.runsStmts items
  | .decl d => by
    rw [Stmt.lower, Stmt.lower]
    exact .decl p d
  | .ret _ value => by
    rw [Stmt.lower, Stmt.lower]
    exact .ret p value
  | .ifThen pos cond thenBranch elseBranch =>
    .ifThen (p.runsStmt thenBranch) (p.runsOption elseBranch) pos cond
  | .forLoop pos init cond next body =>
    .forLoop (p.runsOption init) (p.runsStmt body) (p.runsOption next) pos cond
  | .switch _ subject body => by
    rw [Stmt.lower, Stmt.lower]
    exact fun d e h => .withValue h subject fun d' e' _ _ htwin _ _ => p.runsStmt body d' e' htwin
  | .caseOf _ label stmts => by
    rw [Stmt.lower, Stmt.lower]
    refine .bind (fun d e h => ?_) (p.runsStmts stmts)
    exact .withValue h label fun _ _ _ _ htwin _ _ => .pure htwin rfl
  | .otherwise _ stmts => by
    rw [Stmt.lower, Stmt.lower]
    exact p.runsStmts stmts
  | .leave pos => by
    rw [Stmt.lower, Stmt.lower]
    exact .report p _ _ _
  | .empty _ => by
    rw [Stmt.lower, Stmt.lower]
    exact fun _ _ h => .placeholder h
  | .expr _ x => by
    rw [Stmt.lower, Stmt.lower]
    exact fun _ _ h => .withValue h x fun _ _ _ _ htwin _ _ => .pure htwin rfl
  | .unknown pos kind => by
    rw [Stmt.lower, Stmt.lower]
    exact .report p _ _ _
termination_by structural s => s

theorem runsStmts (p : Surroundings) :
    ∀ ss : List Stmt, p.RunsStep (Stmt.lowerAll p.left ss) (Stmt.lowerAll p.right ss)
  | [] => by
    rw [Stmt.lowerAll, Stmt.lowerAll]
    exact .idle p
  | s :: ss => by
    rw [Stmt.lowerAll, Stmt.lowerAll]
    exact .bind (p.runsStmt s) (p.runsStmts ss)
termination_by structural ss => ss

theorem runsOption (p : Surroundings) :
    ∀ s : Option Stmt, p.RunsStep (Stmt.lowerOption p.left s) (Stmt.lowerOption p.right s)
  | none => by
    rw [Stmt.lowerOption, Stmt.lowerOption]
    exact .idle p
  | some s => by
    rw [Stmt.lowerOption, Stmt.lowerOption]
    exact p.runsStmt s
termination_by structural s => s

end

theorem runsParameters (p : Surroundings) (scope : String) (params : List Decl) :
    p.RunsStep (lowerParameters p.left scope params) (lowerParameters p.right scope params) := by
  induction params with
  | nil => exact .idle p
  | cons param params ih =>
    intro d e h
    unfold lowerParameters
    rw [p.aliases]
    refine (Runs.declare? h _ _ _ _).bind fun d' e' a b htwin _ hab => ?_
    cases hab with
    | none => exact RunsStep.bind (.report p _ _ _) ih d' e' htwin
    | some hvw => exact ih d' e' htwin

/-- A function runs in twins. -/
theorem runsFunction (p : Surroundings) (scope : String) (f : FuncDef) :
    p.RunsStep (f.lower p.left scope) (f.lower p.right scope) := by
  refine .bind (p.runsParameters scope f.params) (.bind ?_ (.bind ?_ (.bind (p.runsStmts f.body) ?_)))
  · exact fun _ _ h => .emit h .exit []
  · exact fun _ _ h => .emit h .entry []
  · exact fun _ _ h => .emit h .jump [0]

end Surroundings
end SlotBoard
