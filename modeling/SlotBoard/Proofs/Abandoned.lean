import SlotBoard.Proofs.TwoPass

/-!
What a statement leaves on the board when its expression cannot be lowered. The statement is given up
and nothing more of it is lowered, but slots that are written stay: those are the code of the parts of
the expression that come before the one that cannot be lowered. So nothing is left if these parts are
names and literals, and otherwise some of the statement is executed although it is rejected.
-/
namespace SlotBoard

def Expr.isAtom : Expr → Bool
  | .ident .. | .literal .. | .unknown .. => true
  | .binary .. | .unary .. | .assign .. | .call .. => false

theorem Expr.size_eq_zero_iff (e : Expr) : e.size = 0 ↔ e.isAtom = true := by
  cases e with
  | assign pos operator target value =>
    rw [Expr.size, Expr.isAtom]
    split <;> simp
  | _ => simp [Expr.size, Expr.isAtom]

theorem Expr.sizeAll_eq_zero_iff (es : List Expr) :
    Expr.sizeAll es = 0 ↔ ∀ e ∈ es, e.isAtom = true := by
  induction es with
  | nil => simp [Expr.sizeAll]
  | cons e es ih => rw [Expr.sizeAll, Nat.add_eq_zero_iff, e.size_eq_zero_iff, ih, List.forall_mem_cons]

/-- The lowering of a statement starts with the one of an expression: what is written before that is
at most the variable that the statement declares. -/
inductive Stmt.StartsWith (ctx : Context) (d : Draft) : Stmt → Draft → Expr → Prop
  | expr (pos : Position) (e : Expr) : StartsWith ctx d (.expr pos e) d e
  | ret (pos : Position) (e : Expr) : StartsWith ctx d (.ret pos (some e)) d e
  | ifThen (pos : Position) (e : Expr) (thenBranch : Stmt) (elseBranch : Option Stmt) :
    StartsWith ctx d (.ifThen pos e thenBranch elseBranch) d e
  | switch (pos : Position) (e : Expr) (body : Stmt) : StartsWith ctx d (.switch pos e body) d e
  | decl (x : Decl) (e : Expr) : x.init = some e → d.board.local? x.name = none →
    StartsWith ctx d (.decl x)
      (d.after (Draft.declare? ctx none x.name (.ofWords ctx.aliases x.type)
        { isVolatile := x.quals.contains "volatile" })) e

namespace Stmt.StartsWith

variable {ctx : Context} {d start : Draft} {s : Stmt} {e : Expr}

theorem slots_eq (h : s.StartsWith ctx d start e) : start.board.slots = d.board.slots := by
  cases h with
  | decl x e hinit hnew => exact (d.declare_new ctx none x.name _ _ hnew).1
  | _ => rfl

theorem grows (h : s.StartsWith ctx d start e) : d.Grows start := by
  cases h with
  | decl x e hinit hnew => exact (Draft.Grows.slotBlind ctx).declare _ _ _ _ d
  | _ => exact .refl d

/-- Nothing more of a statement is lowered once its expression is given up. -/
theorem after_of_error (h : s.StartsWith ctx d start e) {fault : Diagnostic}
    (hfault : start.answer (e.lower ctx).run = .error fault) :
    d.after (s.lower ctx) = start.after (e.lower ctx).run := by
  cases h with
  | decl x e hinit hnew =>
    have hanswer := d.answer_declare? ctx none x.name (.ofWords ctx.aliases x.type)
      { isVolatile := x.quals.contains "volatile" }
    rw [hnew] at hanswer
    rw [Stmt.lower]
    unfold Decl.lower
    rw [Draft.after_bind, hanswer, hinit]
    exact after_withValue_of_error hfault _
  | _ =>
    rw [Stmt.lower]
    exact after_withValue_of_error hfault _

end Stmt.StartsWith

/-- A statement whose expression is given up leaves exactly the code of the parts that are lowered
before the failure, and reports the failure last. It leaves the slots as they are exactly if all those
parts are names and literals. -/
theorem abandoned_statement_leaves_prior_code {ctx : Context} {d start : Draft} {s : Stmt} {e : Expr}
    {fault : Diagnostic} (hstart : s.StartsWith ctx d start e)
    (hfault : start.answer (e.lower ctx).run = .error fault) :
    let parts := e.prior (start.scope ctx)
    let code := Expr.codeAll (start.scope ctx) parts
    (d.after (s.lower ctx)).board.slots = d.board.slots ++
        place d.board.slots.length (d.board.slots.length + code.length) code ∧
      (∃ front, d.diagnostics <+: front ∧ (d.after (s.lower ctx)).diagnostics = front ++ [fault]) ∧
      ((d.after (s.lower ctx)).board.slots = d.board.slots ↔ ∀ x ∈ parts, x.isAtom = true) := by
  intro parts code
  obtain ⟨fault', hemits, front, hfront, hlast⟩ := Expr.fails_of_error hfault
  obtain rfl : fault = fault' := Except.error.inj (hfault.symm.trans hemits.answer)
  have hslots := hemits.slots
  rw [← hstart.after_of_error hfault, hstart.slots_eq] at hslots
  rw [← hstart.after_of_error hfault] at hlast
  refine ⟨hslots, ⟨front, hstart.grows.diagnostics.trans hfront, hlast⟩, ?_⟩
  rw [hslots, List.append_right_eq_self, ← List.length_eq_zero_iff, length_place,
    Expr.length_codeAll, Expr.sizeAll_eq_zero_iff]

/-- `h(n, n + n, u)` -/
def carelessCall : Expr :=
  .call {} "h" [.ident {} "n", .binary {} "+" (.ident {} "n") (.ident {} "n"), .ident {} "u"]

def carelessDecl : Decl := ⟨{}, "x", ["int"], [], [], some carelessCall⟩

/-- `u + g()` -/
def carelessSum : Expr := .binary {} "+" (.ident {} "u") (.call {} "g" [])

/-- A function that declares `x` with a call whose last argument is not known, and then adds the result
of a call to a name that is not known. -/
def carelessFunction : FuncDef where
  pos := {}
  name := "f"
  returnType := ["void"]
  storage := []
  params := [⟨{}, "n", ["int"], [], [], none⟩]
  bodyPos := {}
  body := [.decl carelessDecl, .expr {} carelessSum]

theorem carelessDecl_leaves_argument :
    let l := Lowering.start "m" []
    let ctx := l.context carelessFunction
    let d := carelessFunction.opened ctx "m" (l.blank carelessFunction)
    let start := d.after (Draft.declare? ctx none "x" .int {})
    let parts := carelessCall.prior (start.scope ctx)
    let code := Expr.codeAll (start.scope ctx) parts
    (start.answer (carelessCall.lower ctx).run).toOption = none ∧
      parts = [.ident {} "n", .binary {} "+" (.ident {} "n") (.ident {} "n")] ∧ code.length = 1 ∧
      (d.after ((Stmt.decl carelessDecl).lower ctx)).board.slots = d.board.slots ++
        place d.board.slots.length (d.board.slots.length + code.length) code ∧
      (d.after ((Stmt.decl carelessDecl).lower ctx)).board.slots ≠ d.board.slots := by
  intro l ctx d start parts code
  have hstart : (Stmt.decl carelessDecl).StartsWith ctx d start carelessCall := .decl _ _ rfl rfl
  have hfault : start.answer (carelessCall.lower ctx).run =
      .error ⟨.unresolved, {}, "f", "identifier u"⟩ := by rfl
  have hparts : parts = [.ident {} "n", .binary {} "+" (.ident {} "n") (.ident {} "n")] := by rfl
  have hsum : .binary {} "+" (.ident {} "n") (.ident {} "n") ∈ parts := by
    rw [hparts]
    exact .tail _ (.head _)
  obtain ⟨hslots, -, hatoms⟩ := abandoned_statement_leaves_prior_code hstart hfault
  refine ⟨by decide +kernel, hparts, by decide +kernel, hslots, fun h => ?_⟩
  exact absurd (hatoms.mp h _ hsum) Bool.false_ne_true

/-- The statement `u + g();` is rejected since `u` is not known, but `g` is called. -/
theorem carelessSum_leaves_call :
    let l := Lowering.start "m" []
    let ctx := l.context carelessFunction
    let d := carelessFunction.opened ctx "m" (l.blank carelessFunction)
    (d.answer (carelessSum.lower ctx).run).toOption = none ∧
      (d.after ((Stmt.expr {} carelessSum).lower ctx)).board.slots ≠ d.board.slots := by
  decide +kernel

end SlotBoard
