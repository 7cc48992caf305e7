import SlotBoard.Proofs.Region

/-!
The layout of code in two passes. The first pass finds how many slots and how many numbers a piece of
syntax takes; the second writes each slot once, at its final address and with its final successors,
given the address where the piece starts and the address where it continues. Nothing is patched.
-/
namespace SlotBoard

/-- What the names in a piece of code stand for: the module around the function, the function's name,
the variables it has declared so far and the number of its next value. -/
structure Scope where
  ctx : Context
  owner : String
  locals : List Variable
  counter : Nat

namespace Scope

def skip (σ : Scope) (n : Nat) : Scope := { σ with counter := σ.counter + n }

def resolve? (σ : Scope) (name : String) : Option Variable :=
  (σ.locals.find? fun v => v.source = name).or (σ.ctx.globals.find? fun v => v.source = name)

def temporary (σ : Scope) (stem : String) (kind : Kind) : Variable :=
  .temporary stem σ.owner σ.counter kind (Draft.flagged σ.ctx {})

def constant (σ : Scope) (kind : Kind) (literal : String) : Constant :=
  .numbered σ.owner σ.counter kind literal

def result (σ : Scope) (operator : String) (left right : Value) : Variable :=
  let kind := Kind.shared left.kind right.kind
  σ.temporary "binary_op" (if (Opcode.ofOperator operator kind).isComparison then .boolean else kind)

def computation (σ : Scope) (operator : String) (left right : Value) : Operation :=
  .binary (.ofOperator operator (.shared left.kind right.kind)) left right
    (σ.result operator left right)

def callResult (σ : Scope) (callee : String) : Variable :=
  σ.temporary "call" ((σ.ctx.signatures.lookup callee).getD .unknown)

def variableOf (σ : Scope) (stem : String) (flags : Flags) (d : Decl) : Variable :=
  .declared d.name σ.owner stem σ.counter (.ofWords σ.ctx.aliases d.type)
    (Draft.flagged σ.ctx { flags with isVolatile := d.quals.contains "volatile" })

def add (σ : Scope) (v : Variable) : Scope :=
  { σ with locals := σ.locals ++ [v], counter := σ.counter + 1 }

def declare (σ : Scope) (d : Decl) : Scope := σ.add (σ.variableOf σ.owner {} d)

/-- The scope after a parameter, whose name is stamped with the module's; a second one of the same
name is left out. -/
def parameter (module : String) (σ : Scope) (p : Decl) : Scope :=
  if σ.locals.any fun v => v.source = p.name then σ
  else σ.add (σ.variableOf module { methodParam := true } p)

end Scope

def Value.target : Value → Variable
  | var v => v
  | _ => default

mutual

def Expr.size : Expr → Nat
  | .binary _ _ left right => right.size + left.size + 1
  | .unary _ _ operand => operand.size + 1
  | .ident .. | .literal .. | .unknown .. => 0
  | .assign _ operator target value =>
    value.size + target.size + if operator = "=" then 1 else 2
  | .call _ _ args => Expr.sizeAll args + 1
termination_by structural e => e

def Expr.sizeAll : List Expr → Nat
  | [] => 0
  | e :: es => e.size + Expr.sizeAll es
termination_by structural es => es

end

mutual

def Expr.draws : Expr → Nat
  | .binary _ _ left right => right.draws + left.draws + 1
  | .unary _ _ operand => operand.draws + 1
  | .ident .. | .unknown .. => 0
  | .literal .. => 1
  | .assign _ operator target value =>
    value.draws + target.draws + if operator = "=" then 0 else 1
  | .call _ _ args => Expr.drawsAll args + 1
termination_by structural e => e

def Expr.drawsAll : List Expr → Nat
  | [] => 0
  | e :: es => e.draws + Expr.drawsAll es
termination_by structural es => es

end

mutual

/-- The value of an expression: the variable or constant that stands for it in code. -/
def Expr.value (σ : Scope) : Expr → Value
  | .binary _ operator left right =>
    .var ((σ.skip (right.draws + left.draws)).result operator
      (left.value (σ.skip right.draws)) (right.value σ))
  | .unary _ _ operand => operand.value σ
  | .ident _ name => (σ.resolve? name).elim .unset .var
  | .literal _ type text => .const (σ.constant (.ofLiteral type) text)
  | .assign _ _ target value => target.value (σ.skip value.draws)
  | .call _ callee args => .var ((σ.skip (Expr.drawsAll args)).callResult callee)
  | .unknown .. => .unset
termination_by structural e => e

def Expr.valueAll (σ : Scope) : List Expr → List Value
  | [] => []
  | e :: es => e.value σ :: Expr.valueAll (σ.skip e.draws) es
termination_by structural es => es

end

def Scope.assignment (σ : Scope) (operator : String) (target : Variable) (value : Value) :
    List Operation :=
  if operator = "=" then [.assign (.var target) value]
  else
    [σ.computation (compoundOperator operator) (.var target) value,
      .assign (.var target) (.var (σ.result (compoundOperator operator) (.var target) value))]

def Scope.increment (σ : Scope) (operator : String) (target : Variable) : Operation :=
  .binary (.ofOperator ((stepOperator? operator).getD operator) (.shared target.kind .int))
    (.var target) (.const (σ.constant .int "1")) target

mutual

def Expr.code (σ : Scope) : Expr → List Operation
  | .binary _ operator left right =>
    right.code σ ++ left.code (σ.skip right.draws) ++
      [(σ.skip (right.draws + left.draws)).computation operator
        (left.value (σ.skip right.draws)) (right.value σ)]
  | .unary _ operator operand =>
    operand.code σ ++ [(σ.skip operand.draws).increment operator (operand.value σ).target]
  | .ident .. | .literal .. | .unknown .. => []
  | .assign _ operator target value =>
    value.code σ ++ target.code (σ.skip value.draws) ++
      (σ.skip (value.draws + target.draws)).assignment operator
        (target.value (σ.skip value.draws)).target (value.value σ)
  | .call _ callee args =>
    Expr.codeAll σ args ++
      [.call callee (Expr.valueAll σ args) ((σ.skip (Expr.drawsAll args)).callResult callee)]
termination_by structural e => e

def Expr.codeAll (σ : Scope) : List Expr → List Operation
  | [] => []
  | e :: es => e.code σ ++ Expr.codeAll (σ.skip e.draws) es
termination_by structural es => es

end

/-- Operations in slots of their own from address `a` on; the last one continues at `k`, every other
one at the next address. -/
def place (a k : Nat) : List Operation → List Slot
  | [] => []
  | [operation] => [Slot.single a ⟨operation, [(k : Int)]⟩]
  | operation :: operations =>
    Slot.single a ⟨operation, [((a + 1 : Nat) : Int)]⟩ :: place (a + 1) k operations

/-- Where a piece continues that is followed by `n` slots at address `a` and then by `k`. -/
def follow (n a k : Nat) : Nat := if n = 0 then k else a

mutual

def Stmt.size : Stmt → Nat
  | .block _ items => Stmt.sizeAll items
  | .decl d => d.init.elim 0 (·.size + 1)
  | .ret _ value => value.elim 1 (·.size + 1)
  | .ifThen _ cond thenBranch elseBranch =>
    cond.size + 1 + thenBranch.size + Stmt.sizeOption elseBranch + 1
  | .forLoop _ init cond next body =>
    Stmt.sizeOption init + cond.elim 0 Expr.size + 1 + body.size + Stmt.sizeOption next +
      (if body.size = 0 ∧ Stmt.sizeOption next = 0 then 1 else 0) + 1
  | .switch _ subject body => subject.size + body.size
  | .caseOf _ label stmts => label.size + Stmt.sizeAll stmts
  | .otherwise _ stmts => Stmt.sizeAll stmts
  | .leave _ | .unknown .. => 0
  | .empty _ => 1
  | .expr _ x => x.size
termination_by structural s => s

def Stmt.sizeAll : List Stmt → Nat
  | [] => 0
  | s :: ss => s.size + Stmt.sizeAll ss
termination_by structural ss => ss

def Stmt.sizeOption : Option Stmt → Nat
  | none => 0
  | some s => s.size
termination_by structural s => s

end

mutual

def Stmt.past (σ : Scope) : Stmt → Scope
  | .block _ items => Stmt.pastAll σ items
  | .decl d => (σ.declare d).skip (d.init.elim 0 Expr.draws)
  | .ret _ value => σ.skip (value.elim 0 Expr.draws)
  | .ifThen _ cond thenBranch elseBranch =>
    Stmt.pastOption (thenBranch.past (σ.skip cond.draws)) elseBranch
  | .forLoop _ init cond next body =>
    Stmt.pastOption (body.past ((Stmt.pastOption σ init).skip (cond.elim 0 Expr.draws))) next
  | .switch _ subject body => body.past (σ.skip subject.draws)
  | .caseOf _ label stmts => Stmt.pastAll (σ.skip label.draws) stmts
  | .otherwise _ stmts => Stmt.pastAll σ stmts
  | .leave _ | .unknown .. | .empty _ => σ
  | .expr _ x => σ.skip x.draws
termination_by structural s => s

def Stmt.pastAll (σ : Scope) : List Stmt → Scope
  | [] => σ
  | s :: ss => Stmt.pastAll (s.past σ) ss
termination_by structural ss => ss

def Stmt.pastOption (σ : Scope) : Option Stmt → Scope
  | none => σ
  | some s => s.past σ
termination_by structural s => s

end

/-- The head of a loop at an address: a conditional jump to the next slot and to the join, or without
a condition a jump to the next slot. -/
def loopHead (σ : Scope) (cond : Option Expr) (head join : Nat) : Slot :=
  match cond with
  | some e => Slot.single head ⟨.jumpIfTrue (e.value σ), [((head + 1 : Nat) : Int), (join : Int)]⟩
  | none => Slot.single head (.jump ((head + 1 : Nat) : Int))

def loopJump (n a condition : Nat) : List Slot :=
  if n = 0 then [Slot.single a (.jump condition)] else []

mutual

/-- The code of a statement at address `a` that continues at `k`. -/
def Stmt.layout (σ : Scope) (a k : Nat) : Stmt → List Slot
  | .block _ items => Stmt.layoutAll σ a k items
  | .decl d =>
    d.init.elim [] fun e =>
      place a k (e.code (σ.declare d) ++
        [.assign (.var (σ.variableOf σ.owner {} d)) (e.value (σ.declare d))])
  | .ret _ none => [Slot.single a (.ret none)]
  | .ret _ (some e) =>
    place a (a + e.size) (e.code σ) ++ [Slot.single (a + e.size) (.ret (some (e.value σ)))]
  | .ifThen _ cond thenBranch elseBranch =>
    let head := a + cond.size
    let elseStart := head + 1 + thenBranch.size
    let join := elseStart + Stmt.sizeOption elseBranch
    let inner := σ.skip cond.draws
    place a head (cond.code σ) ++
      Slot.single head ⟨.jumpIfTrue (cond.value σ), [((head + 1 : Nat) : Int), (elseStart : Int)]⟩ ::
      (thenBranch.layout inner (head + 1) join ++
        (Stmt.layoutOption (thenBranch.past inner) elseStart join elseBranch ++
          [Slot.single join (.jump k)]))
  | .forLoop _ init cond next body =>
    let condition := a + Stmt.sizeOption init
    let head := condition + cond.elim 0 Expr.size
    let nextStart := head + 1 + body.size
    let back := nextStart + Stmt.sizeOption next
    let join := back + if body.size = 0 ∧ Stmt.sizeOption next = 0 then 1 else 0
    let outer := Stmt.pastOption σ init
    let inner := outer.skip (cond.elim 0 Expr.draws)
    Stmt.layoutOption σ a condition init ++
      (place condition head (cond.elim [] (·.code outer)) ++
        loopHead outer cond head join ::
        (body.layout inner (head + 1) (follow (Stmt.sizeOption next) nextStart condition) ++
          (Stmt.layoutOption (body.past inner) nextStart condition next ++
            (loopJump (body.size + Stmt.sizeOption next) back condition ++
              [Slot.single join (.jump k)]))))
  | .switch _ subject body =>
    place a (follow body.size (a + subject.size) k) (subject.code σ) ++
      body.layout (σ.skip subject.draws) (a + subject.size) k
  | .caseOf _ label stmts =>
    place a (follow (Stmt.sizeAll stmts) (a + label.size) k) (label.code σ) ++
      Stmt.layoutAll (σ.skip label.draws) (a + label.size) k stmts
  | .otherwise _ stmts => Stmt.layoutAll σ a k stmts
  | .leave _ | .unknown .. => []
  | .empty _ => [Slot.single a (.jump k)]
  | .expr _ x => place a k (x.code σ)
termination_by structural s => s

def Stmt.layoutAll (σ : Scope) (a k : Nat) : List Stmt → List Slot
  | [] => []
  | s :: ss =>
    s.layout σ a (follow (Stmt.sizeAll ss) (a + s.size) k) ++
      Stmt.layoutAll (s.past σ) (a + s.size) k ss
termination_by structural ss => ss

def Stmt.layoutOption (σ : Scope) (a k : Nat) : Option Stmt → List Slot
  | none => []
  | some s => s.layout σ a k
termination_by structural s => s

end

theorem length_place (a k : Nat) (operations : List Operation) :
    (place a k operations).length = operations.length := by
  fun_induction place a k operations with
  | case1 => rfl
  | case2 => rfl
  | case3 a operation operations hne ih => rw [List.length_cons, List.length_cons, ih]

theorem place_cons (a k : Nat) (operation : Operation) (operations : List Operation) :
    place a k (operation :: operations) =
      Slot.single a ⟨operation, [(follow operations.length (a + 1) k : Int)]⟩ ::
        place (a + 1) k operations := by
  cases operations with
  | nil => rfl
  | cons next rest => rfl

theorem follow_end (n m : Nat) : follow n m (m + n) = m := by
  unfold follow
  split
  · omega
  · rfl

/-- The code of two lists of operations in a row. -/
theorem place_append (a : Nat) (xs ys : List Operation) :
    place a (a + (xs ++ ys).length) (xs ++ ys) =
      place a (a + xs.length) xs ++
        place (a + xs.length) (a + xs.length + ys.length) ys := by
  induction xs generalizing a with
  | nil => simp [place]
  | cons x xs ih =>
    have hend : ∀ zs : List Operation, a + (x :: zs).length = a + 1 + zs.length := by
      intro zs
      rw [List.length_cons]
      omega
    rw [List.cons_append, hend, hend, place_cons, place_cons, follow_end, follow_end, ih (a + 1)]
    rfl

/-- Closing two pieces in a row closes the second, or the first if the second has no slots. -/
theorem closeLast_seq (xs ys : Nat → List Slot) {m n k : Nat} (hn : (ys (m + n)).length = n)
    (hx : closeLast k (xs m) = xs k) (hy : closeLast k (ys (m + n)) = ys k) :
    closeLast k (xs m ++ ys (m + n)) = xs (follow n m k) ++ ys k := by
  have hk : (ys k).length = n := by rw [← hy, length_closeLast, hn]
  by_cases hzero : n = 0
  · subst hzero
    rw [List.length_eq_zero_iff.mp hk, List.length_eq_zero_iff.mp hn, List.append_nil,
      List.append_nil]
    exact hx
  · have hne : ys (m + n) ≠ [] := by
      intro hnil
      rw [hnil] at hn
      exact hzero hn.symm
    rw [closeLast_append k _ _ hne, hy, follow, if_neg hzero]

theorem closeLast_place (a k : Nat) {operations : List Operation}
    (h : ∀ operation ∈ operations, operation.computes = true) :
    closeLast k (place a (a + operations.length) operations) = place a k operations := by
  induction operations generalizing a with
  | nil => rfl
  | cons operation operations ih =>
    obtain ⟨hop, hops⟩ := List.forall_mem_cons.mp h
    have hclose := closeLast_seq (fun k => [Slot.single a ⟨operation, [(k : Int)]⟩])
      (fun k => place (a + 1) k operations) (length_place (a + 1) _ operations) ?_ (ih (a + 1) hops)
    · have hend : a + (operation :: operations).length = a + 1 + operations.length := by
        rw [List.length_cons]
        omega
      rw [hend, place_cons, place_cons, follow_end]
      exact hclose
    · exact congrArg (· :: []) (Slot.close_goesOn a k operation (Operation.goesOn_of_computes hop))

mutual

theorem Expr.length_code : ∀ (e : Expr) (σ : Scope), (e.code σ).length = e.size
  | .binary _ _ left right, σ => by
    simp only [Expr.code, Expr.size, List.length_append, List.length_singleton, right.length_code,
      left.length_code]
  | .unary _ _ operand, σ => by
    simp only [Expr.code, Expr.size, List.length_append, List.length_singleton,
      operand.length_code]
  | .ident .., _ | .literal .., _ | .unknown .., _ => rfl
  | .assign _ operator target value, σ => by
    simp only [Expr.code, Expr.size, List.length_append, value.length_code, target.length_code,
      Scope.assignment]
    split <;> rfl
  | .call _ _ args, σ => by
    simp only [Expr.code, Expr.size, List.length_append, List.length_singleton,
      Expr.length_codeAll args]
termination_by structural e => e

theorem Expr.length_codeAll :
    ∀ (es : List Expr) (σ : Scope), (Expr.codeAll σ es).length = Expr.sizeAll es
  | [], _ => rfl
  | e :: es, σ => by
    simp only [Expr.codeAll, Expr.sizeAll, List.length_append, e.length_code,
      Expr.length_codeAll es]
termination_by structural es => es

end

theorem Expr.length_codeOption (cond : Option Expr) (σ : Scope) :
    (cond.elim [] (·.code σ)).length = cond.elim 0 Expr.size := by
  cases cond with
  | none => rfl
  | some e => exact e.length_code σ

theorem Scope.assignment_computes (σ : Scope) (operator : String) (target : Variable)
    (value : Value) :
    ∀ operation ∈ σ.assignment operator target value, operation.computes = true := by
  unfold assignment
  split
  · exact List.forall_mem_singleton.mpr rfl
  · exact List.forall_mem_cons.mpr ⟨rfl, List.forall_mem_singleton.mpr rfl⟩

mutual

theorem Expr.code_computes :
    ∀ (e : Expr) (σ : Scope), ∀ operation ∈ e.code σ, operation.computes = true
  | .binary _ _ left right, σ => by
    rw [Expr.code]
    refine List.forall_mem_append.mpr ⟨List.forall_mem_append.mpr ?_, ?_⟩
    · exact ⟨right.code_computes σ, left.code_computes _⟩
    · exact List.forall_mem_singleton.mpr rfl
  | .unary _ _ operand, σ => by
    rw [Expr.code]
    exact List.forall_mem_append.mpr
      ⟨operand.code_computes σ, List.forall_mem_singleton.mpr rfl⟩
  | .ident .., _ | .literal .., _ | .unknown .., _ => List.forall_mem_nil _
  | .assign _ operator target value, σ => by
    rw [Expr.code]
    refine List.forall_mem_append.mpr ⟨List.forall_mem_append.mpr ?_, ?_⟩
    · exact ⟨value.code_computes σ, target.code_computes _⟩
    · exact Scope.assignment_computes _ _ _ _
  | .call _ _ args, σ => by
    rw [Expr.code]
    exact List.forall_mem_append.mpr
      ⟨Expr.codeAll_computes args σ, List.forall_mem_singleton.mpr rfl⟩
termination_by structural e => e

theorem Expr.codeAll_computes :
    ∀ (es : List Expr) (σ : Scope), ∀ operation ∈ Expr.codeAll σ es, operation.computes = true
  | [], _ => List.forall_mem_nil _
  | e :: es, σ => by
    rw [Expr.codeAll]
    exact List.forall_mem_append.mpr ⟨e.code_computes σ, Expr.codeAll_computes es _⟩
termination_by structural es => es

end

theorem Expr.closeLast_place (e : Expr) (σ : Scope) (a k : Nat) :
    closeLast k (place a (a + e.size) (e.code σ)) = place a k (e.code σ) := by
  have hclose := SlotBoard.closeLast_place a k (e.code_computes σ)
  rwa [e.length_code] at hclose

theorem length_loopJump (m n a condition : Nat) :
    (loopJump (m + n) a condition).length = if m = 0 ∧ n = 0 then 1 else 0 := by
  unfold loopJump
  simp only [Nat.add_eq_zero_iff]
  split <;> rfl

mutual

theorem Stmt.length_layout :
    ∀ (s : Stmt) (σ : Scope) (a k : Nat), (s.layout σ a k).length = s.size
  | .block _ items, σ, a, k => by
    rw [Stmt.layout, Stmt.size, Stmt.length_layoutAll items]
  | .decl d, σ, a, k => by
    rw [Stmt.layout, Stmt.size]
    cases d.init with
    | none => rfl
    | some e =>
      simp only [Option.elim_some, length_place, List.length_append, e.length_code,
        List.length_singleton]
  | .ret _ none, σ, a, k => rfl
  | .ret _ (some e), σ, a, k => by
    simp only [Stmt.layout, Stmt.size, Option.elim_some, length_place, List.length_append,
      e.length_code, List.length_singleton]
  | .ifThen _ cond thenBranch elseBranch, σ, a, k => by
    simp only [Stmt.layout, Stmt.size, length_place, List.length_append, List.length_cons,
      cond.length_code, thenBranch.length_layout, Stmt.length_layoutOption elseBranch,
      List.length_nil]
    omega
  | .forLoop _ init cond next body, σ, a, k => by
    simp only [Stmt.layout, Stmt.size, length_place, List.length_append, List.length_cons,
      Expr.length_codeOption, length_loopJump, body.length_layout, Stmt.length_layoutOption init, Stmt.length_layoutOption next,
      List.length_nil]
    omega
  | .switch _ subject body, σ, a, k => by
    simp only [Stmt.layout, Stmt.size, length_place, List.length_append, subject.length_code,
      body.length_layout]
  | .caseOf _ label stmts, σ, a, k => by
    simp only [Stmt.layout, Stmt.size, length_place, List.length_append, label.length_code,
      Stmt.length_layoutAll stmts]
  | .otherwise _ stmts, σ, a, k => by
    rw [Stmt.layout, Stmt.size, Stmt.length_layoutAll stmts]
  | .leave _, _, _, _ | .unknown .., _, _, _ | .empty _, _, _, _ => rfl
  | .expr _ x, σ, a, k => by
    rw [Stmt.layout, Stmt.size, length_place, x.length_code]
termination_by structural s => s

theorem Stmt.length_layoutAll :
    ∀ (ss : List Stmt) (σ : Scope) (a k : Nat), (Stmt.layoutAll σ a k ss).length = Stmt.sizeAll ss
  | [], _, _, _ => rfl
  | s :: ss, σ, a, k => by
    rw [Stmt.layoutAll, Stmt.sizeAll, List.length_append, s.length_layout,
      Stmt.length_layoutAll ss]
termination_by structural ss => ss

theorem Stmt.length_layoutOption :
    ∀ (s : Option Stmt) (σ : Scope) (a k : Nat),
      (Stmt.layoutOption σ a k s).length = Stmt.sizeOption s
  | none, _, _, _ => rfl
  | some s, σ, a, k => by
    rw [Stmt.layoutOption, Stmt.sizeOption, s.length_layout]
termination_by structural s => s

end

theorem closeLast_jump (join k : Nat) :
    closeLast k [Slot.single join (.jump ((join + 1 : Nat) : Int))] =
      [Slot.single join (.jump k)] :=
  congrArg (· :: []) (Slot.close_goesOn join k .jump rfl)

/-- Closing reaches through what stands before the last piece. -/
theorem closeLast_behind (xs : List Slot) {k : Nat} {ys zs : List Slot} (hys : ys ≠ [])
    (h : closeLast k ys = zs) : closeLast k (xs ++ ys) = xs ++ zs := by
  rw [closeLast_append k xs ys hys, h]

mutual

/-- Closing the last slot of code that continues right after itself gives the code that continues
elsewhere. -/
theorem Stmt.closeLast_layout : ∀ (s : Stmt) (σ : Scope) (a k : Nat),
    closeLast k (s.layout σ a (a + s.size)) = s.layout σ a k
  | .block _ items, σ, a, k => by
    rw [Stmt.layout, Stmt.layout, Stmt.size, Stmt.closeLast_layoutAll items]
  | .decl d, σ, a, k => by
    rw [Stmt.layout, Stmt.layout, Stmt.size]
    cases d.init with
    | none => rfl
    | some e =>
      have hops : ∀ operation ∈ e.code (σ.declare d) ++
          [.assign (.var (σ.variableOf σ.owner {} d)) (e.value (σ.declare d))],
          operation.computes = true :=
        List.forall_mem_append.mpr ⟨e.code_computes _, List.forall_mem_singleton.mpr rfl⟩
      have hclose := SlotBoard.closeLast_place a k hops
      rwa [List.length_append, e.length_code] at hclose
  | .ret _ none, σ, a, k => rfl
  | .ret _ (some e), σ, a, k => by
    rw [Stmt.layout, closeLast_concat, Slot.close_ret, Stmt.layout]
  | .ifThen _ cond thenBranch elseBranch, σ, a, k => by
    have hend : a + (cond.size + 1 + thenBranch.size + Stmt.sizeOption elseBranch + 1) =
        a + cond.size + 1 + thenBranch.size + Stmt.sizeOption elseBranch + 1 := by omega
    simp only [Stmt.layout, Stmt.size, hend]
    refine closeLast_behind _ (by simp) (closeLast_behind [_] (by simp) ?_)
    exact closeLast_behind _ (by simp) (closeLast_behind _ (by simp) (closeLast_jump _ k))
  | .forLoop _ init cond next body, σ, a, k => by
    have hend : a + (Stmt.sizeOption init + cond.elim 0 Expr.size + 1 + body.size +
        Stmt.sizeOption next + (if body.size = 0 ∧ Stmt.sizeOption next = 0 then 1 else 0) + 1) =
      a + Stmt.sizeOption init + cond.elim 0 Expr.size + 1 + body.size + Stmt.sizeOption next +
        (if body.size = 0 ∧ Stmt.sizeOption next = 0 then 1 else 0) + 1 := by omega
    simp only [Stmt.layout, Stmt.size, hend]
    refine closeLast_behind _ (by simp) (closeLast_behind _ (by simp) ?_)
    refine closeLast_behind [_] (by simp) (closeLast_behind _ (by simp) ?_)
    exact closeLast_behind _ (by simp) (closeLast_behind _ (by simp) (closeLast_jump _ k))
  | .switch _ subject body, σ, a, k => by
    rw [Stmt.layout, Stmt.layout, Stmt.size, ← Nat.add_assoc, follow_end]
    exact closeLast_seq (fun k => place a k (subject.code σ))
      (fun k => body.layout (σ.skip subject.draws) (a + subject.size) k)
      (body.length_layout _ _ _) (subject.closeLast_place σ a k) (body.closeLast_layout _ _ k)
  | .caseOf _ label stmts, σ, a, k => by
    rw [Stmt.layout, Stmt.layout, Stmt.size, ← Nat.add_assoc, follow_end]
    exact closeLast_seq (fun k => place a k (label.code σ))
      (fun k => Stmt.layoutAll (σ.skip label.draws) (a + label.size) k stmts)
      (Stmt.length_layoutAll stmts _ _ _) (label.closeLast_place σ a k)
      (Stmt.closeLast_layoutAll stmts _ _ k)
  | .otherwise _ stmts, σ, a, k => by
    rw [Stmt.layout, Stmt.layout, Stmt.size, Stmt.closeLast_layoutAll stmts]
  | .leave _, _, _, _ | .unknown .., _, _, _ => rfl
  | .empty _, σ, a, k => closeLast_jump a k
  | .expr _ x, σ, a, k => by
    rw [Stmt.layout, Stmt.layout, Stmt.size, x.closeLast_place]
termination_by structural s => s

theorem Stmt.closeLast_layoutAll : ∀ (ss : List Stmt) (σ : Scope) (a k : Nat),
    closeLast k (Stmt.layoutAll σ a (a + Stmt.sizeAll ss) ss) = Stmt.layoutAll σ a k ss
  | [], _, _, _ => rfl
  | s :: ss, σ, a, k => by
    rw [Stmt.layoutAll, Stmt.layoutAll, Stmt.sizeAll, ← Nat.add_assoc, follow_end]
    exact closeLast_seq (fun k => s.layout σ a k)
      (fun k => Stmt.layoutAll (s.past σ) (a + s.size) k ss)
      (Stmt.length_layoutAll ss _ _ _) (s.closeLast_layout σ a k)
      (Stmt.closeLast_layoutAll ss _ _ k)
termination_by structural ss => ss

end

theorem Stmt.closeLast_layoutOption (s : Option Stmt) (σ : Scope) (a k : Nat) :
    closeLast k (Stmt.layoutOption σ a (a + Stmt.sizeOption s) s) = Stmt.layoutOption σ a k s := by
  cases s with
  | none => rfl
  | some s => exact s.closeLast_layout σ a k

/-- A turn of a loop, closed at the condition. -/
theorem loopBack_layout (body : Stmt) (next : Option Stmt) (σ τ : Scope) (condition a : Nat) :
    loopBack condition a (body.layout σ a (a + body.size) ++
      Stmt.layoutOption τ (a + body.size) (a + body.size + Stmt.sizeOption next) next) =
    body.layout σ a (follow (Stmt.sizeOption next) (a + body.size) condition) ++
      (Stmt.layoutOption τ (a + body.size) condition next ++
        loopJump (body.size + Stmt.sizeOption next) (a + body.size + Stmt.sizeOption next)
          condition) := by
  have hclose := closeLast_seq (k := condition) (fun k => body.layout σ a k)
    (fun k => Stmt.layoutOption τ (a + body.size) k next)
    (Stmt.length_layoutOption next _ _ _) (body.closeLast_layout σ a condition)
    (Stmt.closeLast_layoutOption next _ _ condition)
  have hlength : (body.layout σ a (a + body.size) ++ Stmt.layoutOption τ (a + body.size)
      (a + body.size + Stmt.sizeOption next) next).length = body.size + Stmt.sizeOption next := by
    rw [List.length_append, body.length_layout, Stmt.length_layoutOption]
  generalize hturn : body.layout σ a (a + body.size) ++ Stmt.layoutOption τ (a + body.size)
    (a + body.size + Stmt.sizeOption next) next = turn at hclose hlength ⊢
  rw [← List.append_assoc, ← hclose]
  cases turn with
  | nil =>
    have hzero : body.size + Stmt.sizeOption next = 0 := hlength.symm
    rw [Nat.add_assoc, hzero]
    rfl
  | cons slot slots =>
    have hpos : body.size + Stmt.sizeOption next ≠ 0 := by
      rw [← hlength]
      simp
    rw [loopJump, if_neg hpos, List.append_nil]
    rfl

end SlotBoard
