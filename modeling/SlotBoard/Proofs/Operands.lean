import SlotBoard.Proofs.Function
import SlotBoard.Proofs.Layout

/-!
The operands of items. A block is a list of operations that run one after the other; every operation
of it reads values that are known, and temporaries only if an operation before it in the block has
computed them. The lowering of an expression writes one block in straight line, also if it is given up
half way, and the value it returns can be read behind that block.
-/
namespace SlotBoard

variable {α β : Type}

namespace Operation

def reads : Operation → List Value
  | assign _ source => [source]
  | binary _ left right _ => [left, right]
  | call _ args _ => args
  | ret value => value.toList
  | jumpIfTrue cond => [cond]
  | select key cases => key :: cases
  | jump | entry | exit => []

def writes : Operation → List Value
  | assign target _ => [target]
  | binary _ _ _ result | call _ _ result => [.var result]
  | _ => []

def result? : Operation → Option Variable
  | binary _ _ _ result | call _ _ result => some result
  | _ => none

end Operation

/-- A value can be read behind some operations: it is known, and it is computed by one of them if it
is a temporary. -/
structure Value.Ready (known : Value → Prop) (operations : List Operation) (value : Value) : Prop where
  known : known value
  computed : ∀ t, value = .var t → t.temp = true → ∃ x ∈ operations, x.result? = some t

/-- At a later point more values are known and more operations have run. -/
structure Later (known : Value → Prop) (xs : List Operation) (known' : Value → Prop)
    (ys : List Operation) : Prop where
  known : ∀ v, known v → known' v
  operations : xs ⊆ ys

namespace Later

variable {known known' known'' : Value → Prop} {xs ys zs : List Operation}

theorem refl (known : Value → Prop) (xs : List Operation) : Later known xs known xs :=
  ⟨fun _ h => h, List.Subset.refl _⟩

theorem trans (h : Later known xs known' ys) (h' : Later known' ys known'' zs) :
    Later known xs known'' zs :=
  ⟨fun v hv => h'.known v (h.known v hv), List.Subset.trans h.operations h'.operations⟩

theorem ready (h : Later known xs known' ys) {value : Value} (hvalue : value.Ready known xs) :
    value.Ready known' ys where
  known := h.known value hvalue.known
  computed t ht htemp := by
    obtain ⟨x, hx, hresult⟩ := hvalue.computed t ht htemp
    exact ⟨x, h.operations hx, hresult⟩

end Later

/-- What an operation may do behind others: it reads values that are ready there, and it writes known
variables. -/
structure Operation.Fits (known : Value → Prop) (front : List Operation) (x : Operation) : Prop where
  reads : ∀ v ∈ x.reads, v.Ready known front
  writes : ∀ v ∈ x.writes, known v ∧ ∃ w, v = .var w

namespace Operation.Fits

variable {known known' : Value → Prop} {front : List Operation}

theorem mono {x : Operation} (h : x.Fits known front) (hknown : ∀ v, known v → known' v) :
    x.Fits known' front where
  reads v hv := Later.ready ⟨hknown, List.Subset.refl _⟩ (h.reads v hv)
  writes v hv := ⟨hknown v (h.writes v hv).1, (h.writes v hv).2⟩

/-- An operation that writes nothing. -/
theorem reading {x : Operation} (hwrites : x.writes = [])
    (hreads : ∀ v ∈ x.reads, v.Ready known front) : x.Fits known front where
  reads := hreads
  writes v hv := by
    rw [hwrites] at hv
    cases hv

/-- An operation that neither reads nor writes. -/
theorem idle {x : Operation} (hreads : x.reads = []) (hwrites : x.writes = []) :
    x.Fits known front := by
  refine reading hwrites fun v hv => ?_
  rw [hreads] at hv
  cases hv

theorem assign {target : Variable} {value : Value} (ht : known (.var target))
    (hv : value.Ready known front) : (Operation.assign (.var target) value).Fits known front where
  reads := List.forall_mem_singleton.mpr hv
  writes := List.forall_mem_singleton.mpr ⟨ht, target, rfl⟩

theorem binary (opcode : Opcode) {left right : Value} {result : Variable}
    (hl : left.Ready known front) (hr : right.Ready known front) (hresult : known (.var result)) :
    (Operation.binary opcode left right result).Fits known front where
  reads := List.forall_mem_cons.mpr ⟨hl, List.forall_mem_singleton.mpr hr⟩
  writes := List.forall_mem_singleton.mpr ⟨hresult, result, rfl⟩

theorem call (callee : String) {args : List Value} {result : Variable}
    (hargs : ∀ v ∈ args, v.Ready known front) (hresult : known (.var result)) :
    (Operation.call callee args result).Fits known front where
  reads := hargs
  writes := List.forall_mem_singleton.mpr ⟨hresult, result, rfl⟩

end Operation.Fits

/-- Operations that run one after the other, each of which fits behind those before it. -/
def Block (known : Value → Prop) (operations : List Operation) : Prop :=
  ∀ front x back, operations = front ++ x :: back → x.Fits known front

namespace Block

variable {known known' : Value → Prop} {xs : List Operation}

theorem nil (known : Value → Prop) : Block known [] := by
  intro front x back h
  simp at h

theorem concat (h : Block known xs) {x : Operation} (hx : x.Fits known xs) :
    Block known (xs ++ [x]) := by
  intro front y back heq
  rcases List.eq_nil_or_concat back with rfl | ⟨rest, z, rfl⟩
  · obtain ⟨rfl, hxy⟩ := List.append_inj' heq rfl
    obtain rfl : x = y := List.singleton_inj.mp hxy
    exact hx
  · rw [List.concat_eq_append, ← List.cons_append, ← List.append_assoc] at heq
    exact h front y rest (List.append_inj' heq rfl).1

theorem mono (h : Block known xs) (hknown : ∀ v, known v → known' v) : Block known' xs := by
  intro front x back heq
  exact (h front x back heq).mono hknown

end Block

namespace Draft

def Knows (ctx : Context) (d : Draft) (value : Value) : Prop :=
  value ∈ d.board.values ∨ ∃ g ∈ ctx.globals, value = .var g

theorem Grows.knows {ctx : Context} {d e : Draft} (h : d.Grows e) {value : Value}
    (hvalue : d.Knows ctx value) : e.Knows ctx value :=
  hvalue.imp_left fun hmem => h.values.subset hmem

/-- The code from one draft to a later one is a block in straight line. -/
structure Straight (ctx : Context) (d₀ d : Draft) (operations : List Operation) : Prop where
  slots : d.board.slots = d₀.board.slots ++
    place d₀.board.slots.length (d₀.board.slots.length + operations.length) operations
  block : Block (d.Knows ctx) operations

namespace Straight

variable {ctx : Context} {d₀ d e : Draft} {xs : List Operation}

theorem start (ctx : Context) (d : Draft) : d.Straight ctx d [] :=
  ⟨(List.append_nil _).symm, .nil _⟩

/-- New values do not touch the code. -/
theorem keep (h : Straight ctx d₀ d xs) (hslots : e.board.slots = d.board.slots)
    (hknows : ∀ v, d.Knows ctx v → e.Knows ctx v) : Straight ctx d₀ e xs :=
  ⟨hslots.trans h.slots, h.block.mono hknows⟩

theorem emit (h : Straight ctx d₀ d xs) {x : Operation} (hx : x.computes = true)
    (hfits : x.Fits (d.Knows ctx) xs) : Straight ctx d₀ (d.after (emit ⟨x, []⟩)) (xs ++ [x]) where
  slots := by
    have hlength : d.board.slots.length = d₀.board.slots.length + xs.length := by
      rw [h.slots, List.length_append, length_place]
    rw [after_emit, slots_withSlots, Slot.push_straight _ _ (Operation.branches_of_computes hx),
      place_append, ← List.append_assoc, ← h.slots, hlength]
    rfl
  block := h.block.concat hfits

end Straight

/-- A step goes on with straight-line code, and its answer satisfies a condition on what is known and
on the operations so far. -/
def Computes (ctx : Context) (d₀ d : Draft) (xs : List Operation) (step : Emit α)
    (Q : (Value → Prop) → List Operation → α → Prop) : Prop :=
  ∃ ys, Straight ctx d₀ (d.after step) ys ∧
    Later (d.Knows ctx) xs ((d.after step).Knows ctx) ys ∧
    Q ((d.after step).Knows ctx) ys (d.answer step)

end Draft

def Returns (Q : (Value → Prop) → List Operation → α → Prop) (known : Value → Prop)
    (operations : List Operation) (answer : Except Diagnostic α) : Prop :=
  ∀ a, answer = .ok a → Q known operations a

namespace Draft.Computes

variable {ctx : Context} {d₀ d : Draft} {xs : List Operation}
  {P : (Value → Prop) → List Operation → α → Prop} {Q : (Value → Prop) → List Operation → β → Prop}

theorem bind {x : Emit α} {f : α → Emit β} (hx : Computes ctx d₀ d xs x P)
    (hf : ∀ e ys a, Straight ctx d₀ e ys → Later (d.Knows ctx) xs (e.Knows ctx) ys →
      P (e.Knows ctx) ys a → Computes ctx d₀ e ys (f a) Q) :
    Computes ctx d₀ d xs (x >>= f) Q := by
  obtain ⟨ys, hys, hlater, hanswer⟩ := hx
  obtain ⟨zs, hzs, hlater', hanswer'⟩ := hf _ _ _ hys hlater hanswer
  exact ⟨zs, hzs, hlater.trans hlater', hanswer'⟩

theorem attempt {x : Attempt α} {f : α → Attempt β} (hx : Computes ctx d₀ d xs x.run (Returns P))
    (hf : ∀ e ys a, Straight ctx d₀ e ys → Later (d.Knows ctx) xs (e.Knows ctx) ys →
      P (e.Knows ctx) ys a → Computes ctx d₀ e ys (f a).run (Returns Q)) :
    Computes ctx d₀ d xs (x >>= f).run (Returns Q) := by
  rw [ExceptT.run_bind]
  refine hx.bind fun e ys answer hys hlater hanswer => ?_
  cases answer with
  | ok a => exact hf e ys a hys hlater (hanswer a rfl)
  | error fault => exact ⟨ys, hys, .refl _ _, nofun⟩

theorem pure (h : Straight ctx d₀ d xs) {a : α} (ha : P (d.Knows ctx) xs a) :
    Computes ctx d₀ d xs (Pure.pure a) P :=
  ⟨xs, h, .refl _ _, ha⟩

theorem ok (h : Straight ctx d₀ d xs) {a : α} (ha : P (d.Knows ctx) xs a) :
    Computes ctx d₀ d xs (Pure.pure a : Attempt α).run (Returns P) := by
  refine ⟨xs, h, .refl _ _, fun b hb => ?_⟩
  obtain rfl := Except.ok.inj hb
  exact ha

theorem lift {x : Emit α} (hx : Computes ctx d₀ d xs x P) :
    Computes ctx d₀ d xs (liftM x : Attempt α).run (Returns P) := by
  obtain ⟨ys, hys, hlater, hanswer⟩ := hx
  refine ⟨ys, hys, hlater, fun a ha => ?_⟩
  obtain rfl := Except.ok.inj ha
  exact hanswer

theorem report (h : Straight ctx d₀ d xs) (kind : DiagnosticKind) (pos : Position)
    (message : String) : Computes ctx d₀ d xs (report kind pos message) fun _ _ _ => True :=
  ⟨xs, h.keep rfl fun _ hv => hv, ⟨fun _ hv => hv, List.Subset.refl _⟩, trivial⟩

theorem abandon (h : Straight ctx d₀ d xs) (kind : DiagnosticKind) (pos : Position)
    (message : String) :
    Computes ctx d₀ d xs (abandon kind pos message : Attempt α).run (Returns P) :=
  (report h kind pos message).lift.attempt fun _ ys _ hys _ _ => ⟨ys, hys, .refl _ _, nofun⟩

theorem introduce (h : Straight ctx d₀ d xs) (make : String → Nat → α) (toValue : α → Value) :
    Computes ctx d₀ d xs (introduce make toValue) fun known _ a => known (toValue a) := by
  have hknows : ∀ v, d.Knows ctx v → (d.after (Draft.introduce make toValue)).Knows ctx v :=
    fun v hv => (Grows.introduce make toValue d).knows hv
  refine ⟨xs, h.keep rfl hknows, ⟨hknows, List.Subset.refl _⟩, ?_⟩
  exact Or.inl (List.mem_append_right _ List.mem_cons_self)

theorem emit (h : Straight ctx d₀ d xs) {x : Operation} (hx : x.computes = true)
    (hfits : x.Fits (d.Knows ctx) xs) :
    Computes ctx d₀ d xs (emit ⟨x, []⟩) fun _ operations _ => x ∈ operations :=
  ⟨xs ++ [x], h.emit hx hfits, ⟨fun _ hv => hv, List.subset_append_left _ _⟩,
    List.mem_append_right _ List.mem_cons_self⟩

/-- What was ready before a step is ready after it. -/
theorem still {x : Emit α} {value : Value} (hx : Computes ctx d₀ d xs x P)
    (hvalue : value.Ready (d.Knows ctx) xs) :
    Computes ctx d₀ d xs x fun known operations _ => value.Ready known operations := by
  obtain ⟨ys, hys, hlater, -⟩ := hx
  exact ⟨ys, hys, hlater, hlater.ready hvalue⟩

end Draft.Computes

section Expressions

open Draft

variable {ctx : Context} {d₀ d : Draft} {xs : List Operation}

/-- A temporary is ready behind the operation that computes it. -/
theorem Value.Ready.of_result {known : Value → Prop} {operations : List Operation} {t : Variable}
    {x : Operation} (hknown : known (.var t)) (hx : x ∈ operations) (hresult : x.result? = some t) :
    (Value.var t).Ready known operations where
  known := hknown
  computed u hu _ := by
    obtain rfl := Value.var.inj hu
    exact ⟨x, hx, hresult⟩

theorem Value.Ready.const {known : Value → Prop} {c : Constant} (hknown : known (.const c))
    (operations : List Operation) : (Value.const c).Ready known operations :=
  ⟨hknown, nofun⟩

theorem emitBinary_computes (h : Straight ctx d₀ d xs) (pos : Position) (operator : String)
    {left right : Value} (hl : left.Ready (d.Knows ctx) xs) (hr : right.Ready (d.Knows ctx) xs) :
    Computes ctx d₀ d xs (emitBinary ctx pos operator left right) fun known operations v =>
      (Value.var v).Ready known operations := by
  refine (Computes.introduce h _ .var).bind fun e ys result hys hlater hresult => ?_
  have hlast : ∀ e' zs, Straight ctx d₀ e' zs → Later (e.Knows ctx) ys (e'.Knows ctx) zs →
      Computes ctx d₀ e' zs (do
        Draft.emit ⟨.binary (.ofOperator operator (.shared left.kind right.kind)) left right result, []⟩
        return result) fun known operations v => (Value.var v).Ready known operations := by
    intro e' zs hzs hlater'
    have hknown := hlater'.known _ hresult
    have hall := hlater.trans hlater'
    refine (Computes.emit hzs rfl (.binary _ (hall.ready hl) (hall.ready hr) hknown)).bind
      fun e'' ws _ hws hlater'' hmem => ?_
    exact .pure hws (.of_result (hlater''.known _ hknown) hmem rfl)
  dsimp only
  split
  · exact (Computes.report hys _ _ _).bind fun e' zs _ hzs hlater' _ => hlast e' zs hzs hlater'
  · exact hlast e ys hys (.refl _ _)

theorem emitStep_computes (h : Straight ctx d₀ d xs) (operator : String) {target : Variable}
    (ht : (Value.var target).Ready (d.Knows ctx) xs) :
    Computes ctx d₀ d xs (emitStep operator target) fun known operations _ =>
      (Value.var target).Ready known operations := by
  refine (Computes.introduce h _ .const).bind fun e ys one hys hlater hone => ?_
  have htarget := hlater.ready ht
  exact (Computes.emit hys rfl (.binary _ htarget (.const hone _) htarget.known)).still htarget

theorem emitAssign_computes (h : Straight ctx d₀ d xs) (pos : Position) (operator : String)
    {target : Variable} {value : Value} (ht : (Value.var target).Ready (d.Knows ctx) xs)
    (hv : value.Ready (d.Knows ctx) xs) :
    Computes ctx d₀ d xs (emitAssign ctx pos operator target value) fun known operations _ =>
      (Value.var target).Ready known operations := by
  unfold emitAssign
  split
  · exact (Computes.emit h rfl (.assign ht.known hv)).still ht
  · refine (emitBinary_computes h pos _ ht hv).bind fun e ys sum hys hlater hsum => ?_
    have htarget := hlater.ready ht
    exact (Computes.emit hys rfl (.assign htarget.known hsum)).still htarget

theorem emitCall_computes (h : Straight ctx d₀ d xs) (callee : String) {args : List Value}
    (hargs : ∀ v ∈ args, v.Ready (d.Knows ctx) xs) :
    Computes ctx d₀ d xs (emitCall ctx callee args) fun known operations v =>
      (Value.var v).Ready known operations := by
  refine (Computes.introduce h _ .var).bind fun e ys result hys hlater hresult => ?_
  have hready : ∀ v ∈ args, v.Ready (e.Knows ctx) ys := fun v hv => hlater.ready (hargs v hv)
  refine (Computes.emit hys rfl (.call callee hready hresult)).bind fun e' zs _ hzs hlater' hmem => ?_
  exact .pure hzs (.of_result (hlater'.known _ hresult) hmem rfl)

/-- A name refers to a variable that is known and no temporary. -/
theorem resolve?_computes (hctx : ctx.Plain) (h : Straight ctx d₀ d xs) (name : String) :
    Computes ctx d₀ d xs (resolve? ctx name) fun known operations found =>
      ∀ v, found = some v → (Value.var v).Ready known operations := by
  refine ⟨xs, h, .refl _ _, fun v hv => ?_⟩
  obtain ⟨hmem, hplain⟩ := hctx.resolved hv
  refine ⟨hmem.imp_right fun hglobal => ⟨v, hglobal, rfl⟩, fun t ht htemp => ?_⟩
  obtain rfl := Value.var.inj ht
  rw [hplain] at htemp
  cases htemp

def Expr.Computes (ctx : Context) (e : Expr) : Prop :=
  ∀ d₀ d xs, Straight ctx d₀ d xs → Draft.Computes ctx d₀ d xs (e.lower ctx).run (Returns Value.Ready)

namespace Expr.Computes

theorem unary {operand : Expr} (ih : operand.Computes ctx) (pos : Position) (operator : String) :
    (Expr.unary pos operator operand).Computes ctx := by
  intro d₀ d xs h
  rw [Expr.lower]
  split
  · exact .abandon h _ _ _
  · refine (ih d₀ d xs h).attempt fun e ys v hys _ hv => ?_
    cases v with
    | var target =>
      exact (emitStep_computes hys _ hv).lift.attempt fun _ _ _ hzs _ ht => .ok hzs ht
    | const c => exact .abandon hys _ _ _
    | unset => exact .abandon hys _ _ _

theorem ident (hctx : ctx.Plain) (pos : Position) (name : String) :
    (Expr.ident pos name).Computes ctx := by
  intro d₀ d xs h
  rw [Expr.lower]
  refine (resolve?_computes hctx h name).lift.attempt fun e ys found hys _ hfound => ?_
  cases found with
  | none => exact .abandon hys _ _ _
  | some v => exact .ok hys (hfound v rfl)

theorem assign {target value : Expr} (iht : target.Computes ctx) (ihv : value.Computes ctx)
    (pos : Position) (operator : String) : (Expr.assign pos operator target value).Computes ctx := by
  intro d₀ d xs h
  rw [Expr.lower]
  refine (ihv d₀ d xs h).attempt fun e ys r hys _ hr => ?_
  refine (iht d₀ e ys hys).attempt fun e' zs v hzs hlater hv => ?_
  cases v with
  | var v =>
    dsimp only
    split
    · exact .abandon hzs _ _ _
    · exact (emitAssign_computes hzs pos operator hv (hlater.ready hr)).lift.attempt
        fun _ _ _ hws _ ht => .ok hws ht
  | const c => exact .abandon hzs _ _ _
  | unset => exact .abandon hzs _ _ _

end Expr.Computes

mutual

/-- The lowering of an expression writes a block in straight line, whether or not it is given up. -/
theorem Expr.computes (hctx : ctx.Plain) : ∀ e : Expr, e.Computes ctx
  | .binary pos operator left right => by
    intro d₀ d xs h
    rw [Expr.lower]
    refine (right.computes hctx d₀ d xs h).attempt fun e ys r hys _ hr => ?_
    refine (left.computes hctx d₀ e ys hys).attempt fun e' zs l hzs hlater hl => ?_
    exact (emitBinary_computes hzs pos operator hl (hlater.ready hr)).lift.attempt
      fun _ _ _ hws _ hv => .ok hws hv
  | .unary pos operator operand => (operand.computes hctx).unary pos operator
  | .ident pos name => .ident hctx pos name
  | .literal _ type value => by
    intro d₀ d xs h
    rw [Expr.lower]
    exact (Draft.Computes.introduce h _ .const).lift.attempt
      fun _ ys _ hys _ hc => .ok hys (.const hc ys)
  | .assign pos operator target value =>
    (target.computes hctx).assign (value.computes hctx) pos operator
  | .call _ callee args => by
    intro d₀ d xs h
    rw [Expr.lower]
    refine (Expr.computesAll hctx args h).attempt fun e ys values hys _ hvalues => ?_
    exact (emitCall_computes hys callee hvalues).lift.attempt fun _ _ _ hzs _ hv => .ok hzs hv
  | .unknown pos kind => by
    intro d₀ d xs h
    rw [Expr.lower]
    exact .abandon h _ _ _
termination_by structural e => e

theorem Expr.computesAll (hctx : ctx.Plain) : ∀ (es : List Expr) {d₀ d : Draft}
    {xs : List Operation}, Straight ctx d₀ d xs →
      Draft.Computes ctx d₀ d xs (Expr.lowerAll ctx es).run
        (Returns fun known operations vs => ∀ v ∈ vs, v.Ready known operations)
  | [], d₀, d, xs, h => by
    rw [Expr.lowerAll]
    exact .ok h nofun
  | e :: es, d₀, d, xs, h => by
    rw [Expr.lowerAll]
    refine (e.computes hctx d₀ d xs h).attempt fun e' ys v hys _ hv => ?_
    refine (Expr.computesAll hctx es hys).attempt fun e'' zs vs hzs hlater hvs => ?_
    exact .ok hzs (List.forall_mem_cons.mpr ⟨hlater.ready hv, hvs⟩)
termination_by structural es => es

end

end Expressions

end SlotBoard
