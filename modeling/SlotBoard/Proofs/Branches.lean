import SlotBoard.Proofs.TwoPass

/-!
Whether the branches of an `if` are kept apart. A walk along successors that starts at the second
branch never meets the first one. A walk that starts at the first branch never meets the second,
provided that the first has a slot or the second has none: an `if` whose first branch is empty sends
both outcomes of its condition into the second.

The code of an `if` that stands anywhere in a body is still there on the finished board, its join
apart, which the statements around it may send elsewhere.
-/
namespace SlotBoard

def Slot.successors (slot : Slot) : List Int := slot.items.flatMap Item.next

theorem Slot.successors_single (i : Nat) (item : Item) : (single i item).successors = item.next :=
  List.flatMap_singleton ..

def Operation.isReturn : Operation → Bool
  | ret _ => true
  | _ => false

def Slot.returns (slot : Slot) : Bool := slot.items.any fun item => item.operation.isReturn

/-- The addresses on walks along successors that start at `a`. A walk ends when it first comes to
the join or to a slot that returns; that slot is the last one on it. -/
inductive Board.Walk (board : Board) (join a : Nat) : Nat → Prop
  | start : Walk board join a a
  | step {x y : Nat} {slot : Slot} (hx : Walk board join a x) (hjoin : x ≠ join)
      (hslot : board.slots[x]? = some slot) (hreturns : slot.returns = false)
      (hy : (y : Int) ∈ slot.successors) : Walk board join a y

/-- A walk that starts in a region stays in it until it comes to the exit. -/
theorem Board.Walk.stays {board : Board} {join s x a e : Nat} (hx : board.Walk join s x)
    (hregion : ∀ i, a ≤ i → i < e →
      ∃ item, board.slots[i]? = some (Slot.single i item) ∧ item.Flows a e join i)
    (hs : (a ≤ s ∧ s < e) ∨ s = join) : (a ≤ x ∧ x < e) ∨ x = join := by
  induction hx with
  | start => exact hs
  | @step x y slot hx hjoin hslot hreturns hy ih =>
    rcases ih with ⟨hlow, hhigh⟩ | hstop
    · obtain ⟨item, hitem, hflows⟩ := hregion x hlow hhigh
      obtain rfl : Slot.single x item = slot := Option.some.inj (hitem.symm.trans hslot)
      have hmem : (y : Int) ∈ item.next := by rwa [Slot.successors_single] at hy
      cases hflows with
      | ret value => cases hreturns
      | fork cond m n hm hn hi =>
        simp only [List.mem_cons, List.not_mem_nil, or_false] at hmem
        omega
      | inner operation h n hn hi =>
        simp only [List.mem_singleton] at hmem
        omega
      | last operation h hi =>
        simp only [List.mem_singleton] at hmem
        omega
    · exact absurd hstop hjoin

/-- Each slot of some code stands at its address and flows inside the code around it. -/
theorem Lies.getElem? {a e k i j : Nat} {slots : List Slot} (h : Lies a e k i slots)
    (hj : j < slots.length) :
    ∃ item, slots[j]? = some (Slot.single (i + j) item) ∧ item.Flows a e k (i + j) := by
  induction slots generalizing i j with
  | nil => simp at hj
  | cons slot slots ih =>
    obtain ⟨⟨item, rfl, hitem⟩, hslots⟩ := h
    cases j with
    | zero => exact ⟨item, rfl, hitem⟩
    | succ j =>
      have hindex : i + 1 + j = i + (j + 1) := by omega
      have hrest := ih hslots (Nat.lt_of_succ_lt_succ hj)
      rwa [hindex] at hrest

theorem closeLast_getElem? {k j : Nat} {slots : List Slot} (hj : j + 1 < slots.length) :
    (closeLast k slots)[j]? = slots[j]? := by
  have hne : slots.length - 1 ≠ j := by omega
  simp [closeLast, hne]

theorem loopBack_getElem? {condition a j : Nat} {slots : List Slot} (hj : j + 1 < slots.length) :
    (loopBack condition a slots)[j]? = slots[j]? := by
  cases slots with
  | nil => simp at hj
  | cons slot slots => exact closeLast_getElem? hj

theorem length_le_loopBack (condition a : Nat) (slots : List Slot) :
    slots.length ≤ (loopBack condition a slots).length := by
  cases slots with
  | nil => exact Nat.zero_le _
  | cons slot slots => exact Nat.le_of_eq (length_closeLast condition _).symm

/-- The lowering of a statement from a draft comes to lower `t` from the draft `e`. -/
inductive Stmt.Within (ctx : Context) (t : Stmt) (e : Draft) : Stmt → Draft → Prop
  | here : Within ctx t e t e
  | block {pos : Position} {front : List Stmt} {s : Stmt} {back : List Stmt} {d : Draft}
      (h : Within ctx t e s (d.after (Stmt.lowerAll ctx front))) :
      Within ctx t e (.block pos (front ++ s :: back)) d
  | thenBranch {pos : Position} {cond : Expr} {thenBranch : Stmt} {elseBranch : Option Stmt}
      {d d₁ d₂ : Draft} {operation : Operation} (hhead : Headed ctx d (some cond) d₁ d₂ operation)
      (h : Within ctx t e thenBranch d₂) :
      Within ctx t e (.ifThen pos cond thenBranch elseBranch) d
  | elseBranch {pos : Position} {cond : Expr} {thenBranch elseBranch : Stmt}
      {d d₁ d₂ : Draft} {operation : Operation} (hhead : Headed ctx d (some cond) d₁ d₂ operation)
      (h : Within ctx t e elseBranch (d₂.after (thenBranch.lower ctx))) :
      Within ctx t e (.ifThen pos cond thenBranch (some elseBranch)) d
  | init {pos : Position} {init : Stmt} {cond : Option Expr} {next : Option Stmt} {body : Stmt}
      {d : Draft} (h : Within ctx t e init d) :
      Within ctx t e (.forLoop pos (some init) cond next body) d
  | body {pos : Position} {init : Option Stmt} {cond : Option Expr} {next : Option Stmt}
      {body : Stmt} {d d₁ d₂ : Draft} {operation : Operation}
      (hhead : Headed ctx (d.after (Stmt.lowerOption ctx init)) cond d₁ d₂ operation)
      (h : Within ctx t e body d₂) : Within ctx t e (.forLoop pos init cond next body) d
  | next {pos : Position} {init : Option Stmt} {cond : Option Expr} {next body : Stmt}
      {d d₁ d₂ : Draft} {operation : Operation}
      (hhead : Headed ctx (d.after (Stmt.lowerOption ctx init)) cond d₁ d₂ operation)
      (h : Within ctx t e next (d₂.after (body.lower ctx))) :
      Within ctx t e (.forLoop pos init cond (some next) body) d
  | switch {pos : Position} {subject : Expr} {body : Stmt} {d : Draft} {v : Value}
      (hv : d.answer (subject.lower ctx).run = .ok v)
      (h : Within ctx t e body (d.after (subject.lower ctx).run)) :
      Within ctx t e (.switch pos subject body) d
  | caseOf {pos : Position} {label : Expr} {front : List Stmt} {s : Stmt} {back : List Stmt}
      {d : Draft} (h : Within ctx t e s
        ((d.after (label.lower ctx).run).after (Stmt.lowerAll ctx front))) :
      Within ctx t e (.caseOf pos label (front ++ s :: back)) d
  | otherwise {pos : Position} {front : List Stmt} {s : Stmt} {back : List Stmt} {d : Draft}
      (h : Within ctx t e s (d.after (Stmt.lowerAll ctx front))) :
      Within ctx t e (.otherwise pos (front ++ s :: back)) d

namespace Draft

/-- The slots that one draft has from an address on, its last one apart, are still those of a later
draft. -/
structure Retains (lo : Nat) (d e : Draft) : Prop where
  length_le : d.board.slots.length ≤ e.board.slots.length
  slots : ∀ i, lo ≤ i → i + 1 < d.board.slots.length → e.board.slots[i]? = d.board.slots[i]?

namespace Retains

theorem trans {lo : Nat} {a b c : Draft} (hab : Retains lo a b) (hbc : Retains lo b c) :
    Retains lo a c where
  length_le := Nat.le_trans hab.length_le hbc.length_le
  slots i hlo hi := by
    have hle := hab.length_le
    rw [hbc.slots i hlo (by omega), hab.slots i hlo hi]

theorem mono {lo hi : Nat} {d e : Draft} (h : Retains lo d e) (hle : lo ≤ hi) : Retains hi d e :=
  ⟨h.length_le, fun i hi' => h.slots i (Nat.le_trans hle hi')⟩

theorem of_append (lo : Nat) {d e : Draft} {code : List Slot}
    (h : e.board.slots = d.board.slots ++ code) : Retains lo d e where
  length_le := by
    rw [h, List.length_append]
    omega
  slots i _ hi := by rw [h, List.getElem?_append_left (by omega)]

theorem of_extends (lo : Nat) {d e : Draft} (h : d.Extends e) : Retains lo d e := by
  obtain ⟨code, hcode, -⟩ := h
  exact of_append lo hcode

/-- A later draft may have replaced what stands before the slots, and may have closed the last. -/
theorem of_tail {d e : Draft} {front front' xs ys : List Slot} {lo : Nat}
    (hd : d.board.slots = front ++ xs) (he : e.board.slots = front' ++ ys)
    (hlo : front.length = lo) (hfront : front'.length = lo) (hle : xs.length ≤ ys.length)
    (hys : ∀ j, j + 1 < xs.length → ys[j]? = xs[j]?) : Retains lo d e where
  length_le := by
    rw [hd, he, List.length_append, List.length_append]
    omega
  slots i hi hlt := by
    rw [hd, List.length_append] at hlt
    rw [hd, he, List.getElem?_append_right (by omega), List.getElem?_append_right (by omega), hlo,
      hfront]
    exact hys _ (by omega)

variable {ctx : Context} {d d₁ d₂ : Draft} {operation : Operation}

/-- An `if` keeps the code of its first branch. -/
theorem thenBranch (pos : Position) {cond : Expr} (thenBranch : Stmt) (elseBranch : Option Stmt)
    (h : Headed ctx d (some cond) d₁ d₂ operation) :
    Retains d₂.board.slots.length (d₂.after (thenBranch.lower ctx))
      (d.after ((Stmt.ifThen pos cond thenBranch elseBranch).lower ctx)) := by
  obtain ⟨ts, hts, -⟩ := thenBranch.lower_extends ctx d₂
  obtain ⟨es, hes, -⟩ := Stmt.lowerOption_extends ctx elseBranch (d₂.after (thenBranch.lower ctx))
  have hafter := congrArg (fun e : Draft => e.board.slots)
    (Stmt.after_ifThen pos h rfl rfl hts hes rfl rfl)
  rw [← List.singleton_append, ← List.append_assoc] at hafter
  refine of_tail hts hafter rfl ?_ ?_ fun j hj => ?_
  · rw [h.length_slots, List.length_append, List.length_singleton]
  · rw [List.length_append, length_closeLast]
    omega
  · rw [List.getElem?_append_left (by rw [length_closeLast]; omega), closeLast_getElem? hj]

/-- An `if` keeps the code of its second branch. -/
theorem elseBranch (pos : Position) {cond : Expr} (thenBranch : Stmt) (elseBranch : Option Stmt)
    (h : Headed ctx d (some cond) d₁ d₂ operation) :
    Retains (d₂.after (thenBranch.lower ctx)).board.slots.length
      ((d₂.after (thenBranch.lower ctx)).after (Stmt.lowerOption ctx elseBranch))
      (d.after ((Stmt.ifThen pos cond thenBranch elseBranch).lower ctx)) := by
  obtain ⟨ts, hts, -⟩ := thenBranch.lower_extends ctx d₂
  obtain ⟨es, hes, -⟩ := Stmt.lowerOption_extends ctx elseBranch (d₂.after (thenBranch.lower ctx))
  have hafter := congrArg (fun e : Draft => e.board.slots)
    (Stmt.after_ifThen pos h rfl rfl hts hes rfl rfl)
  rw [← List.cons_append, ← List.append_assoc] at hafter
  refine of_tail hes hafter rfl ?_ ?_ fun j hj => ?_
  · rw [hts, List.length_append, List.length_append, List.length_cons, length_closeLast,
      h.length_slots]
    omega
  · rw [List.length_append, length_closeLast]
    omega
  · rw [List.getElem?_append_left (by rw [length_closeLast]; omega), closeLast_getElem? hj]

/-- A loop keeps the code of its initialiser. -/
theorem init (lo : Nat) (pos : Position) (init : Option Stmt) (cond : Option Expr)
    (next : Option Stmt) (body : Stmt) : Retains lo (d.after (Stmt.lowerOption ctx init))
      (d.after ((Stmt.forLoop pos init cond next body).lower ctx)) := by
  rcases headed_or_error ctx (d.after (Stmt.lowerOption ctx init)) cond with
    ⟨d₁, d₂, operation, h⟩ | ⟨e, fault, rfl, hfault⟩
  · obtain ⟨cs, hcs, -⟩ := h.extends_condition
    obtain ⟨bs, hbs, -⟩ := body.lower_extends ctx d₂
    obtain ⟨ns, hns, -⟩ := Stmt.lowerOption_extends ctx next (d₂.after (body.lower ctx))
    have hafter := congrArg (fun e : Draft => e.board.slots)
      (Stmt.after_forLoop pos rfl h rfl rfl hbs hns rfl rfl)
    rw [hcs] at hafter
    exact of_append lo (hafter.trans (List.append_assoc ..))
  · rw [Stmt.after_forLoop_of_error rfl hfault]
    exact of_extends lo (e.lower_extends ctx _)

/-- A loop keeps the code of its body and its update. -/
theorem turn (pos : Position) {init : Option Stmt} {cond : Option Expr} (next : Option Stmt)
    (body : Stmt)
    (h : Headed ctx (d.after (Stmt.lowerOption ctx init)) cond d₁ d₂ operation) :
    Retains d₂.board.slots.length
      ((d₂.after (body.lower ctx)).after (Stmt.lowerOption ctx next))
      (d.after ((Stmt.forLoop pos init cond next body).lower ctx)) := by
  obtain ⟨bs, hbs, -⟩ := body.lower_extends ctx d₂
  obtain ⟨ns, hns, -⟩ := Stmt.lowerOption_extends ctx next (d₂.after (body.lower ctx))
  have hafter := congrArg (fun e : Draft => e.board.slots)
    (Stmt.after_forLoop pos rfl h rfl rfl hbs hns rfl rfl)
  have hturn := hns
  rw [hbs, List.append_assoc] at hturn
  rw [← List.singleton_append, ← List.append_assoc] at hafter
  have hle := length_le_loopBack (d.after (Stmt.lowerOption ctx init)).board.slots.length
    (d₁.board.slots.length + 1) (bs ++ ns)
  refine of_tail hturn hafter rfl ?_ ?_ fun j hj => ?_
  · rw [h.length_slots, List.length_append, List.length_singleton]
  · exact Nat.le_trans hle (by simp)
  · rw [List.getElem?_append_left (by omega), loopBack_getElem? hj]

end Retains
end Draft

theorem Stmt.after_lowerAll_append (ctx : Context) (xs ys : List Stmt) (d : Draft) :
    d.after (Stmt.lowerAll ctx (xs ++ ys)) =
      (d.after (Stmt.lowerAll ctx xs)).after (Stmt.lowerAll ctx ys) := by
  induction xs generalizing d with
  | nil => rfl
  | cons x xs ih =>
    rw [List.cons_append, Stmt.lowerAll, Stmt.lowerAll, Draft.after_bind, Draft.after_bind, ih]

theorem Draft.Extends.length_le {d e : Draft} (h : d.Extends e) :
    d.board.slots.length ≤ e.board.slots.length := by
  obtain ⟨code, hcode, -⟩ := h
  rw [hcode, List.length_append]
  omega

/-- In a list of statements, what one of them appends is kept, its last slot apart. -/
theorem Draft.Retains.inList (lo : Nat) (ctx : Context) (front : List Stmt) (s : Stmt)
    (back : List Stmt) (d : Draft) :
    Retains lo ((d.after (Stmt.lowerAll ctx front)).after (s.lower ctx))
      (d.after (Stmt.lowerAll ctx (front ++ s :: back))) := by
  rw [Stmt.after_lowerAll_append, Stmt.lowerAll, after_bind]
  exact of_extends lo (Stmt.lowerAll_extends ctx back _)

/-- The code of a statement that stands in another one is still there, its last slot apart, when the
other one is finished. -/
theorem Stmt.Within.retains {ctx : Context} {t s : Stmt} {e d : Draft} (h : Within ctx t e s d) :
    d.board.slots.length ≤ e.board.slots.length ∧
      Draft.Retains e.board.slots.length (e.after (t.lower ctx)) (d.after (s.lower ctx)) := by
  induction h with
  | here => exact ⟨Nat.le_refl _, Nat.le_refl _, fun _ _ _ => rfl⟩
  | @block pos front s back d h ih =>
    have hle := (Stmt.lowerAll_extends ctx front d).length_le
    rw [Stmt.lower]
    exact ⟨Nat.le_trans hle ih.1, ih.2.trans (.inList _ ctx front s back d)⟩
  | @thenBranch pos cond thenBranch elseBranch d d₁ d₂ operation hhead h ih =>
    have hle := hhead.extends_condition.length_le
    have hlength := hhead.length_slots
    exact ⟨by omega, ih.2.trans ((Draft.Retains.thenBranch pos _ elseBranch hhead).mono ih.1)⟩
  | @elseBranch pos cond thenBranch elseBranch d d₁ d₂ operation hhead h ih =>
    have hle := hhead.extends_condition.length_le
    have hlength := hhead.length_slots
    have hthen := (thenBranch.lower_extends ctx d₂).length_le
    have helse := (Draft.Retains.elseBranch pos thenBranch (some elseBranch) hhead).mono ih.1
    exact ⟨by omega, ih.2.trans helse⟩
  | @init pos init cond next body d h ih =>
    exact ⟨ih.1, ih.2.trans (.init _ pos (some init) cond next body)⟩
  | @body pos init cond next body d d₁ d₂ operation hhead h ih =>
    have hinit := (Stmt.lowerOption_extends ctx init d).length_le
    have hle := hhead.extends_condition.length_le
    have hlength := hhead.length_slots
    have hnext := Draft.Retains.of_extends d₂.board.slots.length
      (Stmt.lowerOption_extends ctx next (d₂.after (body.lower ctx)))
    exact ⟨by omega, ih.2.trans ((hnext.trans (.turn pos next body hhead)).mono ih.1)⟩
  | @next pos init cond next body d d₁ d₂ operation hhead h ih =>
    have hinit := (Stmt.lowerOption_extends ctx init d).length_le
    have hle := hhead.extends_condition.length_le
    have hlength := hhead.length_slots
    have hbody := (body.lower_extends ctx d₂).length_le
    have hturn := (Draft.Retains.turn pos (some next) body hhead).mono (Nat.le_trans hbody ih.1)
    exact ⟨by omega, ih.2.trans hturn⟩
  | @switch pos subject body d v hv h ih =>
    have hle := Draft.Extends.length_le (subject.lower_extends ctx d)
    rw [Stmt.lower, withValue, Draft.after_bind, hv]
    exact ⟨Nat.le_trans hle ih.1, ih.2⟩
  | @caseOf pos label front s back d h ih =>
    have hlabel : d.after (withValue ctx label fun _ => return) = d.after (label.lower ctx).run := by
      rw [withValue, Draft.after_bind]
      cases d.answer (label.lower ctx).run <;> rfl
    have hle := Draft.Extends.length_le (label.lower_extends ctx d)
    have hfront := (Stmt.lowerAll_extends ctx front (d.after (label.lower ctx).run)).length_le
    rw [Stmt.lower, Draft.after_bind, hlabel]
    exact ⟨by omega, ih.2.trans (.inList _ ctx front s back _)⟩
  | @otherwise pos front s back d h ih =>
    have hle := (Stmt.lowerAll_extends ctx front d).length_le
    rw [Stmt.lower]
    exact ⟨Nat.le_trans hle ih.1, ih.2.trans (.inList _ ctx front s back d)⟩

namespace Draft

/-- The draft in which the lowering of an `if` comes to its first branch. -/
def atThen (ctx : Context) (cond : Expr) (d : Draft) : Draft :=
  match d.answer (cond.lower ctx).run with
  | .ok v => (d.after (cond.lower ctx).run).after (emit (.jumpIfTrue v))
  | .error _ => d.after (cond.lower ctx).run

def atElse (ctx : Context) (cond : Expr) (thenBranch : Stmt) (d : Draft) : Draft :=
  (d.atThen ctx cond).after (thenBranch.lower ctx)

def atJoin (ctx : Context) (cond : Expr) (thenBranch : Stmt) (elseBranch : Option Stmt)
    (d : Draft) : Draft :=
  (d.atElse ctx cond thenBranch).after (Stmt.lowerOption ctx elseBranch)

end Draft

theorem Headed.atThen_eq {ctx : Context} {cond : Expr} {d d₁ d₂ : Draft} {operation : Operation}
    (h : Headed ctx d (some cond) d₁ d₂ operation) : d.atThen ctx cond = d₂ := by
  cases h with
  | cond hv h₁ =>
    rw [Draft.atThen, hv, ← h₁]

/-- What stands on a board where an `if` was lowered: its conditional jump, the region of each branch
and the two addresses that the jump leads to. -/
structure Board.HasIf (board : Board) (thenStart elseStart join : Nat) : Prop where
  jump : ∃ v, board.slots[thenStart - 1]? =
    some (Slot.single (thenStart - 1) ⟨.jumpIfTrue v, [(thenStart : Int), (elseStart : Int)]⟩)
  thenRegion : ∀ i, thenStart ≤ i → i < elseStart →
    ∃ item, board.slots[i]? = some (Slot.single i item) ∧ item.Flows thenStart elseStart join i
  elseRegion : ∀ i, elseStart ≤ i → i < join →
    ∃ item, board.slots[i]? = some (Slot.single i item) ∧ item.Flows elseStart join join i
  then_le : thenStart ≤ elseStart
  else_le : elseStart ≤ join

namespace Board.HasIf

variable {board : Board} {thenStart elseStart join : Nat}

theorem second_avoids_first (h : board.HasIf thenStart elseStart join) {x : Nat}
    (hx : board.Walk join elseStart x) : ¬ (thenStart ≤ x ∧ x < elseStart) := by
  have hle := h.else_le
  have hstays := hx.stays h.elseRegion (by omega)
  omega

theorem first_avoids_second_iff (h : board.HasIf thenStart elseStart join) :
    (∀ x, board.Walk join thenStart x → ¬ (elseStart ≤ x ∧ x < join)) ↔
      thenStart < elseStart ∨ elseStart = join := by
  have hthen := h.then_le
  have helse := h.else_le
  constructor
  · intro havoids
    have hstart := havoids thenStart .start
    omega
  · intro hapart x hx
    rcases hapart with hlt | heq
    · have hstays := hx.stays h.thenRegion (Or.inl ⟨Nat.le_refl _, hlt⟩)
      omega
    · omega

end Board.HasIf

/-- Slots of a region that stand on a board behind some others. -/
theorem Region.on_board {a k : Nat} {region : List Slot} (h : Region a k region) (board : Board)
    (front back : List Slot) (ha : front.length = a)
    (hslots : ∀ i, a ≤ i → i < a + region.length →
      board.slots[i]? = (front ++ (region ++ back))[i]?) :
    ∀ i, a ≤ i → i < a + region.length →
      ∃ item, board.slots[i]? = some (Slot.single i item) ∧
        item.Flows a (a + region.length) k i := by
  intro i hlow hhigh
  obtain ⟨item, hitem, hflows⟩ := Lies.getElem? (j := i - a) h (by omega)
  have hindex : a + (i - a) = i := by omega
  rw [hindex] at hitem hflows
  refine ⟨item, ?_, hflows⟩
  rw [hslots i hlow hhigh, List.getElem?_append_right (by omega), ha,
    List.getElem?_append_left (by omega), hitem]

/-- An `if` whose code is retained stands on the later draft's board. -/
theorem Headed.hasIf {ctx : Context} {cond : Expr} {d d₁ d₂ final : Draft} {operation : Operation}
    (h : Headed ctx d (some cond) d₁ d₂ operation) (pos : Position) (thenBranch : Stmt)
    (elseBranch : Option Stmt)
    (hfinal : Draft.Retains d.board.slots.length
      (d.after ((Stmt.ifThen pos cond thenBranch elseBranch).lower ctx)) final) :
    final.board.HasIf d₂.board.slots.length
      (d₂.after (thenBranch.lower ctx)).board.slots.length
      ((d₂.after (thenBranch.lower ctx)).after
        (Stmt.lowerOption ctx elseBranch)).board.slots.length := by
  obtain ⟨ts, hts, ht⟩ := thenBranch.lower_extends ctx d₂
  obtain ⟨es, hes, he⟩ := Stmt.lowerOption_extends ctx elseBranch (d₂.after (thenBranch.lower ctx))
  obtain ⟨v, rfl⟩ : ∃ v, operation = .jumpIfTrue v := by
    cases h with
    | cond hv h₁ => exact ⟨_, rfl⟩
  obtain ⟨head, hhead⟩ : ∃ head, head = d₁.board.slots.length := ⟨_, rfl⟩
  obtain ⟨join, hjoin⟩ : ∃ join, join = head + 1 + ts.length + es.length := ⟨_, rfl⟩
  have hcond := h.extends_condition.length_le
  have hthenStart : d₂.board.slots.length = head + 1 := by rw [h.length_slots, hhead]
  have helseStart : (d₂.after (thenBranch.lower ctx)).board.slots.length =
      head + 1 + ts.length := by rw [hts, List.length_append, hthenStart]
  have hend : ((d₂.after (thenBranch.lower ctx)).after
      (Stmt.lowerOption ctx elseBranch)).board.slots.length = join := by
    rw [hes, List.length_append, helseStart, hjoin]
  rw [helseStart] at he
  rw [hthenStart] at ht
  rw [hthenStart, helseStart, hend]
  -- the slots from the condition up to the join, as the `if` left them
  have hslots : ∀ i, head ≤ i → i < join → final.board.slots[i]? =
      (d₁.board.slots ++ headSlot (.jumpIfTrue v) head (head + 1 + ts.length) ::
        (closeLast join ts ++ (closeLast join es ++
          [Slot.single join (.jump ((join + 1 : Nat) : Int))])))[i]? := by
    intro i hlow hhigh
    have hafter := hfinal.slots i (by omega)
    rw [Stmt.after_ifThen pos h rfl rfl hts hes hhead hjoin, Draft.slots_withSlots] at hafter
    refine hafter ?_
    simp only [List.length_append, List.length_cons, length_closeLast, List.length_nil]
    omega
  have hthen := (ht.closeLast join).on_board final.board
    (d₁.board.slots ++ [headSlot (.jumpIfTrue v) head (head + 1 + ts.length)])
    (closeLast join es ++ [Slot.single join (.jump ((join + 1 : Nat) : Int))])
    (by simp [hhead]) fun i hlow hhigh => by
      rw [length_closeLast] at hhigh
      rw [hslots i (by omega) (by omega)]
      simp
  have helse := (he.closeLast join).on_board final.board
    (d₁.board.slots ++ headSlot (.jumpIfTrue v) head (head + 1 + ts.length) :: closeLast join ts)
    [Slot.single join (.jump ((join + 1 : Nat) : Int))]
    (by simp [hhead, length_closeLast]; omega) fun i hlow hhigh => by
      rw [length_closeLast] at hhigh
      rw [hslots i (by omega) (by omega)]
      simp
  rw [length_closeLast] at hthen helse
  rw [← hjoin] at helse
  refine ⟨⟨v, ?_⟩, hthen, helse, by omega, by omega⟩
  rw [Nat.add_sub_cancel, hslots head (Nat.le_refl _) (by omega), hhead,
    List.getElem?_append_right (Nat.le_refl _), Nat.sub_self]
  rfl

/-- The board of a function keeps what the lowering of its body ends with. -/
theorem Lowering.finished_retains (l : Lowering) (f : FuncDef) (lo : Nat) :
    Draft.Retains lo ((f.opened (l.context f) l.module.name (l.blank f)).after
      ((Stmt.block f.bodyPos f.body).lower (l.context f))) (l.finished f) := by
  rw [Lowering.finished, FuncDef.after_lower, Stmt.lower]
  exact .of_append lo (congrArg (fun d : Draft => d.board.slots) (Draft.after_emit _ _))

/-- Take any `if` in the body of a function that is lowered without a report. On the board of the
function its conditional jump leads to the slots of the two branches. A walk from the second branch
never meets a slot of the first one before it comes to the join or returns. A walk from the first
branch never meets a slot of the second one exactly if the first has a slot or the second has none. -/
theorem if_branches_apart_iff (l : Lowering) (f : FuncDef) (hnew : l.module.board? f.name = none)
    (pos : Position) (cond : Expr) (thenBranch : Stmt) (elseBranch : Option Stmt) (d : Draft)
    (hwithin : Stmt.Within (l.context f) (.ifThen pos cond thenBranch elseBranch) d
      (.block f.bodyPos f.body) (f.opened (l.context f) l.module.name (l.blank f)))
    (hquiet : d.Quiet ((Stmt.ifThen pos cond thenBranch elseBranch).lower (l.context f))) :
    let thenStart := (d.atThen (l.context f) cond).board.slots.length
    let elseStart := (d.atElse (l.context f) cond thenBranch).board.slots.length
    let join := (d.atJoin (l.context f) cond thenBranch elseBranch).board.slots.length
    ∃ board : Board, (l.function f).module.boards = l.module.boards ++ [board] ∧
      (∃ v, board.slots[thenStart - 1]? = some (Slot.single (thenStart - 1)
        ⟨.jumpIfTrue v, [(thenStart : Int), (elseStart : Int)]⟩)) ∧
      (∀ x, board.Walk join elseStart x → ¬ (thenStart ≤ x ∧ x < elseStart)) ∧
      ((∀ x, board.Walk join thenStart x → ¬ (elseStart ≤ x ∧ x < join)) ↔
        thenStart < elseStart ∨ elseStart = join) := by
  intro thenStart elseStart join
  obtain ⟨d₁, d₂, operation, hhead, -⟩ := Stmt.ifThen_quiet hquiet
  have hretains := hwithin.retains.2.trans (l.finished_retains f _)
  have hif := hhead.hasIf pos thenBranch elseBranch hretains
  rw [← hhead.atThen_eq] at hif
  refine ⟨(l.finished f).board, ?_, hif.jump, fun x => hif.second_avoids_first,
    hif.first_avoids_second_iff⟩
  rw [l.function_of_new f hnew]

def sampleTurn : Draft :=
  let l := Lowering.start "m" []
  let ctx := l.context sampleFunction
  ((sampleFunction.opened ctx "m" (l.blank sampleFunction)).after
    (Stmt.lowerAll ctx (sampleFunction.body.take 1))).atThen ctx
      (.binary {} "<" (.ident {} "s") (.ident {} "n"))

theorem sampleFunction_branches_apart :
    let l := Lowering.start "m" []
    let ctx := l.context sampleFunction
    let cond := Expr.binary {} "==" (.ident {} "s") (.ident {} "n")
    let thenBranch := Stmt.ret {} (some (.ident {} "s"))
    let elseBranch := some (Stmt.expr {}
      (.assign {} "+=" (.ident {} "s") (.call {} "f" [.ident {} "n"])))
    let thenStart := (sampleTurn.atThen ctx cond).board.slots.length
    let elseStart := (sampleTurn.atElse ctx cond thenBranch).board.slots.length
    let join := (sampleTurn.atJoin ctx cond thenBranch elseBranch).board.slots.length
    Stmt.Within ctx (.ifThen {} cond thenBranch elseBranch) sampleTurn
      (.block sampleFunction.bodyPos sampleFunction.body)
      (sampleFunction.opened ctx "m" (l.blank sampleFunction)) ∧
    sampleTurn.Quiet ((Stmt.ifThen {} cond thenBranch elseBranch).lower ctx) ∧
    ∃ board : Board, (l.function sampleFunction).module.boards = [board] ∧
      (∃ v, board.slots[thenStart - 1]? = some (Slot.single (thenStart - 1)
        ⟨.jumpIfTrue v, [(thenStart : Int), (elseStart : Int)]⟩)) ∧
      (∀ x, board.Walk join elseStart x → ¬ (thenStart ≤ x ∧ x < elseStart)) ∧
      ((∀ x, board.Walk join thenStart x → ¬ (elseStart ≤ x ∧ x < join)) ↔
        thenStart < elseStart ∨ elseStart = join) := by
  intro l ctx cond thenBranch elseBranch thenStart elseStart join
  have hhead : Headed ctx ((sampleFunction.opened ctx "m" (l.blank sampleFunction)).after
      (Stmt.lowerAll ctx (sampleFunction.body.take 1)))
      (some (.binary {} "<" (.ident {} "s") (.ident {} "n"))) _ sampleTurn _ :=
    .cond rfl rfl
  have hwithin : Stmt.Within ctx (.ifThen {} cond thenBranch elseBranch) sampleTurn
      (.block sampleFunction.bodyPos sampleFunction.body)
      (sampleFunction.opened ctx "m" (l.blank sampleFunction)) :=
    @Stmt.Within.block ctx _ _ _ (sampleFunction.body.take 1) _ (sampleFunction.body.drop 2) _
      (.body hhead .here)
  have hquiet : sampleTurn.Quiet ((Stmt.ifThen {} cond thenBranch elseBranch).lower ctx) := by
    decide +kernel
  exact ⟨hwithin, hquiet, if_branches_apart_iff l sampleFunction rfl {} cond thenBranch elseBranch
    sampleTurn hwithin hquiet⟩

def emptyThenFunction : FuncDef where
  pos := {}
  name := "f"
  returnType := ["void"]
  storage := []
  params := [⟨{}, "a", ["int"], [], [], none⟩]
  bodyPos := {}
  body := [.ifThen {} (.ident {} "a") (.block {} [])
    (some (.expr {} (.assign {} "=" (.ident {} "a") (.literal {} "int" "1"))))]

/-- Its condition leads to the second branch when it holds, too. -/
theorem emptyThenFunction_enters_else :
    let l := Lowering.start "demo" []
    let ctx := l.context emptyThenFunction
    let d := emptyThenFunction.opened ctx "demo" (l.blank emptyThenFunction)
    let elseBranch := some (Stmt.expr {} (.assign {} "=" (.ident {} "a") (.literal {} "int" "1")))
    let thenStart := (d.atThen ctx (.ident {} "a")).board.slots.length
    let elseStart := (d.atElse ctx (.ident {} "a") (.block {} [])).board.slots.length
    let join := (d.atJoin ctx (.ident {} "a") (.block {} []) elseBranch).board.slots.length
    (l.function emptyThenFunction).diagnostics = [] ∧
    ∃ board : Board, (l.function emptyThenFunction).module.boards = [board] ∧
      ∃ x, board.Walk join thenStart x ∧ elseStart ≤ x ∧ x < join := by
  intro l ctx d elseBranch thenStart elseStart join
  refine ⟨by decide +kernel, _, rfl, thenStart, .start, ?_, ?_⟩
  · decide +kernel
  · decide +kernel

end SlotBoard
