import SlotBoard.Proofs.Patching

/-!
Code with a single exit. A region is a piece of code, one item to a slot, that control leaves only
through its last slot or by a return; every other successor lies inside. Lowering a statement only
appends a region to the board, whether or not the statement is reported, and closing the last slot of
a region moves its exit.
-/
namespace SlotBoard

def Operation.goesOn : Operation → Bool
  | assign .. | binary .. | call .. | jump => true
  | _ => false

theorem Operation.goesOn_of_computes {operation : Operation} (h : operation.computes = true) :
    operation.goesOn = true := by
  cases operation <;> first | rfl | cases h

theorem Slot.isOpen_goesOn (i : Nat) (operation : Operation) (h : operation.goesOn = true) :
    (single i ⟨operation, [((i + 1 : Nat) : Int)]⟩).isOpen = true := by
  cases operation <;>
    simp_all [isOpen, single, last?, Operation.goesOn, Item.branches, Operation.branches,
      Address.following]

theorem Slot.close_goesOn (i k : Nat) (operation : Operation) (h : operation.goesOn = true) :
    (single i ⟨operation, [((i + 1 : Nat) : Int)]⟩).close k = single i ⟨operation, [(k : Int)]⟩ := by
  rw [close, if_pos (isOpen_goesOn i operation h)]
  rfl

theorem Slot.close_ret (i k : Nat) (value : Option Value) :
    (single i (.ret value)).close k = single i (.ret value) := rfl

/-- Where control goes from the item at address `i` of code that lies from `a` up to `e` and is left
at `k`. Only the item at the end leaves the code. -/
inductive Item.Flows (a e k i : Nat) : Item → Prop
  | ret (value : Option Value) : Flows a e k i (.ret value)
  | fork (cond : Value) (m n : Nat) (hm : a ≤ m ∧ m < e) (hn : a ≤ n ∧ n < e) (hi : i + 1 < e) :
      Flows a e k i ⟨.jumpIfTrue cond, [(m : Int), (n : Int)]⟩
  | inner (operation : Operation) (h : operation.goesOn = true) (n : Nat) (hn : a ≤ n ∧ n < e)
      (hi : i + 1 < e) : Flows a e k i ⟨operation, [(n : Int)]⟩
  | last (operation : Operation) (h : operation.goesOn = true) (hi : i + 1 = e) :
      Flows a e k i ⟨operation, [(k : Int)]⟩

/-- Slots from address `i` on, each with a single item that flows inside the code around them. -/
def Lies (a e k : Nat) : Nat → List Slot → Prop
  | _, [] => True
  | i, slot :: slots => (∃ item, slot = Slot.single i item ∧ item.Flows a e k i) ∧
      Lies a e k (i + 1) slots

/-- Code from address `a` on with the single exit `k`. -/
def Region (a k : Nat) (slots : List Slot) : Prop := Lies a (a + slots.length) k a slots

/-- Code may stand in longer code: its items still flow inside, and those that left it either still
leave at the end or go on inside. -/
theorem Item.Flows.widen {a e k i a' e' k' : Nat} {item : Item} (h : item.Flows a e k i)
    (ha : a' ≤ a) (he : e ≤ e')
    (hlast : i + 1 = e → (e = e' ∧ k = k') ∨ (e < e' ∧ a' ≤ k ∧ k < e')) :
    item.Flows a' e' k' i := by
  cases h with
  | ret value => exact .ret value
  | fork cond m n hm hn hi => exact .fork cond m n (by omega) (by omega) (by omega)
  | inner operation h n hn hi => exact .inner operation h n (by omega) (by omega)
  | last operation h hi =>
    rcases hlast hi with ⟨rfl, rfl⟩ | ⟨hlt, hk⟩
    · exact .last operation h hi
    · exact .inner operation h k hk (by omega)

namespace Lies

variable {a e k i a' e' k' : Nat} {xs ys : List Slot}

theorem imp (h : Lies a e k i xs)
    (himp : ∀ j item, i ≤ j → j < i + xs.length → Item.Flows a e k j item →
      Item.Flows a' e' k' j item) : Lies a' e' k' i xs := by
  induction xs generalizing i with
  | nil => trivial
  | cons x xs ih =>
    obtain ⟨⟨item, hx, hitem⟩, hxs⟩ := h
    refine ⟨⟨item, hx, himp i item (Nat.le_refl _) (by simp) hitem⟩, ih hxs ?_⟩
    intro j item hj hlt
    exact himp j item (by omega) (by simp only [List.length_cons]; omega)

theorem append (hx : Lies a e k i xs) (hy : Lies a e k (i + xs.length) ys) :
    Lies a e k i (xs ++ ys) := by
  induction xs generalizing i with
  | nil => exact hy
  | cons x xs ih =>
    refine ⟨hx.1, ih hx.2 ?_⟩
    have hindex : i + 1 + xs.length = i + (x :: xs).length := by
      simp only [List.length_cons]
      omega
    rwa [hindex]

theorem of_append (h : Lies a e k i (xs ++ ys)) :
    Lies a e k i xs ∧ Lies a e k (i + xs.length) ys := by
  induction xs generalizing i with
  | nil => exact ⟨trivial, h⟩
  | cons x xs ih =>
    obtain ⟨hxs, hys⟩ := ih h.2
    have hindex : i + 1 + xs.length = i + (x :: xs).length := by
      simp only [List.length_cons]
      omega
    exact ⟨⟨h.1, hxs⟩, hindex ▸ hys⟩

end Lies

namespace Region

variable {a e k a' k' : Nat} {xs ys : List Slot}

theorem nil (a k : Nat) : Region a k [] := trivial

theorem withExit (h : Region a k xs) (hk : k' = k) : Region a k' xs := hk ▸ h

theorem single {item : Item} (h : item.Flows a (a + 1) k a) : Region a k [Slot.single a item] :=
  ⟨⟨item, rfl, h⟩, trivial⟩

/-- A region is part of longer code in which its exit lies. -/
theorem inside (h : Region a k xs) (ha : a' ≤ a) (he : a + xs.length < e) (hk : a' ≤ k ∧ k < e) :
    Lies a' e k' a xs := by
  refine Lies.imp h fun j item _ hj hitem => hitem.widen ha (by omega) fun hlast => ?_
  exact Or.inr ⟨by omega, hk⟩

/-- A region is part of code that starts before it and ends with it. -/
theorem atEnd (h : Region a k xs) (ha : a' ≤ a) (he : e = a + xs.length) : Lies a' e k a xs := by
  refine Lies.imp h fun j item _ hj hitem => hitem.widen ha (by omega) fun hlast => ?_
  exact Or.inl ⟨by omega, rfl⟩

theorem append (hx : Region a (a + xs.length) xs) (hy : Region (a + xs.length) k ys)
    (hk : ys = [] → k = a + xs.length) : Region a k (xs ++ ys) := by
  by_cases hys : ys = []
  · subst hys
    rw [hk rfl, List.append_nil]
    exact hx
  · have hpos : 0 < ys.length := List.length_pos_iff.mpr hys
    rw [Region, List.length_append]
    exact Lies.append (hx.inside (Nat.le_refl _) (by omega) (by omega))
      (hy.atEnd (by omega) (by omega))

/-- Closing the last slot moves the exit. -/
theorem closeLast (h : Region a (a + xs.length) xs) (k : Nat) :
    Region a k (closeLast k xs) := by
  rcases List.eq_nil_or_concat xs with rfl | ⟨front, slot, rfl⟩
  · trivial
  · rw [List.concat_eq_append] at h ⊢
    rw [closeLast_concat]
    have hlength : (front ++ [slot]).length = front.length + 1 := by simp
    have hclosed : (front ++ [slot.close k]).length = front.length + 1 := by simp
    rw [Region, hlength] at h
    rw [Region, hclosed]
    obtain ⟨hfront, ⟨item, rfl, hitem⟩, -⟩ := Lies.of_append h
    refine Lies.append (hfront.imp fun j item _ hj hflows => ?_) ⟨?_, trivial⟩
    · exact hflows.widen (Nat.le_refl _) (Nat.le_refl _) fun hlast => by omega
    · cases hitem with
      | ret value => exact ⟨.ret value, Slot.close_ret _ _ _, .ret value⟩
      | fork cond m n hm hn hi => omega
      | inner operation hop n hn hi => omega
      | last operation hop hi =>
        rw [← hi, Slot.close_goesOn _ _ _ hop]
        exact ⟨_, rfl, .last operation hop rfl⟩

theorem loopBack (h : Region a (a + xs.length) xs) (condition : Nat) :
    Region a condition (loopBack condition a xs) := by
  cases xs with
  | nil => exact single (.last .jump rfl rfl)
  | cons x xs => exact h.closeLast condition

/-- Two branches that both leave at the join make a region with the condition before them and the
join after them. -/
theorem ifThen {head join : Nat} {cs ts es : List Slot} (hc : Region a head cs)
    (hhead : head = a + cs.length) (ht : Region (head + 1) join ts)
    (he : Region (head + 1 + ts.length) join es)
    (hjoin : join = head + 1 + ts.length + es.length) (cond : Value) :
    Region a (join + 1) (cs ++ headSlot (.jumpIfTrue cond) head (head + 1 + ts.length) ::
      (ts ++ (es ++ [Slot.single join (.jump ((join + 1 : Nat) : Int))]))) := by
  have hlength : a + (cs ++ headSlot (.jumpIfTrue cond) head (head + 1 + ts.length) ::
      (ts ++ (es ++ [Slot.single join (.jump ((join + 1 : Nat) : Int))]))).length = join + 1 := by
    simp only [List.length_append, List.length_cons, List.length_nil]
    omega
  rw [Region, hlength]
  have hexit : Lies a (join + 1) (join + 1) join [Slot.single join (.jump ((join + 1 : Nat) : Int))] :=
    ⟨⟨_, rfl, .last .jump rfl rfl⟩, trivial⟩
  refine Lies.append (hc.inside (Nat.le_refl _) (by omega) (by omega)) ?_
  rw [← hhead]
  refine ⟨⟨_, rfl, .fork cond _ _ (by omega) (by omega) (by omega)⟩, ?_⟩
  refine Lies.append (ht.inside (by omega) (by omega) (by omega)) ?_
  refine Lies.append (he.inside (by omega) (by omega) (by omega)) ?_
  rwa [← hjoin]

/-- A turn that leaves at the condition makes a region with the head before it and the join after
it. -/
theorem forLoop {head join condition : Nat} {cs turn : List Slot} {operation : Operation}
    (hc : Region a head cs) (hhead : head = a + cs.length)
    (hcondition : a ≤ condition ∧ condition ≤ head) (ht : Region (head + 1) condition turn)
    (hjoin : join = head + 1 + turn.length)
    (hop : operation = .jump ∨ ∃ cond, operation = .jumpIfTrue cond) :
    Region a (join + 1) (cs ++ headSlot operation head join ::
      (turn ++ [Slot.single join (.jump ((join + 1 : Nat) : Int))])) := by
  have hlength : a + (cs ++ headSlot operation head join ::
      (turn ++ [Slot.single join (.jump ((join + 1 : Nat) : Int))])).length = join + 1 := by
    simp only [List.length_append, List.length_cons, List.length_nil]
    omega
  rw [Region, hlength]
  have hjump : ∃ item, headSlot operation head join = Slot.single head item ∧
      Item.Flows a (join + 1) (join + 1) head item := by
    rcases hop with rfl | ⟨cond, rfl⟩
    · exact ⟨_, rfl, .inner .jump rfl (head + 1) (by omega) (by omega)⟩
    · exact ⟨_, rfl, .fork cond (head + 1) join (by omega) (by omega) (by omega)⟩
  have hexit : Lies a (join + 1) (join + 1) join [Slot.single join (.jump ((join + 1 : Nat) : Int))] :=
    ⟨⟨_, rfl, .last .jump rfl rfl⟩, trivial⟩
  refine Lies.append (hc.inside (Nat.le_refl _) (by omega) (by omega)) ?_
  rw [← hhead]
  refine ⟨hjump, ?_⟩
  refine Lies.append (ht.inside (by omega) (by omega) (by omega)) ?_
  rwa [← hjoin]

end Region

namespace Draft

/-- The later draft has more code: a region that starts where the earlier one ends and is left at
its own end. -/
def Extends (d e : Draft) : Prop :=
  ∃ code, e.board.slots = d.board.slots ++ code ∧
    Region d.board.slots.length (d.board.slots.length + code.length) code

namespace Extends

theorem of_slots_eq {d e : Draft} (h : e.board.slots = d.board.slots) : d.Extends e :=
  ⟨[], by simpa using h, Region.nil _ _⟩

theorem trans {a b c : Draft} (hab : a.Extends b) (hbc : b.Extends c) : a.Extends c := by
  obtain ⟨xs, hb, hxs⟩ := hab
  obtain ⟨ys, hc, hys⟩ := hbc
  rw [hb, List.length_append] at hys
  refine ⟨xs ++ ys, by rw [hc, hb, List.append_assoc], ?_⟩
  rw [List.length_append, ← Nat.add_assoc]
  refine hxs.append hys fun hnil => ?_
  simp [hnil]

theorem push {d e : Draft} (item : Item)
    (h : e.board.slots = d.board.slots ++ [Slot.single d.board.slots.length item])
    (hitem : item.Flows d.board.slots.length (d.board.slots.length + 1)
      (d.board.slots.length + 1) d.board.slots.length) : d.Extends e :=
  ⟨[_], h, Region.single hitem⟩

theorem admitsExprs (ctx : Context) : AdmitsExprs ctx Extends where
  refl _ := of_slots_eq rfl
  trans := trans
  temporary _ _ _ := of_slots_eq rfl
  constant _ _ _ := of_slots_eq rfl
  report _ _ _ _ := of_slots_eq rfl
  emit operation hop d := by
    have hcomputes := hop.computes
    refine push ⟨operation, _⟩ ?_ (.last operation (Operation.goesOn_of_computes hcomputes) rfl)
    rw [after_emit, slots_withSlots,
      Slot.push_straight _ _ (Operation.branches_of_computes hcomputes)]

end Extends
end Draft

theorem Expr.lower_extends (ctx : Context) (e : Expr) : Keeps Draft.Extends (e.lower ctx).run :=
  e.lower_keeps (Draft.Extends.admitsExprs ctx)

theorem Headed.extends_condition {ctx : Context} {d d₁ d₂ : Draft} {cond : Option Expr}
    {operation : Operation} (h : Headed ctx d cond d₁ d₂ operation) : d.Extends d₁ := by
  cases h with
  | always => exact Draft.Extends.of_slots_eq rfl
  | @cond e v d₁ hv h₁ =>
    rw [← h₁]
    exact e.lower_extends ctx d

theorem Headed.operation_eq {ctx : Context} {d d₁ d₂ : Draft} {cond : Option Expr}
    {operation : Operation} (h : Headed ctx d cond d₁ d₂ operation) :
    operation = .jump ∨ ∃ v, operation = .jumpIfTrue v := by
  cases h with
  | always => exact Or.inl rfl
  | cond hv h₁ => exact Or.inr ⟨_, rfl⟩

namespace Draft.Extends

theorem ifThen (ctx : Context) (pos : Position) (cond : Expr) (thenBranch : Stmt)
    (elseBranch : Option Stmt) (hthen : Keeps Extends (thenBranch.lower ctx))
    (helse : Keeps Extends (Stmt.lowerOption ctx elseBranch)) :
    Keeps Extends ((Stmt.ifThen pos cond thenBranch elseBranch).lower ctx) := by
  intro d
  rcases headed_or_error ctx d (some cond) with ⟨d₁, d₂, operation, h⟩ | ⟨e, fault, he, hfault⟩
  · obtain ⟨cs, hcs, hcond⟩ := h.extends_condition
    obtain ⟨ts, hts, ht⟩ := hthen d₂
    obtain ⟨es, hes, he⟩ := helse (d₂.after (thenBranch.lower ctx))
    obtain ⟨v, rfl⟩ : ∃ v, operation = .jumpIfTrue v := by
      cases h with
      | cond hv h₁ => exact ⟨_, rfl⟩
    obtain ⟨head, hhead⟩ : ∃ head, head = d₁.board.slots.length := ⟨_, rfl⟩
    obtain ⟨join, hjoin⟩ : ∃ join, join = head + 1 + ts.length + es.length := ⟨_, rfl⟩
    have hcode : head = d.board.slots.length + cs.length := by rw [hhead, hcs, List.length_append]
    have hstart : d₂.board.slots.length = head + 1 := by rw [h.length_slots, hhead]
    rw [hts, List.length_append, hstart] at he
    rw [hstart] at ht
    rw [← hcode] at hcond
    have hregion := hcond.ifThen hcode (ht.closeLast join)
      (by rw [length_closeLast]; exact he.closeLast join) (by simpa [length_closeLast]) v
    rw [length_closeLast] at hregion
    refine ⟨_, ?_, hregion.withExit ?_⟩
    · rw [Stmt.after_ifThen pos h rfl rfl hts hes hhead hjoin, slots_withSlots, hcs, List.append_assoc]
    · simp only [List.length_append, List.length_cons, List.length_nil, length_closeLast]
      omega
  · cases he
    rw [Stmt.after_ifThen_of_error hfault]
    exact cond.lower_extends ctx d

theorem forLoop (ctx : Context) (pos : Position) (init : Option Stmt) (cond : Option Expr)
    (next : Option Stmt) (body : Stmt) (hinit : Keeps Extends (Stmt.lowerOption ctx init))
    (hbody : Keeps Extends (body.lower ctx)) (hnext : Keeps Extends (Stmt.lowerOption ctx next)) :
    Keeps Extends ((Stmt.forLoop pos init cond next body).lower ctx) := by
  intro d
  have hstarted : d.Extends (d.after (Stmt.lowerOption ctx init)) := hinit d
  obtain ⟨is, his, -⟩ := hstarted
  rcases headed_or_error ctx (d.after (Stmt.lowerOption ctx init)) cond with
    ⟨d₁, d₂, operation, h⟩ | ⟨e, fault, rfl, hfault⟩
  · obtain ⟨cs, hcs, hcond⟩ := (hinit d).trans h.extends_condition
    obtain ⟨xs, hxs, -⟩ := h.extends_condition
    obtain ⟨bs, hbs, hb⟩ := hbody d₂
    obtain ⟨ns, hns, hn⟩ := hnext (d₂.after (body.lower ctx))
    obtain ⟨head, hhead⟩ : ∃ head, head = d₁.board.slots.length := ⟨_, rfl⟩
    obtain ⟨condition, hcondition⟩ : ∃ condition,
      condition = (d.after (Stmt.lowerOption ctx init)).board.slots.length := ⟨_, rfl⟩
    obtain ⟨join, hjoin⟩ : ∃ join,
      join = head + 1 + (loopBack condition (head + 1) (bs ++ ns)).length := ⟨_, rfl⟩
    have hcode : head = d.board.slots.length + cs.length := by rw [hhead, hcs, List.length_append]
    have hstart : d₂.board.slots.length = head + 1 := by rw [h.length_slots, hhead]
    have hfrom : d.board.slots.length ≤ condition := by
      rw [hcondition, his, List.length_append]
      omega
    have hto : condition ≤ head := by
      rw [hcondition, hhead, hxs, List.length_append]
      omega
    rw [hbs, List.length_append, hstart] at hn
    rw [hstart] at hb
    rw [← hcode] at hcond
    have hturn : Region (head + 1) (head + 1 + (bs ++ ns).length) (bs ++ ns) := by
      rw [List.length_append, ← Nat.add_assoc]
      exact hb.append hn fun hnil => by simp [hnil]
    have hregion := hcond.forLoop hcode ⟨hfrom, hto⟩ (hturn.loopBack condition) hjoin h.operation_eq
    refine ⟨_, ?_, hregion.withExit ?_⟩
    · subst hcondition
      rw [Stmt.after_forLoop pos rfl h rfl rfl hbs hns hhead hjoin, slots_withSlots, hcs,
        List.append_assoc]
    · simp only [List.length_append, List.length_cons, List.length_nil]
      omega
  · rw [Stmt.after_forLoop_of_error rfl hfault]
    exact (hinit d).trans (e.lower_extends ctx _)

theorem admitsStmts (ctx : Context) : AdmitsStmts ctx Extends :=
  { admitsExprs ctx with
    report := fun _ _ _ _ _ => of_slots_eq rfl
    assign := fun target value _ => (admitsExprs ctx).emit _ (.assign target value)
    declare := fun scope source kind flags d => by
      rw [after_declare?]
      split
      · exact of_slots_eq rfl
      · exact of_slots_eq rfl
    ret := fun value d => push (.ret value) rfl (.ret value)
    placeholder := fun d => push (.jump _) rfl (.last .jump rfl rfl)
    ifThen := fun pos cond thenBranch elseBranch _ => ifThen ctx pos cond thenBranch elseBranch
    forLoop := fun pos init cond next body _ => forLoop ctx pos init cond next body }

end Draft.Extends

/-- Lowering a statement leaves the code written before it alone and appends a region to it. -/
theorem Stmt.lower_extends (ctx : Context) (s : Stmt) : Keeps Draft.Extends (s.lower ctx) :=
  s.lower_keeps (Draft.Extends.admitsStmts ctx) fun e _ => e.lower_extends ctx

theorem Stmt.lowerAll_extends (ctx : Context) (ss : List Stmt) :
    Keeps Draft.Extends (Stmt.lowerAll ctx ss) :=
  Stmt.lowerAll_keeps (Draft.Extends.admitsStmts ctx) ss fun e _ => e.lower_extends ctx

theorem Stmt.lowerOption_extends (ctx : Context) (s : Option Stmt) :
    Keeps Draft.Extends (Stmt.lowerOption ctx s) :=
  Stmt.lowerOption_keeps (Draft.Extends.admitsStmts ctx) s fun e _ => e.lower_extends ctx

end SlotBoard
