import SlotBoard.Proofs.Branches

/-!
Every statement has a single exit. When a statement has been lowered, control leaves its slots by a
return or through the last of them, and the last one is open unless it returns. So the statements
around it need to look at that slot only: sending it elsewhere sends every way out of the statement
there.
-/
namespace SlotBoard

/-- The slots of a board from address `a` up to `e` are left by a return, which leads to address 0, or
through the last of them, which leads to `k`. -/
def Board.LeftAt (board : Board) (a e k : Nat) : Prop :=
  ∀ i slot, a ≤ i → i < e → board.slots[i]? = some slot → ∀ item ∈ slot.items, ∀ n ∈ item.next,
    (n = 0 ∧ item.operation.isReturn = true) ∨ ((a : Int) ≤ n ∧ n < e) ∨ (n = k ∧ i + 1 = e)

theorem Item.Flows.successor {a e k i : Nat} {item : Item} (h : item.Flows a e k i) {n : Int}
    (hn : n ∈ item.next) :
    (n = 0 ∧ item.operation.isReturn = true) ∨ ((a : Int) ≤ n ∧ n < e) ∨ (n = k ∧ i + 1 = e) := by
  cases h with
  | ret value => exact Or.inl ⟨List.mem_singleton.mp hn, rfl⟩
  | fork cond m m' hm hm' hi =>
    simp only [List.mem_cons, List.not_mem_nil, or_false] at hn
    omega
  | inner operation h m hm hi =>
    simp only [List.mem_singleton] at hn
    omega
  | last operation h hi => exact Or.inr (Or.inr ⟨List.mem_singleton.mp hn, hi⟩)

/-- A region at the end of a board. -/
theorem Region.leftAt {a k : Nat} {region : List Slot} (h : Region a k region) {board : Board}
    {front : List Slot} (ha : front.length = a) (hslots : board.slots = front ++ region) :
    board.LeftAt a (a + region.length) k := by
  intro i slot hlow hhigh hslot item hitem n hn
  obtain ⟨item', hitem', hflows⟩ := h.on_board board front [] ha
    (fun i _ _ => by rw [hslots, List.append_nil]) i hlow hhigh
  obtain rfl : Slot.single i item' = slot := Option.some.inj (hitem'.symm.trans hslot)
  obtain rfl := List.mem_singleton.mp hitem
  exact hflows.successor hn

/-- The slots of a board from address `a` on have a single exit, the address `e` behind them. No slot
but the last leads there. The last one leads there and nowhere else exactly if it is open, and
otherwise all it does is to return. -/
structure Board.SingleExit (board : Board) (a : Nat) : Prop where
  leftAt : board.LeftAt a board.slots.length board.slots.length
  zero : ∀ i slot, a ≤ i → board.slots[i]? = some slot → ∀ item ∈ slot.items, 0 ∈ item.next →
    item.operation.isReturn = true
  last : a < board.slots.length → ∃ slot item, board.slots[board.slots.length - 1]? = some slot ∧
    slot.items = [item] ∧ (item.next = [(board.slots.length : Int)] ↔ slot.isOpen = true) ∧
    (slot.isOpen = false → item.operation.isReturn = true)

theorem Region.singleExit {a : Nat} {region : List Slot} (h : Region a (a + region.length) region)
    {board : Board} {front : List Slot} (hpos : 0 < a) (ha : front.length = a)
    (hslots : board.slots = front ++ region) : board.SingleExit a := by
  have hlength : board.slots.length = a + region.length := by rw [hslots, List.length_append, ha]
  have hleft : board.LeftAt a board.slots.length board.slots.length := by
    rw [hlength]
    exact h.leftAt ha hslots
  refine ⟨hleft, fun i slot hlow hslot item hitem hzero => ?_, fun hlt => ?_⟩
  · obtain ⟨hi, -⟩ := List.getElem?_eq_some_iff.mp hslot
    rcases hleft i slot hlow hi hslot item hitem 0 hzero with ⟨-, hreturn⟩ | hinside | hexit
    · exact hreturn
    · omega
    · omega
  · obtain ⟨item, hitem, hflows⟩ := h.on_board board front [] ha
      (fun i _ _ => by rw [hslots, List.append_nil]) (board.slots.length - 1) (by omega) (by omega)
    refine ⟨_, item, hitem, rfl, ?_⟩
    have hend : board.slots.length - 1 + 1 = a + region.length := by omega
    cases hflows with
    | ret value =>
      have hne : [(0 : Int)] ≠ [(board.slots.length : Int)] := by
        rw [ne_eq, List.singleton_inj]
        omega
      exact ⟨iff_of_false hne Bool.false_ne_true, fun _ => rfl⟩
    | fork cond m n hm hn hi => omega
    | inner operation hop n hn hi => omega
    | last operation hop hi =>
      have hopen := Slot.isOpen_goesOn (board.slots.length - 1) operation hop
      rw [hend] at hopen
      rw [hlength] at hopen ⊢
      refine ⟨iff_of_true rfl hopen, fun hclosed => ?_⟩
      rw [hopen] at hclosed
      cases hclosed

/-- The code that a statement appends has a single exit. -/
theorem Stmt.lower_singleExit (ctx : Context) (s : Stmt) (d : Draft) (h : 0 < d.board.slots.length) :
    (d.after (s.lower ctx)).board.SingleExit d.board.slots.length := by
  obtain ⟨code, hcode, hregion⟩ := s.lower_extends ctx d
  exact hregion.singleExit h rfl hcode

/-- Sending the last slot of a statement to an address sends every exit of the statement there. -/
theorem Stmt.closeAt_leftAt (ctx : Context) (s : Stmt) (d : Draft) (target : Nat) :
    ((d.after (s.lower ctx)).after
      (Draft.closeAt (d.answer (Draft.lastAppended (s.lower ctx))) target)).board.LeftAt
        d.board.slots.length (d.after (s.lower ctx)).board.slots.length target := by
  obtain ⟨code, hcode, hregion⟩ := s.lower_extends ctx d
  have hpatched := Draft.after_closeAt (d := d.after (s.lower ctx)) d.board.slots code [] rfl
    (by rw [hcode, List.append_nil]) target
  rw [d.answer_lastAppended _ code hcode, hpatched, hcode, List.length_append,
    ← length_closeLast target code]
  refine (hregion.closeLast target).leftAt rfl ?_
  rw [Draft.slots_withSlots, List.append_nil]

/-- A function body starts behind the two markers. -/
theorem FuncDef.two_le_of_within {l : Lowering} {f : FuncDef} {s : Stmt} {d : Draft}
    (h : Stmt.Within (l.context f) s d (.block f.bodyPos f.body)
      (f.opened (l.context f) l.module.name (l.blank f))) : 2 ≤ d.board.slots.length := by
  have hle := h.retains.1
  rwa [f.opened_slots (l.context f) l.module.name (l.blank f) rfl] at hle

/-- Wherever a statement is lowered behind at least one slot, and whatever is reported on the way, the
slots that it appends have a single exit; and sending the last of them to any address, as the
statements around it do, leaves no other way out. All statements of a function body are lowered behind
at least two slots. -/
theorem statement_has_single_exit :
    (∀ (ctx : Context) (s : Stmt) (d : Draft), 0 < d.board.slots.length →
      (d.after (s.lower ctx)).board.SingleExit d.board.slots.length ∧
      ∀ target, ((d.after (s.lower ctx)).after
        (Draft.closeAt (d.answer (Draft.lastAppended (s.lower ctx))) target)).board.LeftAt
          d.board.slots.length (d.after (s.lower ctx)).board.slots.length target) ∧
    ∀ (l : Lowering) (f : FuncDef) (s : Stmt) (d : Draft),
      Stmt.Within (l.context f) s d (.block f.bodyPos f.body)
        (f.opened (l.context f) l.module.name (l.blank f)) → 2 ≤ d.board.slots.length :=
  ⟨fun ctx s d h => ⟨s.lower_singleExit ctx d h, s.closeAt_leftAt ctx d⟩,
    fun _ _ _ _ h => FuncDef.two_le_of_within h⟩

/-- An `if` that returns in its first branch and is given up in its second one, after a call. -/
def guardedStmt : Stmt :=
  .ifThen {} (.ident {} "n") (.ret {} (some (.ident {} "n")))
    (some (.expr {} (.binary {} "+" (.ident {} "u") (.call {} "f" []))))

def guardedFunction : FuncDef where
  pos := {}
  name := "f"
  returnType := ["int"]
  storage := []
  params := [⟨{}, "n", ["int"], [], [], none⟩]
  bodyPos := {}
  body := [guardedStmt]

theorem guardedFunction_has_single_exit :
    let l := Lowering.start "m" []
    let ctx := l.context guardedFunction
    let d := guardedFunction.opened ctx "m" (l.blank guardedFunction)
    let e := d.after (guardedStmt.lower ctx)
    2 ≤ d.board.slots.length ∧ e.diagnostics.length = 1 ∧
    (e.board.slots.drop d.board.slots.length).map Slot.successors = [[3, 4], [0], [5], [6]] ∧
    e.board.SingleExit d.board.slots.length := by
  intro l ctx d e
  have hwithin : Stmt.Within ctx guardedStmt d
      (.block guardedFunction.bodyPos guardedFunction.body) d :=
    @Stmt.Within.block ctx _ _ _ [] _ [] _ .here
  have hsize := statement_has_single_exit.2 l guardedFunction guardedStmt d hwithin
  refine ⟨hsize, by decide +kernel, by decide +kernel, ?_⟩
  exact (statement_has_single_exit.1 ctx guardedStmt d (Nat.lt_of_lt_of_le Nat.zero_lt_two hsize)).1

end SlotBoard
