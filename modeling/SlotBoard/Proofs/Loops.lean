import SlotBoard.Proofs.ControlFlow

/-!
Cycles come from loops only. An expression and a plain statement write slots that lead forward or to
address 0, an `if` closes its branches at a join behind them, and a loop sends at most one slot back, the
last one of its turn. So a board has at most as many slots that lead back as its function has loops.
Without any, a walk from the entry climbs from address to address until it comes to 0.
-/
namespace SlotBoard

mutual

def Stmt.loops : Stmt → Nat
  | .block _ items => Stmt.loopsAll items
  | .ifThen _ _ thenBranch elseBranch => thenBranch.loops + Stmt.loopsOption elseBranch
  | .forLoop _ init _ next body =>
    Stmt.loopsOption init + (body.loops + Stmt.loopsOption next + 1)
  | .switch _ _ body => body.loops
  | .caseOf _ _ stmts => Stmt.loopsAll stmts
  | .otherwise _ stmts => Stmt.loopsAll stmts
  | .decl _ | .ret _ _ | .leave _ | .empty _ | .expr _ _ | .unknown _ _ => 0
termination_by structural s => s

def Stmt.loopsAll : List Stmt → Nat
  | [] => 0
  | s :: ss => s.loops + Stmt.loopsAll ss
termination_by structural ss => ss

def Stmt.loopsOption : Option Stmt → Nat
  | none => 0
  | some s => s.loops
termination_by structural s => s

end

/-- Whether a slot has a successor other than 0 that does not lie behind it. -/
def Slot.leadsBack (slot : Slot) : Bool :=
  slot.successors.any fun n => 0 < n && n ≤ slot.address.toInt

namespace Slot

/-- A slot with one item leads back if that item does. -/
theorem leadsBack_single (i : Nat) (item : Item) :
    (single i item).leadsBack = item.next.any fun n => 0 < n && n ≤ (i : Int) := by
  rw [leadsBack, successors_single]
  rfl

/-- An item that goes to 0 or past its own address does not lead back. -/
theorem not_leadsBack_single {i : Nat} {item : Item} (h : ∀ n ∈ item.next, n = 0 ∨ (i : Int) < n) :
    (single i item).leadsBack = false := by
  rw [leadsBack_single, List.any_eq_false]
  intro n hn
  have := h n hn
  simp only [Bool.and_eq_true, decide_eq_true_eq]
  omega

/-- An item with a single successor that lies behind it. -/
theorem not_leadsBack_of_lt {i k : Nat} (h : i < k) (operation : Operation) :
    (single i ⟨operation, [(k : Int)]⟩).leadsBack = false := by
  refine not_leadsBack_single fun n hn => Or.inr ?_
  rw [List.mem_singleton.mp hn]
  omega

theorem not_leadsBack_head {operation : Operation} {head join : Nat} (h : head < join) :
    (headSlot operation head join).leadsBack = false := by
  unfold headSlot
  split
  · refine not_leadsBack_single fun n hn => Or.inr ?_
    simp only [List.mem_cons, List.not_mem_nil, or_false] at hn
    omega
  · exact not_leadsBack_of_lt (Nat.lt_succ_self head) operation

end Slot

/-- Closing a region behind its end sends no slot back. -/
theorem countP_closeLast_le {a k : Nat} {xs : List Slot}
    (h : Region a (a + xs.length) xs) (hk : a + xs.length ≤ k) :
    (closeLast k xs).countP Slot.leadsBack ≤ xs.countP Slot.leadsBack := by
  rcases List.eq_nil_or_concat xs with rfl | ⟨front, slot, rfl⟩
  · exact Nat.le_refl _
  · rw [List.concat_eq_append] at h hk ⊢
    rw [closeLast_concat, List.countP_append, List.countP_append]
    have hlength : (front ++ [slot]).length = front.length + 1 := by simp
    rw [Region, hlength] at h
    rw [hlength] at hk
    obtain ⟨-, ⟨item, rfl, hitem⟩, -⟩ := Lies.of_append h
    refine Nat.add_le_add_left ?_ _
    cases hitem with
    | ret value => rw [Slot.close_ret]
    | fork cond m n hm hn hi => omega
    | inner operation hop n hn hi => omega
    | last operation hop hi =>
      have hforward : (Slot.single (a + front.length) ⟨operation, [(k : Int)]⟩).leadsBack = false :=
        Slot.not_leadsBack_of_lt (by omega) operation
      rw [← hi, Slot.close_goesOn _ _ _ hop]
      simp [hforward]

/-- The end of a turn is the only slot of it that may come to lead back. -/
theorem countP_loopBack_le (condition start : Nat) (xs : List Slot) :
    (loopBack condition start xs).countP Slot.leadsBack ≤ xs.countP Slot.leadsBack + 1 := by
  rcases List.eq_nil_or_concat xs with rfl | ⟨front, slot, rfl⟩
  · exact List.countP_le_length
  · rw [List.concat_eq_append]
    have hback : loopBack condition start (front ++ [slot]) = front ++ [slot.close condition] := by
      rw [← closeLast_concat]
      cases front <;> rfl
    have hone : [slot.close condition].countP Slot.leadsBack ≤ 1 := List.countP_le_length
    rw [hback, List.countP_append, List.countP_append]
    omega

namespace Draft

/-- The later draft has more code, and at most so many slots of it lead back. -/
def AddsBack (n : Nat) (d e : Draft) : Prop :=
  ∃ code, e.board.slots = d.board.slots ++ code ∧ code.countP Slot.leadsBack ≤ n

namespace AddsBack

variable {d e : Draft} {m n : Nat}

theorem of_slots_eq (h : e.board.slots = d.board.slots) : d.AddsBack 0 e :=
  ⟨[], by simpa using h, Nat.le_refl _⟩

theorem trans {a b c : Draft} (hab : a.AddsBack m b) (hbc : b.AddsBack n c) :
    a.AddsBack (m + n) c := by
  obtain ⟨xs, hxs, hm⟩ := hab
  obtain ⟨ys, hys, hn⟩ := hbc
  refine ⟨xs ++ ys, by rw [hys, hxs, List.append_assoc], ?_⟩
  rw [List.countP_append]
  exact Nat.add_le_add hm hn

/-- An expression in front does not count. -/
theorem behind {a b c : Draft} (hab : a.AddsBack 0 b) (hbc : b.AddsBack n c) : a.AddsBack n c := by
  simpa using hab.trans hbc

theorem weaken (h : d.AddsBack 0 e) : d.AddsBack n e := by
  obtain ⟨code, hcode, hcount⟩ := h
  exact ⟨code, hcode, Nat.le_trans hcount (Nat.zero_le n)⟩

theorem push {slot : Slot} (h : e.board.slots = d.board.slots ++ [slot])
    (hslot : slot.leadsBack = false) : d.AddsBack 0 e :=
  ⟨[slot], h, by simp [hslot]⟩

/-- The code that is added is a region. -/
theorem region (h : d.AddsBack n e) (hextends : d.Extends e) :
    ∃ code, e.board.slots = d.board.slots ++ code ∧ code.countP Slot.leadsBack ≤ n ∧
      Region d.board.slots.length (d.board.slots.length + code.length) code := by
  obtain ⟨xs, hxs, hn⟩ := h
  obtain ⟨ys, hys, hregion⟩ := hextends
  obtain rfl : xs = ys := List.append_cancel_left (hxs.symm.trans hys)
  exact ⟨xs, hxs, hn, hregion⟩

theorem composes : Composes (AddsBack 0) := ⟨fun _ => of_slots_eq rfl, behind⟩

theorem admitsExprs (ctx : Context) : AdmitsExprs ctx (AddsBack 0) where
  toComposes := composes
  temporary _ _ _ := of_slots_eq rfl
  constant _ _ _ := of_slots_eq rfl
  report _ _ _ _ := of_slots_eq rfl
  emit operation hop d := by
    refine push rfl ?_
    rw [Slot.push_straight _ _ (Operation.branches_of_computes hop.computes)]
    exact Slot.not_leadsBack_of_lt (Nat.lt_succ_self _) operation

theorem admitsLeaves (ctx : Context) : AdmitsLeaves ctx (AddsBack 0) where
  toComposes := composes
  report _ _ _ _ _ := of_slots_eq rfl
  assign target value _ := (admitsExprs ctx).emit _ (.assign target value)
  declare scope source kind flags d := by
    rw [after_declare?]
    split
    · exact of_slots_eq rfl
    · exact of_slots_eq rfl
  ret value d := by
    have hreturn : (Slot.single d.board.slots.length (.ret value)).leadsBack = false :=
      Slot.not_leadsBack_single fun n hn => Or.inl (List.mem_singleton.mp hn)
    exact push rfl hreturn
  placeholder d := push rfl (Slot.not_leadsBack_of_lt (Nat.lt_succ_self _) .jump)

end AddsBack
end Draft

theorem Expr.lower_addsBack (ctx : Context) (e : Expr) :
    Keeps (Draft.AddsBack 0) (e.lower ctx).run :=
  e.lower_keeps (Draft.AddsBack.admitsExprs ctx)

theorem Headed.addsBack_condition {ctx : Context} {d d₁ d₂ : Draft} {cond : Option Expr}
    {operation : Operation} (h : Headed ctx d cond d₁ d₂ operation) : d.AddsBack 0 d₁ := by
  cases h with
  | always => exact Draft.AddsBack.of_slots_eq rfl
  | @cond e v d₁ hv h₁ =>
    rw [← h₁]
    exact e.lower_addsBack ctx d

namespace Draft.AddsBack

variable {ctx : Context} {k m n : Nat}

theorem withValue (e : Expr) {step : Value → Emit Unit} (hstep : ∀ v, Keeps (AddsBack n) (step v)) :
    Keeps (AddsBack n) (withValue ctx e step) := by
  intro d
  have hexpr : d.AddsBack 0 (d.after (e.lower ctx).run) := e.lower_addsBack ctx d
  cases hv : d.answer (e.lower ctx).run with
  | error fault =>
    rw [after_withValue_of_error hv]
    exact hexpr.weaken
  | ok v =>
    rw [SlotBoard.withValue, after_bind, hv]
    exact hexpr.behind (hstep v _)

/-- Both branches are closed at the join, which lies behind them. -/
theorem ifThen (pos : Position) (cond : Expr) (thenBranch : Stmt) (elseBranch : Option Stmt)
    (hthen : Keeps (AddsBack m) (thenBranch.lower ctx))
    (helse : Keeps (AddsBack n) (Stmt.lowerOption ctx elseBranch)) :
    Keeps (AddsBack (m + n)) ((Stmt.ifThen pos cond thenBranch elseBranch).lower ctx) := by
  intro d
  rcases headed_or_error ctx d (some cond) with ⟨d₁, d₂, operation, h⟩ | ⟨e, fault, he, hfault⟩
  · obtain ⟨ts, hts, htcount, ht⟩ := (hthen d₂).region (thenBranch.lower_extends ctx d₂)
    obtain ⟨es, hes, hecount, he⟩ :=
      (helse (d₂.after (thenBranch.lower ctx))).region (Stmt.lowerOption_extends ctx elseBranch _)
    obtain ⟨head, hhead⟩ : ∃ head, head = d₁.board.slots.length := ⟨_, rfl⟩
    obtain ⟨join, hjoin⟩ : ∃ join, join = head + 1 + ts.length + es.length := ⟨_, rfl⟩
    have hstart : d₂.board.slots.length = head + 1 := by rw [h.length_slots, hhead]
    rw [hts, List.length_append, hstart] at he
    rw [hstart] at ht
    have hthenClosed := countP_closeLast_le ht (k := join) (by omega)
    have helseClosed := countP_closeLast_le he (k := join) (by omega)
    have hfork : (headSlot operation head (head + 1 + ts.length)).leadsBack = false :=
      Slot.not_leadsBack_head (by omega)
    have hexit : (Slot.single join (.jump ((join + 1 : Nat) : Int))).leadsBack = false :=
      Slot.not_leadsBack_of_lt (Nat.lt_succ_self join) .jump
    refine h.addsBack_condition.behind ?_
    rw [Stmt.after_ifThen pos h rfl rfl hts hes hhead hjoin]
    refine ⟨_, rfl, ?_⟩
    simp only [List.countP_cons, List.countP_append, List.countP_nil, hfork, hexit,
      Bool.false_eq_true, if_false]
    omega
  · cases he
    rw [Stmt.after_ifThen_of_error hfault]
    exact (cond.lower_addsBack ctx d).weaken

/-- The last slot of a turn leads back to the condition, and the head leads past the turn. -/
theorem forLoop (pos : Position) (init : Option Stmt) (cond : Option Expr) (next : Option Stmt)
    (body : Stmt) (hinit : Keeps (AddsBack k) (Stmt.lowerOption ctx init))
    (hbody : Keeps (AddsBack m) (body.lower ctx))
    (hnext : Keeps (AddsBack n) (Stmt.lowerOption ctx next)) :
    Keeps (AddsBack (k + (m + n + 1))) ((Stmt.forLoop pos init cond next body).lower ctx) := by
  intro d
  refine (hinit d).trans ?_
  rcases headed_or_error ctx (d.after (Stmt.lowerOption ctx init)) cond with
    ⟨d₁, d₂, operation, h⟩ | ⟨e, fault, rfl, hfault⟩
  · obtain ⟨bs, hbs, hbcount⟩ := hbody d₂
    obtain ⟨ns, hns, hncount⟩ := hnext (d₂.after (body.lower ctx))
    obtain ⟨head, hhead⟩ : ∃ head, head = d₁.board.slots.length := ⟨_, rfl⟩
    obtain ⟨condition, hcondition⟩ : ∃ condition,
      condition = (d.after (Stmt.lowerOption ctx init)).board.slots.length := ⟨_, rfl⟩
    obtain ⟨join, hjoin⟩ : ∃ join,
      join = head + 1 + (loopBack condition (head + 1) (bs ++ ns)).length := ⟨_, rfl⟩
    have hturn := countP_loopBack_le condition (head + 1) (bs ++ ns)
    rw [List.countP_append] at hturn
    have hfork : (headSlot operation head join).leadsBack = false :=
      Slot.not_leadsBack_head (by omega)
    have hexit : (Slot.single join (.jump ((join + 1 : Nat) : Int))).leadsBack = false :=
      Slot.not_leadsBack_of_lt (Nat.lt_succ_self join) .jump
    refine h.addsBack_condition.behind ?_
    subst hcondition
    rw [Stmt.after_forLoop pos rfl h rfl rfl hbs hns hhead hjoin]
    refine ⟨_, rfl, ?_⟩
    simp only [List.countP_cons, List.countP_append, List.countP_nil, hfork, hexit,
      Bool.false_eq_true, if_false]
    omega
  · rw [Stmt.after_forLoop_of_error rfl hfault]
    exact (e.lower_addsBack ctx _).weaken

end Draft.AddsBack

section Statements

open Draft

variable (ctx : Context)

mutual

/-- A statement adds at most as many slots that lead back as there are loops in it. -/
theorem Stmt.lower_addsBack : ∀ s : Stmt, Keeps (AddsBack s.loops) (s.lower ctx)
  | .block _ items => by
    rw [Stmt.lower]
    exact Stmt.lowerAll_addsBack items
  | .decl x => by
    rw [Stmt.lower]
    exact (AddsBack.admitsLeaves ctx).decl x fun e _ => e.lower_addsBack ctx
  | .ret _ value => by
    rw [Stmt.lower]
    exact (AddsBack.admitsLeaves ctx).lowerReturn value fun e _ => e.lower_addsBack ctx
  | .ifThen pos cond thenBranch elseBranch =>
    AddsBack.ifThen pos cond thenBranch elseBranch thenBranch.lower_addsBack
      (Stmt.lowerOption_addsBack elseBranch)
  | .forLoop pos init cond next body =>
    AddsBack.forLoop pos init cond next body (Stmt.lowerOption_addsBack init)
      body.lower_addsBack (Stmt.lowerOption_addsBack next)
  | .switch _ subject body => by
    rw [Stmt.lower]
    exact AddsBack.withValue subject fun _ => body.lower_addsBack
  | .caseOf _ label stmts => by
    rw [Stmt.lower]
    have hlabel : Keeps (AddsBack 0) (withValue ctx label fun _ => pure ()) :=
      AddsBack.withValue label fun _ => AddsBack.composes.refl
    exact fun d => (hlabel d).behind (Stmt.lowerAll_addsBack stmts _)
  | .otherwise _ stmts => by
    rw [Stmt.lower]
    exact Stmt.lowerAll_addsBack stmts
  | .leave pos => by
    rw [Stmt.lower]
    exact fun d => .of_slots_eq rfl
  | .empty _ => by
    rw [Stmt.lower]
    exact (AddsBack.admitsLeaves ctx).placeholder
  | .expr _ x => by
    rw [Stmt.lower]
    exact AddsBack.withValue x fun _ => AddsBack.composes.refl
  | .unknown pos kind => by
    rw [Stmt.lower]
    exact fun d => .of_slots_eq rfl
termination_by structural s => s

theorem Stmt.lowerAll_addsBack : ∀ ss : List Stmt,
    Keeps (AddsBack (Stmt.loopsAll ss)) (Stmt.lowerAll ctx ss)
  | [] => by
    rw [Stmt.lowerAll]
    exact AddsBack.composes.refl
  | s :: ss => by
    rw [Stmt.lowerAll]
    intro d
    exact (s.lower_addsBack d).trans (Stmt.lowerAll_addsBack ss _)
termination_by structural ss => ss

theorem Stmt.lowerOption_addsBack : ∀ s : Option Stmt,
    Keeps (AddsBack (Stmt.loopsOption s)) (Stmt.lowerOption ctx s)
  | none => by
    rw [Stmt.lowerOption]
    exact AddsBack.composes.refl
  | some s => by
    rw [Stmt.lowerOption]
    exact s.lower_addsBack
termination_by structural s => s

end

end Statements

theorem Item.Flows.next_ne_nil {a e k i : Nat} {item : Item} (h : item.Flows a e k i) :
    item.next ≠ [] := by
  cases h with
  | ret | fork | inner | last => exact List.cons_ne_nil _ _

theorem Lies.successors_ne_nil {a e k i : Nat} {slots : List Slot} (h : Lies a e k i slots) :
    ∀ slot ∈ slots, slot.successors ≠ [] := by
  induction slots generalizing i with
  | nil => simp
  | cons slot slots ih =>
    obtain ⟨⟨item, rfl, hitem⟩, hslots⟩ := h
    refine List.forall_mem_cons.mpr ⟨?_, ih hslots⟩
    rw [Slot.successors_single]
    exact hitem.next_ne_nil

namespace Lowering

/-- The markers and the final jump lead on or to 0, so only the body counts. -/
theorem finished_leadsBack (l : Lowering) (f : FuncDef) :
    (l.finished f).board.slots.countP Slot.leadsBack ≤ Stmt.loopsAll f.body := by
  obtain ⟨code, hcode, hcount⟩ := Stmt.lowerAll_addsBack (l.context f) f.body
    (f.opened (l.context f) l.module.name (l.blank f))
  have hexit : (Slot.single 0 ⟨.exit, [1]⟩).leadsBack = false := rfl
  have hentry : (Slot.single 1 ⟨.entry, [2]⟩).leadsBack = false := rfl
  have hjump : (Slot.single (2 + code.length) (.jump 0)).leadsBack = false :=
    Slot.not_leadsBack_single fun n hn => Or.inl (List.mem_singleton.mp hn)
  rw [finished, f.lower_slots (l.context f) l.module.name (l.blank f) rfl hcode]
  simpa only [List.countP_cons, List.countP_append, List.countP_nil, hexit, hentry, hjump,
    Bool.false_eq_true, if_false, Nat.add_zero] using hcount

/-- Control can leave every slot of a finished board. -/
theorem finished_successors (l : Lowering) (f : FuncDef) :
    ∀ slot ∈ (l.finished f).board.slots, slot.successors ≠ [] := by
  obtain ⟨code, hregion, hslots⟩ := f.lower_region (l.context f) l.module.name (l.blank f) rfl
  rw [finished, hslots]
  simp only [List.forall_mem_cons, List.forall_mem_append, List.not_mem_nil, Slot.successors_single]
  exact ⟨by simp, by simp, Lies.successors_ne_nil hregion, by simp [Item.jump]⟩

end Lowering

namespace Board

variable {board : Board}

/-- Without slots that lead back a step that does not go to 0 goes up. -/
theorem LeadsTo.lt (hforward : ∀ slot ∈ board.slots, slot.leadsBack = false) {x y : Int}
    (hstep : board.LeadsTo x y) (hy : 0 < y) : x < y := by
  obtain ⟨slot, hslot, rfl, hmem⟩ := hstep
  have hback := List.any_eq_false.mp (hforward slot hslot) y hmem
  simp only [Bool.and_eq_true, decide_eq_true_eq] at hback
  omega

/-- So a walk that does not come to 0 is at least as high up as it is long. -/
theorem length_lt_of_walk (hvalid : board.violations = [])
    (hforward : ∀ slot ∈ board.slots, slot.leadsBack = false) {x : Int} {xs : List Int}
    (hx : board.Has x) (hwalk : (x :: xs).IsChain board.LeadsTo) (hzero : 0 ∉ xs) :
    x + xs.length < board.slots.length := by
  have hrange : ∀ y, board.Has y ↔ 0 ≤ y ∧ y < (board.slots.length : Int) :=
    fun _ => has_iff (address_of_valid hvalid)
  have hformed : board.WellFormed := wellFormed_of_valid hvalid
  induction xs generalizing x with
  | nil => simpa using ((hrange x).mp hx).2
  | cons y ys ih =>
    obtain ⟨hstep, hrest⟩ := List.isChain_cons_cons.mp hwalk
    have hy : board.Has y := hformed.stays hx hwalk y (by simp)
    have hnonneg : 0 ≤ y := ((hrange y).mp hy).1
    have hne : y ≠ 0 := fun h => hzero (h ▸ List.mem_cons_self)
    have hup : x < y := hstep.lt hforward (by omega)
    have hlength := ih hy hrest (fun h => hzero (List.mem_cons_of_mem y h))
    rw [List.length_cons]
    omega

/-- Where every slot has a successor a walk can always be continued. -/
theorem WellFormed.exists_longer (h : board.WellFormed)
    (hleave : ∀ slot ∈ board.slots, slot.successors ≠ []) {x : Int} {xs : List Int}
    (hx : board.Has x) (hwalk : (x :: xs).IsChain board.LeadsTo) :
    ∃ y, (x :: (xs ++ [y])).IsChain board.LeadsTo := by
  obtain ⟨slot, hslot, haddress⟩ := h.stays hx hwalk _ (List.getLast_mem (List.cons_ne_nil x xs))
  obtain ⟨y, hy⟩ := List.exists_mem_of_ne_nil _ (hleave slot hslot)
  refine ⟨y, List.isChain_append.mpr ⟨hwalk, .singleton y, ?_⟩⟩
  intro last hlast next hnext
  rw [List.getLast?_eq_some_getLast (List.cons_ne_nil x xs), Option.mem_some_iff] at hlast
  rw [List.head?_cons, Option.mem_some_iff] at hnext
  subst hlast hnext
  exact ⟨slot, hslot, haddress, hy⟩

end Board

/-- At most as many slots of a function's board lead back, to an address that is neither 0 nor behind
them, as there are loops in its body, whatever was reported. A walk from the entry can always be
continued, and if there are no loops, it has come to address 0 when it has taken as many steps as the
board has slots. -/
theorem cycles_come_from_loops (l : Lowering) (f : FuncDef)
    (hnew : l.module.board? f.name = none) :
    ∃ board, (l.function f).module.boards = l.module.boards ++ [board] ∧
      board.slots.countP Slot.leadsBack ≤ Stmt.loopsAll f.body ∧
      ∀ xs : List Int, (1 :: xs).IsChain board.LeadsTo →
        (∃ y, (1 :: (xs ++ [y])).IsChain board.LeadsTo) ∧
        (Stmt.loopsAll f.body = 0 → board.slots.length ≤ xs.length →
          0 ∈ xs.take board.slots.length) := by
  have hvalid := l.finished_violations f
  have hcount := l.finished_leadsBack f
  have hleave := l.finished_successors f
  refine ⟨(l.finished f).board, by rw [Lowering.function_of_new l f hnew], hcount, ?_⟩
  generalize (l.finished f).board = board at hvalid hcount hleave
  have hformed : board.WellFormed := Board.wellFormed_of_valid hvalid
  have hsize := hformed.size
  have hentry : board.Has 1 := (Board.has_iff (Board.address_of_valid hvalid)).mpr (by omega)
  intro xs hwalk
  refine ⟨hformed.exists_longer hleave hentry hwalk, fun hloops hlong => ?_⟩
  have hforward : ∀ slot ∈ board.slots, slot.leadsBack = false := by
    rw [hloops, Nat.le_zero, List.countP_eq_zero] at hcount
    simpa using hcount
  by_contra hzero
  have hshort : (1 :: xs.take board.slots.length).IsChain board.LeadsTo :=
    hwalk.take (board.slots.length + 1)
  have hlength := Board.length_lt_of_walk hvalid hforward hentry hshort hzero
  rw [List.length_take] at hlength
  omega

/-- `void f(int n) { for (; n; n--) { for (;;) ; if (n) return; } }` -/
def nestingFunction : FuncDef where
  pos := {}
  name := "f"
  returnType := ["void"]
  storage := []
  params := [⟨{}, "n", ["int"], [], [], none⟩]
  bodyPos := {}
  body := [.forLoop {} none (some (.ident {} "n")) (some (.expr {} (.unary {} "p--" (.ident {} "n"))))
    (.block {} [
      .forLoop {} none none none (.empty {}),
      .ifThen {} (.ident {} "n") (.ret {} none) none])]

/-- Two loops send two slots back. Where there are no loops a walk ends. -/
theorem nestingFunction_leads_back_twice :
    (∃ board, ((Lowering.start "m" []).function nestingFunction).module.boards = [board] ∧
      board.slots.countP Slot.leadsBack = 2 ∧ 2 ≤ Stmt.loopsAll nestingFunction.body) ∧
    ∃ board, ((Lowering.start "m" []).function emptyThenFunction).module.boards = [board] ∧
      ∀ xs : List Int, (1 :: xs).IsChain board.LeadsTo → board.slots.length ≤ xs.length →
        0 ∈ xs.take board.slots.length := by
  obtain ⟨nested, hnested, hcount, -⟩ :=
    cycles_come_from_loops (.start "m" []) nestingFunction rfl
  obtain ⟨plain, hplain, -, hwalks⟩ := cycles_come_from_loops (.start "m" []) emptyThenFunction rfl
  have htwice : ∀ board ∈ ((Lowering.start "m" []).function nestingFunction).module.boards,
      board.slots.countP Slot.leadsBack = 2 := by
    decide +kernel
  have hback : nested.slots.countP Slot.leadsBack = 2 := by
    apply htwice
    rw [hnested]
    exact List.mem_cons_self
  refine ⟨⟨nested, hnested, hback, hback ▸ hcount⟩, plain, hplain, fun xs hwalk hlong => ?_⟩
  exact (hwalks xs hwalk).2 rfl hlong

end SlotBoard
