import SlotBoard.Proofs.Draft

/-!
The slots that an `if` and a `for` leave behind. Both write their code straight through and fill in
jumps afterwards; here the code they end with is stated as the pieces that were appended, each with
its last slot closed, so that no later proof has to follow a patch.
-/
namespace SlotBoard

namespace Slot

def single (address : Nat) (item : Item) : Slot := ⟨.index address, [item]⟩

def close (target : Nat) (slot : Slot) : Slot :=
  if slot.isOpen then slot.retarget target else slot

theorem push_straight (address : Nat) (operation : Operation) (h : operation.branches = false) :
    push { address := .index address } ⟨operation, []⟩ =
      single address ⟨operation, [((address + 1 : Nat) : Int)]⟩ := by
  simp [push, single, Item.branches, h, Address.following]

theorem push_branching (address : Nat) (item : Item) (h : item.branches = true) :
    push { address := .index address } item = single address item := by
  simp [push, single, h]

end Slot

def closeLast (target : Nat) (slots : List Slot) : List Slot :=
  slots.modify (slots.length - 1) (Slot.close target)

def lastOf (start : Nat) : List Slot → Option Nat
  | [] => none
  | _ :: slots => some (start + slots.length)

/-- The code between the head and the join of a loop: the body and the update with the last slot
sent back to the condition, or a jump to the condition if they have no slots. -/
def loopBack (condition start : Nat) : List Slot → List Slot
  | [] => [Slot.single start (.jump condition)]
  | slots => closeLast condition slots

private theorem modify_append_left (f : Slot → Slot) (xs ys : List Slot) (i : Nat)
    (hi : i < xs.length) : (xs ++ ys).modify i f = xs.modify i f ++ ys := by
  induction xs generalizing i with
  | nil => simp at hi
  | cons x xs ih =>
    cases i with
    | zero => rfl
    | succ i =>
      simp only [List.cons_append, List.modify_succ_cons]
      rw [ih i (by simpa using hi)]

private theorem modify_append_right (f : Slot → Slot) (xs ys : List Slot) (i : Nat) :
    (xs ++ ys).modify (xs.length + i) f = xs ++ ys.modify i f :=
  List.modifyTailIdx_add _ _ _ _

theorem length_closeLast (target : Nat) (xs : List Slot) :
    (closeLast target xs).length = xs.length :=
  List.length_modify ..

theorem closeLast_append (target : Nat) (xs ys : List Slot) (hys : ys ≠ []) :
    closeLast target (xs ++ ys) = xs ++ closeLast target ys := by
  have hpos : 0 < ys.length := List.length_pos_iff.mpr hys
  have hlast : (xs ++ ys).length - 1 = xs.length + (ys.length - 1) := by
    simp only [List.length_append]
    omega
  rw [closeLast, hlast, modify_append_right]
  rfl

theorem closeLast_concat (target : Nat) (xs : List Slot) (slot : Slot) :
    closeLast target (xs ++ [slot]) = xs ++ [slot.close target] :=
  closeLast_append target xs [slot] (by simp)

namespace Draft

theorem withSlots_self (d : Draft) : d.withSlots d.board.slots = d := rfl

@[simp] theorem slots_withSlots (d : Draft) (slots : List Slot) :
    (d.withSlots slots).board.slots = slots := rfl

@[simp] theorem withSlots_withSlots (d : Draft) (xs ys : List Slot) :
    (d.withSlots xs).withSlots ys = d.withSlots ys := rfl

theorem after_emit (d : Draft) (item : Item) :
    d.after (emit item) = d.withSlots
      (d.board.slots ++ [Slot.push { address := .index d.board.slots.length } item]) := rfl

theorem after_placeholder (d : Draft) :
    d.after placeholder = d.withSlots
      (d.board.slots ++ [Slot.single d.board.slots.length
        (.jump ((d.board.slots.length + 1 : Nat) : Int))]) := rfl

theorem after_setNext {d : Draft} {pre post : List Slot} {operation : Operation} {position : Nat}
    (hposition : position = pre.length)
    (h : d.board.slots = pre ++ Slot.single position ⟨operation, []⟩ :: post) (next : List Int) :
    d.after (setNext position next) =
      d.withSlots (pre ++ Slot.single position ⟨operation, next⟩ :: post) := by
  subst hposition
  change d.withSlots (d.board.slots.modify (pre.length + 0) _) = _
  rw [h, modify_append_right]
  rfl

theorem after_closeAt {d : Draft} (pre xs post : List Slot) {start : Nat}
    (hstart : start = pre.length) (h : d.board.slots = pre ++ (xs ++ post)) (target : Nat) :
    d.after (closeAt (lastOf start xs) target) =
      d.withSlots (pre ++ (closeLast target xs ++ post)) := by
  subst hstart
  cases xs with
  | nil =>
    change d = d.withSlots (pre ++ ([] ++ post))
    rw [← h, withSlots_self]
  | cons x xs =>
    change d.withSlots (d.board.slots.modify (pre.length + xs.length) (Slot.close target)) = _
    rw [h, modify_append_right, modify_append_left _ _ _ _ (by simp)]
    rfl

theorem after_lastAppended (d : Draft) (step : Emit Unit) :
    d.after (lastAppended step) = d.after step := rfl

theorem answer_lastAppended (d : Draft) (step : Emit Unit) (xs : List Slot)
    (h : (d.after step).board.slots = d.board.slots ++ xs) :
    d.answer (lastAppended step) = lastOf d.board.slots.length xs := by
  change (if d.board.slots.length < (d.after step).board.slots.length then
    some ((d.after step).board.slots.length - 1) else none) = _
  rw [h]
  cases xs with
  | nil => simp [lastOf]
  | cons x xs => simp [lastOf]

theorem after_closeLoop {d : Draft} {pre xs : List Slot} {start : Nat}
    (hstart : start = pre.length) (h : d.board.slots = pre ++ xs) (condition : Nat) :
    d.after (closeLoop (lastOf start xs) condition) =
      d.withSlots (pre ++ loopBack condition start xs) := by
  subst hstart
  cases xs with
  | nil =>
    change d.withSlots (d.board.slots ++ [Slot.single d.board.slots.length _]) = _
    rw [h, List.append_nil]
    rfl
  | cons x xs =>
    have hclose := after_closeAt (d := d) pre (x :: xs) [] rfl (by simpa using h) condition
    simpa [loopBack, closeLoop, lastOf] using hclose

end Draft

theorem lastOf_append (start : Nat) (xs ys : List Slot) :
    (lastOf (start + xs.length) ys).or (lastOf start xs) = lastOf start (xs ++ ys) := by
  cases ys with
  | nil => simp [lastOf]
  | cons y ys =>
    cases xs with
    | nil => simp [lastOf]
    | cons x xs =>
      simp only [lastOf, Option.some_or, List.cons_append, List.length_append, List.length_cons,
        Option.some.injEq]
      omega

/-- The head of an `if` or a loop has been written: `d₁` is the draft before its slot, `d₂` the one
with it, and the slot holds the operation. Without a condition the head is a jump into the body. -/
inductive Headed (ctx : Context) (d : Draft) : Option Expr → Draft → Draft → Operation → Prop
  | always : Headed ctx d none d (d.after Draft.placeholder) .jump
  | cond {e : Expr} {v : Value} {d₁ : Draft} (hv : d.answer (e.lower ctx).run = .ok v)
      (h₁ : d.after (e.lower ctx).run = d₁) :
      Headed ctx d (some e) d₁ (d₁.after (Draft.emit (.jumpIfTrue v))) (.jumpIfTrue v)

def headSlot (operation : Operation) (head join : Nat) : Slot :=
  match operation with
  | .jumpIfTrue _ => Slot.single head ⟨operation, [((head + 1 : Nat) : Int), (join : Int)]⟩
  | _ => Slot.single head ⟨operation, [((head + 1 : Nat) : Int)]⟩

namespace Headed

variable {ctx : Context} {d d₁ d₂ : Draft} {cond : Option Expr} {operation : Operation}

theorem length_slots (h : Headed ctx d cond d₁ d₂ operation) :
    d₂.board.slots.length = d₁.board.slots.length + 1 := by
  cases h with
  | always => simp [Draft.after_placeholder]
  | cond hv h₁ => simp [Draft.after_emit]

theorem after_withHead (h : Headed ctx d cond d₁ d₂ operation) (rest : Nat → Emit Unit) :
    d.after (withHead ctx cond rest) = d₂.after (rest d₁.board.slots.length) := by
  cases h with
  | always => rfl
  | cond hv h₁ =>
    simp only [withHead, withValue, Draft.after_bind, hv, h₁]
    rfl

/-- Filling in the join completes the head's slot and changes nothing else. -/
theorem after_patch (h : Headed ctx d cond d₁ d₂ operation) {e : Draft} {post : List Slot}
    (he : e.board.slots = d₂.board.slots ++ post) {head : Nat} (hhead : head = d₁.board.slots.length)
    (join : Nat) :
    e.after (if cond.isSome then Draft.setNext head [((head + 1 : Nat) : Int), (join : Int)]
        else pure ()) =
      e.withSlots (d₁.board.slots ++ headSlot operation head join :: post) := by
  cases h with
  | always =>
    have hslots : e.board.slots = d.board.slots ++ headSlot .jump head join :: post := by
      rw [he, Draft.after_placeholder, hhead, Draft.slots_withSlots, List.append_assoc]
      rfl
    rw [← hslots]
    rfl
  | cond hv h₁ =>
    refine Draft.after_setNext hhead ?_ _
    rw [he, hhead, Draft.after_emit, Draft.slots_withSlots, List.append_assoc]
    rfl

end Headed

/-- A head is written unless its condition cannot be lowered. -/
theorem headed_or_error (ctx : Context) (d : Draft) (cond : Option Expr) :
    (∃ d₁ d₂ operation, Headed ctx d cond d₁ d₂ operation) ∨
      ∃ e fault, cond = some e ∧ d.answer (e.lower ctx).run = .error fault := by
  cases cond with
  | none => exact Or.inl ⟨_, _, _, .always⟩
  | some e =>
    cases hv : d.answer (e.lower ctx).run with
    | ok v => exact Or.inl ⟨_, _, _, .cond hv rfl⟩
    | error fault => exact Or.inr ⟨e, fault, rfl, hv⟩

/-- Nothing more is done with an expression that is given up. -/
theorem after_withValue_of_error {ctx : Context} {e : Expr} {d : Draft} {fault : Diagnostic}
    (h : d.answer (e.lower ctx).run = .error fault) (step : Value → Emit Unit) :
    d.after (withValue ctx e step) = d.after (e.lower ctx).run := by
  rw [withValue, Draft.after_bind, h]
  rfl

theorem Stmt.after_ifThen_of_error {ctx : Context} {cond : Expr} {d : Draft} {fault : Diagnostic}
    (h : d.answer (cond.lower ctx).run = .error fault) (pos : Position) (thenBranch : Stmt)
    (elseBranch : Option Stmt) :
    d.after ((Stmt.ifThen pos cond thenBranch elseBranch).lower ctx) =
      d.after (cond.lower ctx).run := by
  rw [Stmt.lower]
  exact after_withValue_of_error h _

theorem Stmt.after_forLoop_of_error {ctx : Context} {cond : Expr} {d d₀ : Draft}
    {init : Option Stmt} {fault : Diagnostic} (h₀ : d.after (Stmt.lowerOption ctx init) = d₀)
    (h : d₀.answer (cond.lower ctx).run = .error fault) (pos : Position) (next : Option Stmt)
    (body : Stmt) :
    d.after ((Stmt.forLoop pos init (some cond) next body).lower ctx) =
      d₀.after (cond.lower ctx).run := by
  rw [Stmt.lower]
  simp only [Draft.after_bind, h₀, Draft.after_size, withHead, withValue, h]
  rfl

/-- An `if` whose condition was lowered: the conditional jump leads to the first slots of the two
branches, and each branch is closed at the join. -/
theorem Stmt.after_ifThen {ctx : Context} (pos : Position) {cond : Expr} {thenBranch : Stmt}
    {elseBranch : Option Stmt} {d d₁ d₂ d₃ d₄ : Draft} {operation : Operation} {ts es : List Slot}
    (h : Headed ctx d (some cond) d₁ d₂ operation) (h₃ : d₂.after (thenBranch.lower ctx) = d₃)
    (h₄ : d₃.after (Stmt.lowerOption ctx elseBranch) = d₄)
    (ht : d₃.board.slots = d₂.board.slots ++ ts) (he : d₄.board.slots = d₃.board.slots ++ es)
    {head join : Nat} (hhead : head = d₁.board.slots.length)
    (hjoin : join = head + 1 + ts.length + es.length) :
    d.after ((Stmt.ifThen pos cond thenBranch elseBranch).lower ctx) =
      d₄.withSlots (d₁.board.slots ++ headSlot operation head (head + 1 + ts.length) ::
        (closeLast join ts ++ (closeLast join es ++
          [Slot.single join (.jump ((join + 1 : Nat) : Int))]))) := by
  have hstart : d₂.board.slots.length = head + 1 := by rw [h.length_slots, hhead]
  have hthen : d₂.answer (Draft.lastAppended (thenBranch.lower ctx)) = lastOf (head + 1) ts := by
    rw [Draft.answer_lastAppended d₂ _ ts (by rw [h₃, ht]), hstart]
  have helseStart : d₃.board.slots.length = head + 1 + ts.length := by
    rw [ht, List.length_append, hstart]
  have helse : d₃.answer (Draft.lastAppended (Stmt.lowerOption ctx elseBranch)) =
      lastOf (head + 1 + ts.length) es := by
    rw [Draft.answer_lastAppended d₃ _ es (by rw [h₄, he]), helseStart]
  have hslots : d₄.board.slots = d₂.board.slots ++ (ts ++ es) := by
    rw [he, ht, List.append_assoc]
  have hpatch := h.after_patch hslots hhead (head + 1 + ts.length)
  simp only [Option.isSome_some, if_true] at hpatch
  have hsize : (d₁.board.slots ++
      headSlot operation head (head + 1 + ts.length) :: (ts ++ es)).length = join := by
    simp only [List.length_append, List.length_cons]
    omega
  have hcast : (head : Int) + 1 = ((head + 1 : Nat) : Int) := rfl
  cases h with
  | cond hv h₁ =>
    rw [Stmt.lower]
    simp only [withValue, Draft.after_bind, hv, h₁, Draft.after_size, Draft.answer_size,
      Draft.after_lastAppended, ← hhead, hthen, h₃, helse, h₄, helseStart, hcast]
    generalize headSlot _ head _ = jump at hpatch hsize ⊢
    simp only [hpatch, Draft.after_placeholder, Draft.slots_withSlots, Draft.withSlots_withSlots,
      hsize]
    generalize Slot.single join _ = exit
    rw [Draft.after_closeAt (d₁.board.slots ++ [jump]) ts (es ++ [exit]) (by simp [hhead])
      (by simp)]
    rw [Draft.after_closeAt (d₁.board.slots ++ jump :: closeLast join ts) es [exit]
      (by simp [hhead, length_closeLast]; omega) (by simp)]
    simp

/-- A loop whose head was written: the body and the update lead back to the condition, and the
head leads to the slot after it and to the join. -/
theorem Stmt.after_forLoop {ctx : Context} (pos : Position) {init next : Option Stmt}
    {cond : Option Expr} {body : Stmt} {d d₀ d₁ d₂ d₃ d₄ : Draft} {operation : Operation}
    {bs ns : List Slot} (h₀ : d.after (Stmt.lowerOption ctx init) = d₀)
    (h : Headed ctx d₀ cond d₁ d₂ operation) (h₃ : d₂.after (body.lower ctx) = d₃)
    (h₄ : d₃.after (Stmt.lowerOption ctx next) = d₄)
    (hb : d₃.board.slots = d₂.board.slots ++ bs) (hn : d₄.board.slots = d₃.board.slots ++ ns)
    {head join : Nat} (hhead : head = d₁.board.slots.length)
    (hjoin : join = head + 1 + (loopBack d₀.board.slots.length (head + 1) (bs ++ ns)).length) :
    d.after ((Stmt.forLoop pos init cond next body).lower ctx) =
      d₄.withSlots (d₁.board.slots ++ headSlot operation head join ::
        (loopBack d₀.board.slots.length (head + 1) (bs ++ ns) ++
          [Slot.single join (.jump ((join + 1 : Nat) : Int))])) := by
  have hstart : d₂.board.slots.length = head + 1 := by rw [h.length_slots, hhead]
  have hbody : d₂.answer (Draft.lastAppended (body.lower ctx)) = lastOf (head + 1) bs := by
    rw [Draft.answer_lastAppended d₂ _ bs (by rw [h₃, hb]), hstart]
  have hnext : d₃.answer (Draft.lastAppended (Stmt.lowerOption ctx next)) =
      lastOf (head + 1 + bs.length) ns := by
    rw [Draft.answer_lastAppended d₃ _ ns (by rw [h₄, hn]), hb, List.length_append, hstart]
  have hslots : d₄.board.slots = d₂.board.slots ++ (bs ++ ns) := by
    rw [hn, hb, List.append_assoc]
  rw [Stmt.lower]
  simp only [Draft.after_bind, h₀, Draft.after_size, Draft.answer_size]
  rw [h.after_withHead]
  simp only [Draft.after_bind, Draft.after_size, Draft.answer_size, Draft.after_lastAppended,
    hbody, h₃, hnext, h₄, ← hhead, lastOf_append]
  rw [Draft.after_closeLoop hstart.symm hslots, Draft.after_placeholder]
  have hsize : (d₂.board.slots ++
      loopBack d₀.board.slots.length (head + 1) (bs ++ ns)).length = join := by
    rw [List.length_append, hstart, hjoin]
  simp only [Draft.slots_withSlots, Draft.withSlots_withSlots, hsize]
  exact h.after_patch (by simp) hhead join

end SlotBoard
