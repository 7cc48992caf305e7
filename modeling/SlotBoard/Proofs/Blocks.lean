import SlotBoard.Proofs.Branches
import SlotBoard.Proofs.Operands

/-!
Code that falls into blocks. Control enters a block only at its first operation: every jump leads to a
boundary between blocks, or to address 0. Lowering a statement adds blocks behind those written before,
whether or not it is reported; patching a jump moves a successor from one boundary to another and
leaves the operations alone.
-/
namespace SlotBoard

namespace Slot

theorem operations_close (k : Nat) (slot : Slot) : (slot.close k).operations = slot.operations := by
  unfold close
  split
  · simp [operations, retarget]
  · rfl

theorem successors_close {k : Nat} {slot : Slot} {n : Int} (h : n ∈ (slot.close k).successors) :
    n ∈ slot.successors ∨ n = k := by
  unfold close at h
  split at h
  · obtain ⟨item, hitem, hn⟩ := List.mem_flatMap.mp h
    obtain ⟨item, -, rfl⟩ := List.mem_map.mp hitem
    exact Or.inr (List.mem_singleton.mp hn)
  · exact Or.inl h

end Slot

/-- An address where one of some blocks starts, if they lie from `a` on, or where they end. -/
def Boundary (a : Nat) (blocks : List (List Operation)) (n : Nat) : Prop :=
  ∃ front back, blocks = front ++ back ∧ n = a + front.flatten.length

theorem Boundary.inside {a b n : Nat} {blocks : List (List Operation)} (h : Boundary b blocks n)
    (front back : List (List Operation)) (hb : b = a + front.flatten.length) :
    Boundary a (front ++ (blocks ++ back)) n := by
  obtain ⟨xs, ys, rfl, rfl⟩ := h
  refine ⟨front ++ xs, ys ++ back, by simp, ?_⟩
  rw [hb, List.flatten_append, List.length_append, Nat.add_assoc]

/-- From each of some slots that lie from address `a` on, control goes to the next one or to a
target. -/
def Jumps (target : Nat → Prop) (a : Nat) (slots : List Slot) : Prop :=
  ∀ i slot, slots[i]? = some slot → ∀ n ∈ slot.successors,
    n = ((a + i + 1 : Nat) : Int) ∨ ∃ m : Nat, n = m ∧ target m

namespace Jumps

variable {target target' : Nat → Prop} {a b : Nat} {xs ys : List Slot}

theorem nil (target : Nat → Prop) (a : Nat) : Jumps target a [] := by
  intro i slot h
  simp at h

theorem mono (h : Jumps target a xs) (htarget : ∀ n, target n → target' n) : Jumps target' a xs := by
  intro i slot hslot n hn
  rcases h i slot hslot n hn with hnext | ⟨m, hm, hjump⟩
  · exact Or.inl hnext
  · exact Or.inr ⟨m, hm, htarget m hjump⟩

theorem cons {slot : Slot}
    (hslot : ∀ n ∈ slot.successors, n = ((a + 1 : Nat) : Int) ∨ ∃ m : Nat, n = m ∧ target m)
    (h : Jumps target (a + 1) xs) : Jumps target a (slot :: xs) := by
  intro i x hx n hn
  cases i with
  | zero =>
    obtain rfl := Option.some.inj hx
    exact hslot n hn
  | succ i =>
    have hindex : a + 1 + i + 1 = a + (i + 1) + 1 := by omega
    rw [← hindex]
    exact h i x hx n hn

theorem append (hx : Jumps target a xs) (hy : Jumps target b ys) (hb : b = a + xs.length) :
    Jumps target a (xs ++ ys) := by
  intro i slot hslot n hn
  by_cases hi : i < xs.length
  · rw [List.getElem?_append_left hi] at hslot
    exact hx i slot hslot n hn
  · rw [List.getElem?_append_right (by omega)] at hslot
    have hindex : b + (i - xs.length) + 1 = a + i + 1 := by omega
    rw [← hindex]
    exact hy _ slot hslot n hn

/-- The last slot may be closed at a target. -/
theorem closeLast (h : Jumps target a xs) {k : Nat} (hk : target k) :
    Jumps target a (closeLast k xs) := by
  intro i slot hslot n hn
  rw [SlotBoard.closeLast, List.getElem?_modify] at hslot
  obtain ⟨old, hold, rfl⟩ := Option.map_eq_some_iff.mp hslot
  split at hn
  · rcases Slot.successors_close hn with hn | hn
    · exact h i old hold n hn
    · exact Or.inr ⟨k, hn, hk⟩
  · exact h i old hold n hn

/-- Straight-line code only goes on. -/
theorem place (target : Nat → Prop) (a : Nat) (operations : List Operation) :
    Jumps target a (place a (a + operations.length) operations) := by
  induction operations generalizing a with
  | nil => exact nil target a
  | cons x xs ih =>
    have hlength : a + (x :: xs).length = a + 1 + xs.length := by
      rw [List.length_cons]
      omega
    rw [hlength, place_cons, follow_end]
    exact cons (fun n hn => Or.inl (List.mem_singleton.mp hn)) (ih (a + 1))

end Jumps

theorem operations_place (a k : Nat) (operations : List Operation) :
    (place a k operations).map Slot.operations = operations.map ([·]) := by
  induction operations generalizing a with
  | nil => rfl
  | cons x xs ih =>
    rw [place_cons, List.map_cons, List.map_cons, ih]
    rfl

theorem operations_closeLast (k : Nat) (slots : List Slot) :
    (closeLast k slots).map Slot.operations = slots.map Slot.operations := by
  rcases List.eq_nil_or_concat slots with rfl | ⟨front, last, rfl⟩
  · rfl
  · rw [List.concat_eq_append, closeLast_concat, List.map_append, List.map_append, List.map_singleton,
      List.map_singleton, Slot.operations_close]

/-- Slots from address `a` on that hold the operations of some blocks, one each. -/
structure Blocks (known : Value → Prop) (target : Nat → Prop) (a : Nat) (slots : List Slot)
    (blocks : List (List Operation)) : Prop where
  operations : slots.map Slot.operations = blocks.flatten.map ([·])
  sound : ∀ block ∈ blocks, Block known block
  jumps : Jumps target a slots

namespace Blocks

variable {known known' : Value → Prop} {target target' : Nat → Prop} {a b : Nat} {xs ys : List Slot}
  {bs cs : List (List Operation)}

theorem length (h : Blocks known target a xs bs) : xs.length = bs.flatten.length := by
  have hlength := congrArg List.length h.operations
  rwa [List.length_map, List.length_map] at hlength

theorem mono (h : Blocks known target a xs bs) (hknown : ∀ v, known v → known' v)
    (htarget : ∀ n, target n → target' n) : Blocks known' target' a xs bs :=
  ⟨h.operations, fun block hblock => (h.sound block hblock).mono hknown, h.jumps.mono htarget⟩

theorem nil (known : Value → Prop) (target : Nat → Prop) (a : Nat) : Blocks known target a [] [] :=
  ⟨rfl, (fun _ h => nomatch h), .nil target a⟩

theorem append (hx : Blocks known target a xs bs) (hy : Blocks known target b ys cs)
    (hb : b = a + xs.length) : Blocks known target a (xs ++ ys) (bs ++ cs) where
  operations := by
    rw [List.map_append, hx.operations, hy.operations, List.flatten_append, List.map_append]
  sound block hblock := (List.mem_append.mp hblock).elim (hx.sound block) (hy.sound block)
  jumps := hx.jumps.append hy.jumps hb

theorem closeLast (h : Blocks known target a xs bs) {k : Nat} (hk : target k) :
    Blocks known target a (closeLast k xs) bs :=
  ⟨(operations_closeLast k xs).trans h.operations, h.sound, h.jumps.closeLast hk⟩

theorem straight {operations : List Operation} (h : Block known operations) (target : Nat → Prop)
    (a : Nat) : Blocks known target a (place a (a + operations.length) operations) [operations] where
  operations := by
    rw [operations_place, List.flatten_singleton]
  sound := List.forall_mem_singleton.mpr h
  jumps := .place target a operations

/-- A block in straight line and one more operation, which ends the block. -/
theorem ended {operations : List Operation} (h : Block known operations) {item : Item}
    (hfits : item.operation.Fits known operations)
    (hnext : ∀ n ∈ item.next, n = ((b + 1 : Nat) : Int) ∨ ∃ m : Nat, n = m ∧ target m)
    (hb : b = a + operations.length) :
    Blocks known target a (place a (a + operations.length) operations ++ [Slot.single b item])
      [operations ++ [item.operation]] where
  operations := by
    rw [List.map_append, operations_place, List.flatten_singleton, List.map_append]
    rfl
  sound := List.forall_mem_singleton.mpr (h.concat hfits)
  jumps := by
    have hlast : Jumps target b [Slot.single b item] := by
      refine .cons (fun n hn => hnext n ?_) (.nil _ _)
      rwa [Slot.successors_single] at hn
    exact (Jumps.place target a operations).append hlast (by rw [hb, length_place])

/-- A block of one operation. -/
theorem single {item : Item} (hfits : item.operation.Fits known [])
    (hnext : ∀ n ∈ item.next, n = ((a + 1 : Nat) : Int) ∨ ∃ m : Nat, n = m ∧ target m) :
    Blocks known target a [Slot.single a item] [[item.operation]] :=
  ended (.nil known) hfits hnext rfl

theorem jump (known : Value → Prop) {n : Nat} (hn : n = a + 1 ∨ target n) :
    Blocks known target a [Slot.single a (.jump (n : Int))] [[.jump]] := by
  refine single (.idle rfl rfl) fun m hm => ?_
  rw [List.mem_singleton.mp hm]
  rcases hn with rfl | hn
  · exact Or.inl rfl
  · exact Or.inr ⟨n, rfl, hn⟩

/-- The turn of a loop that is sent back to a target. -/
theorem loopBack (h : Blocks known target a xs bs) {condition : Nat} (hk : target condition) :
    Blocks known target a (loopBack condition a xs) (bs ++ if xs.isEmpty then [[.jump]] else []) := by
  cases xs with
  | nil => exact h.append (jump known (Or.inr hk)) rfl
  | cons x xs =>
    rw [List.isEmpty_cons, if_neg Bool.false_ne_true, List.append_nil]
    exact h.closeLast hk

end Blocks

/-- Where a jump may lead in code that falls into blocks: to a boundary, or to address 0. -/
def Target (a : Nat) (blocks : List (List Operation)) (n : Nat) : Prop := n = 0 ∨ Boundary a blocks n

theorem Target.inside {a b n : Nat} {blocks : List (List Operation)} (h : Target b blocks n)
    (front back : List (List Operation)) (hb : b = a + front.flatten.length) :
    Target a (front ++ (blocks ++ back)) n :=
  h.imp_right fun hn => hn.inside front back hb

/-- What an `if` and a loop start with: a condition and a head that leads to the next slot and to a
target. -/
theorem Blocks.headed {known : Value → Prop} {target : Nat → Prop} {a head join : Nat}
    {xs : List Operation} {operation : Operation} (hxs : Block known xs)
    (hfits : operation.Fits known xs) (hhead : head = a + xs.length) (hjoin : target join) :
    Blocks known target a (place a (a + xs.length) xs ++ [headSlot operation head join])
      [xs ++ [operation]] := by
  have hnext : ∀ n ∈ [((head + 1 : Nat) : Int), (join : Int)],
      n = ((head + 1 : Nat) : Int) ∨ ∃ m : Nat, n = m ∧ target m := by
    refine List.forall_mem_cons.mpr ⟨Or.inl rfl, List.forall_mem_singleton.mpr ?_⟩
    exact Or.inr ⟨join, rfl, hjoin⟩
  unfold headSlot
  split
  · exact .ended hxs hfits hnext hhead
  · refine .ended hxs hfits (fun n hn => hnext n ?_) hhead
    exact List.mem_cons.mpr (Or.inl (List.mem_singleton.mp hn))

/-- The blocks of an `if`: the condition with the head, those of the branches, and the join. -/
theorem Blocks.ifThen {known : Value → Prop} {a head join : Nat} {xs : List Operation}
    {operation : Operation} {ts es : List Slot} {tb eb : List (List Operation)} (hxs : Block known xs)
    (hfits : operation.Fits known xs) (hhead : head = a + xs.length)
    (ht : Blocks known (Target (head + 1) tb) (head + 1) ts tb)
    (he : Blocks known (Target (head + 1 + ts.length) eb) (head + 1 + ts.length) es eb)
    (hjoin : join = head + 1 + ts.length + es.length) :
    ∃ blocks, Blocks known (Target a blocks) a
      (place a (a + xs.length) xs ++ headSlot operation head (head + 1 + ts.length) ::
        (SlotBoard.closeLast join ts ++ (SlotBoard.closeLast join es ++
          [Slot.single join (.jump ((join + 1 : Nat) : Int))]))) blocks := by
  have hlength : [xs ++ [operation]].flatten.length = xs.length + 1 := by simp
  have htb := ht.length
  have heb := he.length
  refine ⟨[xs ++ [operation]] ++ (tb ++ (eb ++ [[.jump]])), ?_⟩
  generalize hblocks : [xs ++ [operation]] ++ (tb ++ (eb ++ [[.jump]])) = blocks
  have hjump : Target a blocks (head + 1 + ts.length) := by
    refine Or.inr ⟨[xs ++ [operation]] ++ tb, eb ++ [[.jump]], ?_, ?_⟩
    · rw [← hblocks, List.append_assoc]
    · rw [List.flatten_append, List.length_append, hlength]
      omega
  have hclose : Target a blocks join := by
    refine Or.inr ⟨[xs ++ [operation]] ++ (tb ++ eb), [[.jump]], ?_, ?_⟩
    · rw [← hblocks, List.append_assoc, List.append_assoc]
    · rw [List.flatten_append, List.flatten_append, List.length_append, List.length_append, hlength]
      omega
  have hthen : ∀ n, Target (head + 1) tb n → Target a blocks n := by
    intro n hn
    rw [← hblocks]
    exact hn.inside _ _ (by rw [hlength]; omega)
  have helse : ∀ n, Target (head + 1 + ts.length) eb n → Target a blocks n := by
    intro n hn
    rw [← hblocks, ← List.append_assoc]
    refine hn.inside _ _ ?_
    rw [List.flatten_append, List.length_append, hlength]
    omega
  have hbranches := (((ht.mono (fun _ h => h) hthen).closeLast hclose).append
    (((he.mono (fun _ h => h) helse).closeLast hclose).append (.jump known (Or.inl rfl))
      (b := join) (by rw [length_closeLast, hjoin])) (by rw [length_closeLast]))
  have hall := (Blocks.headed hxs hfits hhead hjump).append hbranches
    (by rw [List.length_append, length_place, hhead]; rfl)
  rw [hblocks, List.append_assoc] at hall
  exact hall

/-- The blocks of a loop: the condition with the head, those of the turn, which is sent back to the
condition, and the join. -/
theorem Blocks.forLoop {known : Value → Prop} {a head join : Nat} {xs : List Operation}
    {operation : Operation} {ts : List Slot} {tb : List (List Operation)} (hxs : Block known xs)
    (hfits : operation.Fits known xs) (hhead : head = a + xs.length)
    (ht : Blocks known (Target (head + 1) tb) (head + 1) ts tb)
    (hjoin : join = head + 1 + (SlotBoard.loopBack a (head + 1) ts).length) :
    ∃ blocks, Blocks known (Target a blocks) a
      (place a (a + xs.length) xs ++ headSlot operation head join ::
        (SlotBoard.loopBack a (head + 1) ts ++
          [Slot.single join (.jump ((join + 1 : Nat) : Int))])) blocks := by
  have hlength : [xs ++ [operation]].flatten.length = xs.length + 1 := by simp
  obtain ⟨tail, htail⟩ : ∃ tail : List (List Operation),
    tail = if ts.isEmpty then [[.jump]] else [] := ⟨_, rfl⟩
  refine ⟨[xs ++ [operation]] ++ (tb ++ (tail ++ [[.jump]])), ?_⟩
  generalize hblocks : [xs ++ [operation]] ++ (tb ++ (tail ++ [[.jump]])) = blocks
  have hback : Target a blocks a := Or.inr ⟨[], blocks, rfl, rfl⟩
  have hinside : ∀ n, Target (head + 1) tb n → Target a blocks n := by
    intro n hn
    rw [← hblocks]
    exact hn.inside _ _ (by rw [hlength]; omega)
  have hturn := (ht.mono (fun _ h => h) hinside).loopBack hback
  rw [← htail] at hturn
  have hclose : Target a blocks join := by
    refine Or.inr ⟨[xs ++ [operation]] ++ (tb ++ tail), [[.jump]], ?_, ?_⟩
    · rw [← hblocks, List.append_assoc, List.append_assoc]
    · rw [List.flatten_append, List.length_append, hlength, ← hturn.length]
      omega
  have hrest := hturn.append (.jump known (Or.inl rfl)) hjoin
  have hall := (Blocks.headed hxs hfits hhead hclose).append hrest
    (by rw [List.length_append, length_place, hhead]; rfl)
  rw [List.append_assoc tb, hblocks, List.append_assoc] at hall
  exact hall

namespace Draft

/-- The later draft knows more values, and its code has more blocks. -/
structure AddsBlocks (ctx : Context) (d e : Draft) : Prop where
  knows : ∀ v, d.Knows ctx v → e.Knows ctx v
  blocks : ∃ slots blocks, e.board.slots = d.board.slots ++ slots ∧
    Blocks (e.Knows ctx) (Target d.board.slots.length blocks) d.board.slots.length slots blocks

namespace AddsBlocks

variable {ctx : Context} {a b c d e : Draft}

theorem of_slots_eq (hknows : ∀ v, d.Knows ctx v → e.Knows ctx v)
    (hslots : e.board.slots = d.board.slots) : d.AddsBlocks ctx e :=
  ⟨hknows, [], [], by rw [hslots, List.append_nil], .nil _ _ _⟩

theorem refl (ctx : Context) (d : Draft) : d.AddsBlocks ctx d := of_slots_eq (fun _ h => h) rfl

theorem trans (hab : a.AddsBlocks ctx b) (hbc : b.AddsBlocks ctx c) : a.AddsBlocks ctx c := by
  obtain ⟨hknows, xs, bs, hxs, hbs⟩ := hab
  obtain ⟨hknows', ys, cs, hys, hcs⟩ := hbc
  have hlength : b.board.slots.length = a.board.slots.length + xs.length := by
    rw [hxs, List.length_append]
  refine ⟨fun v hv => hknows' v (hknows v hv), xs ++ ys, bs ++ cs, ?_, ?_⟩
  · rw [hys, hxs, List.append_assoc]
  · refine (hbs.mono hknows' fun n hn => ?_).append (hcs.mono (fun _ h => h) fun n hn => ?_) hlength
    · exact hn.inside [] cs rfl
    · have hinside := hn.inside bs [] (a := a.board.slots.length) (by rw [hlength, hbs.length])
      rwa [List.append_nil] at hinside

/-- Straight-line code is a block. -/
theorem of_straight {xs : List Operation} (h : d.Straight ctx e xs)
    (hknows : ∀ v, d.Knows ctx v → e.Knows ctx v) : d.AddsBlocks ctx e :=
  ⟨hknows, _, _, h.slots, .straight h.block _ _⟩

/-- Straight-line code and an item that ends the block. -/
theorem of_ended {xs : List Operation} (h : d.Straight ctx e xs)
    (hknows : ∀ v, d.Knows ctx v → e.Knows ctx v) {item : Item} (hbranches : item.branches = true)
    (hfits : item.operation.Fits (e.Knows ctx) xs)
    (hnext : ∀ n ∈ item.next, n = ((e.board.slots.length + 1 : Nat) : Int) ∨ n = 0) :
    d.AddsBlocks ctx (e.after (emit item)) := by
  have hlength : e.board.slots.length = d.board.slots.length + xs.length := by
    rw [h.slots, List.length_append, length_place]
  refine ⟨hknows, _, _, ?_, .ended h.block hfits (fun n hn => ?_) hlength⟩
  · rw [after_emit, slots_withSlots, Slot.push_branching _ _ hbranches, h.slots, List.append_assoc,
      ← h.slots]
  · rcases hnext n hn with hn | hn
    · exact Or.inl hn
    · exact Or.inr ⟨0, hn, Or.inl rfl⟩

end AddsBlocks
end Draft

section Statements

open Draft

variable {ctx : Context}

/-- An expression and what is done with its value. If the expression is given up, its code up to that
point is a block as well. -/
theorem withValue_addsBlocks (hctx : ctx.Plain) (e : Expr) {step : Value → Emit Unit} (d : Draft)
    (hstep : ∀ d' xs v, d.Straight ctx d' xs → (∀ u, d.Knows ctx u → d'.Knows ctx u) →
      v.Ready (d'.Knows ctx) xs → d.AddsBlocks ctx (d'.after (step v))) :
    d.AddsBlocks ctx (d.after (withValue ctx e step)) := by
  obtain ⟨xs, hxs, hlater, hanswer⟩ := e.computes hctx d d [] (.start ctx d)
  rw [withValue, after_bind]
  cases hv : d.answer (e.lower ctx).run with
  | ok v => exact hstep _ xs v hxs hlater.known (hanswer v hv)
  | error fault => exact .of_straight hxs hlater.known

theorem declare?_addsBlocks (ctx : Context) (scope : Option String) (source : String) (kind : Kind)
    (flags : Flags) : Keeps (AddsBlocks ctx) (declare? ctx scope source kind flags) := by
  intro d
  refine .of_slots_eq (fun v hv => ?_) ?_
  · exact ((Grows.slotBlind ctx).declare scope source kind flags d).knows hv
  · rw [after_declare?]
    split <;> rfl

theorem Decl.lower_addsBlocks (hctx : ctx.Plain) (x : Decl) :
    Keeps (AddsBlocks ctx) (x.lower ctx) := by
  intro d
  unfold Decl.lower
  rw [after_bind]
  refine (declare?_addsBlocks ctx none x.name (.ofWords ctx.aliases x.type)
    { isVolatile := x.quals.contains "volatile" } d).trans ?_
  rw [answer_declare?]
  cases hlocal : d.board.local? x.name with
  | some v => exact .of_slots_eq (fun _ h => h) rfl
  | none =>
    dsimp only
    cases x.init with
    | none => exact .refl ctx _
    | some e =>
      refine withValue_addsBlocks hctx e _ fun d' xs v hxs hknows hv => ?_
      refine .of_straight (hxs.emit rfl (.assign (hknows _ ?_) hv)) hknows
      rw [after_declare?, hlocal]
      exact Or.inl (List.mem_append_right _ List.mem_cons_self)

theorem lowerReturn_addsBlocks (hctx : ctx.Plain) (value : Option Expr) :
    Keeps (AddsBlocks ctx) (lowerReturn ctx value) := by
  intro d
  cases value with
  | none =>
    refine .of_ended (.start ctx d) (fun _ h => h) rfl (.idle rfl rfl) fun n hn => ?_
    exact Or.inr (List.mem_singleton.mp hn)
  | some e =>
    refine withValue_addsBlocks hctx e d fun d' xs v hxs hknows hv => ?_
    refine .of_ended hxs hknows rfl (.reading rfl (List.forall_mem_singleton.mpr hv)) fun n hn => ?_
    exact Or.inr (List.mem_singleton.mp hn)

theorem placeholder_addsBlocks (ctx : Context) : Keeps (AddsBlocks ctx) Draft.placeholder := by
  intro d
  refine .of_ended (.start ctx d) (fun _ h => h) rfl (.idle rfl rfl) fun n hn => ?_
  exact Or.inl (List.mem_singleton.mp hn)

/-- The code of a condition and the operation of the head behind it are a block. -/
theorem Headed.block {d d₁ d₂ : Draft} {cond : Option Expr} {operation : Operation}
    (hctx : ctx.Plain) (h : Headed ctx d cond d₁ d₂ operation) :
    ∃ xs, d.Straight ctx d₁ xs ∧ (∀ v, d.Knows ctx v → d₁.Knows ctx v) ∧
      (∀ v, d₁.Knows ctx v → d₂.Knows ctx v) ∧ operation.Fits (d₁.Knows ctx) xs := by
  cases h with
  | always => exact ⟨[], .start ctx d, fun _ hv => hv, fun _ hv => hv, .idle rfl rfl⟩
  | @cond e v d₁ hv h₁ =>
    obtain ⟨xs, hxs, hlater, hanswer⟩ := e.computes hctx d d [] (.start ctx d)
    subst h₁
    have hready : v.Ready _ xs := hanswer v hv
    exact ⟨xs, hxs, hlater.known, fun _ hu => hu, .reading rfl (List.forall_mem_singleton.mpr hready)⟩

theorem ifThen_addsBlocks (hctx : ctx.Plain) (pos : Position) (cond : Expr) {thenBranch : Stmt}
    {elseBranch : Option Stmt} (hthen : Keeps (AddsBlocks ctx) (thenBranch.lower ctx))
    (helse : Keeps (AddsBlocks ctx) (Stmt.lowerOption ctx elseBranch)) :
    Keeps (AddsBlocks ctx) ((Stmt.ifThen pos cond thenBranch elseBranch).lower ctx) := by
  intro d
  rcases headed_or_error ctx d (some cond) with ⟨d₁, d₂, operation, h⟩ | ⟨e, fault, he, hfault⟩
  · obtain ⟨xs, hxs, hknows, hknowsHead, hfits⟩ := h.block hctx
    obtain ⟨hknowsThen, ts, tb, hts, htb⟩ := hthen d₂
    obtain ⟨hknowsElse, es, eb, hes, heb⟩ := helse (d₂.after (thenBranch.lower ctx))
    obtain ⟨head, hhead⟩ : ∃ head, head = d₁.board.slots.length := ⟨_, rfl⟩
    have hcode : head = d.board.slots.length + xs.length := by
      rw [hhead, hxs.slots, List.length_append, length_place]
    have hstart : d₂.board.slots.length = head + 1 := by rw [h.length_slots, hhead]
    rw [hts, List.length_append, hstart] at heb
    rw [hstart] at htb
    have hall : ∀ v, d₁.Knows ctx v → ((d₂.after (thenBranch.lower ctx)).after
        (Stmt.lowerOption ctx elseBranch)).Knows ctx v :=
      fun v hv => hknowsElse v (hknowsThen v (hknowsHead v hv))
    obtain ⟨blocks, hblocks⟩ := Blocks.ifThen (hxs.block.mono hall) (hfits.mono hall) hcode
      (htb.mono hknowsElse fun _ hn => hn) heb rfl
    rw [Stmt.after_ifThen pos h rfl rfl hts hes hhead rfl]
    refine ⟨fun v hv => hall v (hknows v hv), _, blocks, ?_, hblocks⟩
    rw [slots_withSlots, hxs.slots, List.append_assoc]
  · cases he
    rw [Stmt.after_ifThen_of_error hfault]
    obtain ⟨xs, hxs, hlater, -⟩ := cond.computes hctx d d [] (.start ctx d)
    exact .of_straight hxs hlater.known

theorem forLoop_addsBlocks (hctx : ctx.Plain) (pos : Position) (cond : Option Expr)
    {init next : Option Stmt} {body : Stmt}
    (hinit : Keeps (AddsBlocks ctx) (Stmt.lowerOption ctx init))
    (hbody : Keeps (AddsBlocks ctx) (body.lower ctx))
    (hnext : Keeps (AddsBlocks ctx) (Stmt.lowerOption ctx next)) :
    Keeps (AddsBlocks ctx) ((Stmt.forLoop pos init cond next body).lower ctx) := by
  intro d
  refine AddsBlocks.trans (hinit d) ?_
  rcases headed_or_error ctx (d.after (Stmt.lowerOption ctx init)) cond with
    ⟨d₁, d₂, operation, h⟩ | ⟨e, fault, rfl, hfault⟩
  · obtain ⟨xs, hxs, hknows, hknowsHead, hfits⟩ := h.block hctx
    obtain ⟨hknowsTurn, ts, tb, hts, htb⟩ := AddsBlocks.trans (hbody d₂) (hnext _)
    obtain ⟨bs, hbs, -⟩ := body.lower_extends ctx d₂
    obtain ⟨ns, hns, -⟩ := Stmt.lowerOption_extends ctx next (d₂.after (body.lower ctx))
    obtain rfl : ts = bs ++ ns := by
      rw [hns, hbs, List.append_assoc] at hts
      exact (List.append_cancel_left hts).symm
    obtain ⟨head, hhead⟩ : ∃ head, head = d₁.board.slots.length := ⟨_, rfl⟩
    have hcode : head = (d.after (Stmt.lowerOption ctx init)).board.slots.length + xs.length := by
      rw [hhead, hxs.slots, List.length_append, length_place]
    have hstart : d₂.board.slots.length = head + 1 := by rw [h.length_slots, hhead]
    rw [hstart] at htb
    have hall : ∀ v, d₁.Knows ctx v → ((d₂.after (body.lower ctx)).after
        (Stmt.lowerOption ctx next)).Knows ctx v :=
      fun v hv => hknowsTurn v (hknowsHead v hv)
    obtain ⟨blocks, hblocks⟩ := Blocks.forLoop (hxs.block.mono hall) (hfits.mono hall) hcode htb rfl
    rw [Stmt.after_forLoop pos rfl h rfl rfl hbs hns hhead rfl]
    refine ⟨fun v hv => hall v (hknows v hv), _, blocks, ?_, hblocks⟩
    rw [slots_withSlots, hxs.slots, List.append_assoc]
  · rw [Stmt.after_forLoop_of_error rfl hfault]
    obtain ⟨xs, hxs, hlater, -⟩ := e.computes hctx _ _ [] (.start ctx _)
    exact .of_straight hxs hlater.known

mutual

/-- Lowering a statement adds blocks to the code, whether or not the statement is reported. -/
theorem Stmt.lower_addsBlocks (hctx : ctx.Plain) : ∀ s : Stmt, Keeps (AddsBlocks ctx) (s.lower ctx)
  | .block _ items => by
    rw [Stmt.lower]
    exact Stmt.lowerAll_addsBlocks hctx items
  | .decl x => by
    rw [Stmt.lower]
    exact x.lower_addsBlocks hctx
  | .ret _ value => by
    rw [Stmt.lower]
    exact lowerReturn_addsBlocks hctx value
  | .ifThen pos cond thenBranch elseBranch =>
    ifThen_addsBlocks hctx pos cond (thenBranch.lower_addsBlocks hctx)
      (Stmt.lowerOption_addsBlocks hctx elseBranch)
  | .forLoop pos init cond next body =>
    forLoop_addsBlocks hctx pos cond (Stmt.lowerOption_addsBlocks hctx init)
      (body.lower_addsBlocks hctx) (Stmt.lowerOption_addsBlocks hctx next)
  | .switch _ subject body => by
    rw [Stmt.lower]
    intro d
    refine withValue_addsBlocks hctx subject d fun d' xs v hxs hknows _ => ?_
    exact (AddsBlocks.of_straight hxs hknows).trans (body.lower_addsBlocks hctx d')
  | .caseOf _ label stmts => by
    rw [Stmt.lower]
    intro d
    refine AddsBlocks.trans (withValue_addsBlocks hctx label d fun d' xs v hxs hknows _ => ?_)
      (Stmt.lowerAll_addsBlocks hctx stmts _)
    exact .of_straight hxs hknows
  | .otherwise _ stmts => by
    rw [Stmt.lower]
    exact Stmt.lowerAll_addsBlocks hctx stmts
  | .leave pos => by
    rw [Stmt.lower]
    exact fun d => .of_slots_eq (fun _ h => h) rfl
  | .empty _ => by
    rw [Stmt.lower]
    exact placeholder_addsBlocks ctx
  | .expr _ x => by
    rw [Stmt.lower]
    intro d
    refine withValue_addsBlocks hctx x d fun d' xs v hxs hknows _ => ?_
    exact .of_straight hxs hknows
  | .unknown pos kind => by
    rw [Stmt.lower]
    exact fun d => .of_slots_eq (fun _ h => h) rfl
termination_by structural s => s

theorem Stmt.lowerAll_addsBlocks (hctx : ctx.Plain) : ∀ ss : List Stmt,
    Keeps (AddsBlocks ctx) (Stmt.lowerAll ctx ss)
  | [] => by
    rw [Stmt.lowerAll]
    exact AddsBlocks.refl ctx
  | s :: ss => by
    rw [Stmt.lowerAll]
    intro d
    exact (s.lower_addsBlocks hctx d).trans (Stmt.lowerAll_addsBlocks hctx ss _)
termination_by structural ss => ss

theorem Stmt.lowerOption_addsBlocks (hctx : ctx.Plain) : ∀ s : Option Stmt,
    Keeps (AddsBlocks ctx) (Stmt.lowerOption ctx s)
  | none => by
    rw [Stmt.lowerOption]
    exact AddsBlocks.refl ctx
  | some s => by
    rw [Stmt.lowerOption]
    exact s.lower_addsBlocks hctx
termination_by structural s => s

end

end Statements

end SlotBoard
