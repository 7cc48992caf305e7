import Mathlib.Data.List.Chain
import SlotBoard.Proofs.Branches
import SlotBoard.Proofs.Construction
import SlotBoard.Proofs.Validity

/-!
What validation guarantees. A module without violations is one whose boards have their markers and
their final jump and whose items name as many successors as their form asks for, all of them addresses
of the board. A walk along successors therefore never leaves the board, and it can go on wherever there
is an item that has a successor at all.
-/
namespace SlotBoard

namespace Board

def Has (board : Board) (x : Int) : Prop := ∃ slot ∈ board.slots, slot.address.toInt = x

def LeadsTo (board : Board) (x y : Int) : Prop :=
  ∃ slot ∈ board.slots, slot.address.toInt = x ∧ y ∈ slot.successors

instance (board : Board) (x : Int) : Decidable (board.Has x) :=
  inferInstanceAs (Decidable (∃ slot ∈ board.slots, slot.address.toInt = x))

instance (board : Board) : DecidableRel board.LeadsTo := fun x y =>
  inferInstanceAs (Decidable (∃ slot ∈ board.slots, slot.address.toInt = x ∧ y ∈ slot.successors))

/-- The form of a finished board: an exit marker, an entry marker, a final jump to address 0, no empty
slot, and for every item as many successors as its form asks for, each the address of a slot. -/
structure WellFormed (board : Board) : Prop where
  size : 3 ≤ board.slots.length
  exit : ∃ slot item, board.slots[0]? = some slot ∧ slot.items = [item] ∧ item.operation = .exit
  entry : ∃ slot item, board.slots[1]? = some slot ∧ slot.items = [item] ∧ item.operation = .entry
  final : ∃ slot item, board.slots.getLast? = some slot ∧ slot.items.getLast? = some item ∧
    item.operation = .jump ∧ item.next = [0]
  filled : ∀ slot ∈ board.slots, slot.items ≠ []
  arity : ∀ slot ∈ board.slots, ∀ item ∈ slot.items, item.next.length = item.operation.arity
  targets : ∀ slot ∈ board.slots, ∀ item ∈ slot.items, ∀ n ∈ item.next, board.Has n

end Board

theorem Slot.isMarker_iff (slot : Slot) (marker : Operation) :
    slot.isMarker marker = true ↔ ∃ item, slot.items = [item] ∧ item.operation = marker := by
  obtain ⟨address, items⟩ := slot
  unfold isMarker
  match items with
  | [] => simp
  | [item] => simp
  | _ :: _ :: _ => simp

theorem Slot.jumpsHome_iff (slot : Slot) :
    slot.jumpsHome = true ↔
      ∃ item, slot.items.getLast? = some item ∧ item.operation = .jump ∧ item.next = [0] := by
  unfold jumpsHome last?
  cases slot.items.getLast? with
  | none => simp
  | some item => simp

theorem Slot.violations_eq_nil_iff {size position : Nat} {slot : Slot} :
    slot.violations size position = [] ↔ slot.address.toInt = position ∧ slot.items ≠ [] ∧
      ∀ item ∈ slot.items, item.next.length = item.operation.arity ∧
        ∀ n ∈ item.next, 0 ≤ n ∧ n < (size : Int) := by
  unfold violations
  rw [List.append_eq_nil_iff]
  refine and_congr (by split <;> simp_all) ?_
  cases slot.items with
  | nil => simp
  | cons item items => simp [List.flatMap_eq_nil_iff, Item.violations_eq_nil_iff]

namespace Board

section Addressed

variable {board : Board}
  (haddress : ∀ (i : Nat) (slot : Slot), board.slots[i]? = some slot → slot.address.toInt = i)
include haddress

/-- The addresses are those below the number of slots. -/
theorem has_iff {x : Int} : board.Has x ↔ 0 ≤ x ∧ x < (board.slots.length : Int) := by
  constructor
  · rintro ⟨slot, hslot, rfl⟩
    obtain ⟨i, hi⟩ := List.mem_iff_getElem?.mp hslot
    have hlt : i < board.slots.length := (List.getElem?_eq_some_iff.mp hi).1
    rw [haddress i slot hi]
    omega
  · rintro ⟨hlow, hhigh⟩
    have hlt : x.toNat < board.slots.length := by omega
    have hslot : board.slots[x.toNat]? = some board.slots[x.toNat] := List.getElem?_eq_getElem hlt
    refine ⟨board.slots[x.toNat], List.getElem_mem hlt, ?_⟩
    rw [haddress _ _ hslot]
    omega

/-- The checks of the slots one by one come to the rules that hold for every slot. -/
theorem slot_violations_eq_nil_iff :
    (board.slots.zipIdx.flatMap fun (slot, position) =>
        slot.violations board.slots.length position) = [] ↔
      ∀ slot ∈ board.slots, slot.items ≠ [] ∧ ∀ item ∈ slot.items,
        item.next.length = item.operation.arity ∧ ∀ n ∈ item.next, board.Has n := by
  simp only [List.flatMap_eq_nil_iff, List.mem_zipIdx_iff_getElem?, Prod.forall,
    Slot.violations_eq_nil_iff, has_iff haddress]
  constructor
  · intro h slot hslot
    obtain ⟨i, hi⟩ := List.mem_iff_getElem?.mp hslot
    exact (h slot i hi).2
  · intro h slot i hi
    exact ⟨haddress i slot hi, h slot (List.mem_of_getElem? hi)⟩

/-- A board without violations is well formed, and the other way round. -/
theorem violations_eq_nil_iff : board.violations = [] ↔ board.WellFormed := by
  have hall := slot_violations_eq_nil_iff haddress
  unfold violations
  split
  · rename_i first second third rest last hslots hlast
    have hsize : 3 ≤ board.slots.length := by simp [hslots]
    have hfirst : board.slots[0]? = some first := by rw [hslots]; rfl
    have hsecond : board.slots[1]? = some second := by rw [hslots]; rfl
    simp only [List.append_eq_nil_iff, ite_eq_left_iff, List.cons_ne_nil, imp_false, not_not,
      Slot.isMarker_iff, Slot.jumpsHome_iff, hall]
    constructor
    · rintro ⟨⟨⟨⟨exit, hexit⟩, ⟨entry, hentry⟩⟩, ⟨jump, hjump⟩⟩, hrules⟩
      exact {
        size := hsize
        exit := ⟨first, exit, hfirst, hexit⟩
        entry := ⟨second, entry, hsecond, hentry⟩
        final := ⟨last, jump, hlast, hjump⟩
        filled := fun slot hslot => (hrules slot hslot).1
        arity := fun slot hslot item hitem => ((hrules slot hslot).2 item hitem).1
        targets := fun slot hslot item hitem => ((hrules slot hslot).2 item hitem).2 }
    · intro h
      obtain ⟨_, exit, hexit, hexit'⟩ := h.exit
      obtain ⟨_, entry, hentry, hentry'⟩ := h.entry
      obtain ⟨_, jump, hjump, hjump'⟩ := h.final
      cases hfirst.symm.trans hexit
      cases hsecond.symm.trans hentry
      cases hlast.symm.trans hjump
      exact ⟨⟨⟨⟨exit, hexit'⟩, ⟨entry, hentry'⟩⟩, ⟨jump, hjump'⟩⟩, fun slot hslot =>
        ⟨h.filled slot hslot, fun item hitem =>
          ⟨h.arity slot hslot item hitem, h.targets slot hslot item hitem⟩⟩⟩
  · rename_i hfew
    refine iff_of_false (List.cons_ne_nil _ _) fun h => ?_
    -- with three slots the first case would have been taken
    obtain ⟨last, -, hlast, -⟩ := h.final
    match hslots : board.slots, h.size with
    | first :: second :: third :: rest, _ => exact hfew first second third rest last hslots hlast

end Addressed

/-- Validation compares addresses with positions too. -/
theorem address_of_valid {board : Board} (h : board.violations = []) (i : Nat) (slot : Slot)
    (hslot : board.slots[i]? = some slot) : slot.address.toInt = i := by
  unfold violations at h
  split at h
  · have hslots := (List.append_eq_nil_iff.mp h).2
    rw [List.flatMap_eq_nil_iff] at hslots
    exact (Slot.violations_eq_nil_iff.mp
      (hslots (slot, i) (List.mem_zipIdx_iff_getElem?.mpr hslot))).1
  · cases h

theorem wellFormed_of_valid {board : Board} (h : board.violations = []) : board.WellFormed :=
  (violations_eq_nil_iff (address_of_valid h)).mp h

/-- A walk never leaves a well-formed board. -/
theorem WellFormed.stays {board : Board} (h : board.WellFormed) {x : Int} {xs : List Int}
    (hx : board.Has x) (hwalk : (x :: xs).IsChain board.LeadsTo) : ∀ y ∈ x :: xs, board.Has y := by
  induction xs generalizing x with
  | nil => simpa using hx
  | cons y ys ih =>
    obtain ⟨⟨slot, hslot, -, hy⟩, hrest⟩ := List.isChain_cons_cons.mp hwalk
    obtain ⟨item, hitem, hnext⟩ := List.mem_flatMap.mp hy
    exact List.forall_mem_cons.mpr ⟨hx, ih (h.targets slot hslot item hitem y hnext) hrest⟩

end Board

def Operation.isDeadEnd : Operation → Bool
  | select _ [] => true
  | _ => false

theorem Operation.arity_pos {x : Operation} (h : x.isDeadEnd = false) : 0 < x.arity := by
  cases x with
  | select key cases =>
    cases cases with
    | nil => cases h
    | cons c cs => exact Nat.succ_pos _
  | jumpIfTrue cond => exact Nat.succ_pos _
  | _ => exact Nat.one_pos

/-- From a slot that has any item but a dead end a walk goes on. -/
theorem Board.WellFormed.goes_on {board : Board} (h : board.WellFormed) {slot : Slot}
    (hslot : slot ∈ board.slots) {item : Item} (hitem : item ∈ slot.items)
    (hend : item.operation.isDeadEnd = false) : ∃ y, board.LeadsTo slot.address.toInt y := by
  have hlength : 0 < item.next.length := by
    rw [h.arity slot hslot item hitem]
    exact Operation.arity_pos hend
  obtain ⟨y, hy⟩ := List.exists_mem_of_length_pos hlength
  exact ⟨y, slot, hslot, rfl, List.mem_flatMap.mpr ⟨item, hitem, hy⟩⟩

theorem Module.validityReport?_eq_none_iff {m : Module} :
    m.validityReport? = none ↔ ∀ b ∈ m.boards, b.violations = [] := by
  have hviolations : m.violations = [] ↔ ∀ b ∈ m.boards, b.violations = [] := by
    simp only [violations, List.flatMap_eq_nil_iff, List.map_eq_nil_iff]
  rw [← hviolations, validityReport?]
  cases m.violations <;> simp

theorem Module.Addressed.validityReport?_eq_none_iff {m : Module} (h : m.Addressed) :
    m.validityReport? = none ↔ ∀ b ∈ m.boards, b.WellFormed := by
  rw [Module.validityReport?_eq_none_iff]
  refine forall₂_congr fun b hb => Board.violations_eq_nil_iff fun i slot hi => ?_
  rw [h b hb i slot hi]
  rfl

/-- In every module that is made step by step the address of a slot is its position. Of such a module
validation finds nothing to report exactly if all boards are well formed. Then no walk along successors
leaves its board, however long it is and wherever it starts, and it can be continued at every slot that
has an item other than a choice between no cases. -/
theorem validation_guarantees_safe_walks :
    (∀ m : Module, m.Scripted → m.Addressed) ∧
    ∀ m : Module, m.Addressed →
      (m.validityReport? = none ↔ ∀ b ∈ m.boards, b.WellFormed) ∧
      (m.validityReport? = none → ∀ b ∈ m.boards, ∀ (x : Int) (xs : List Int), b.Has x →
        (x :: xs).IsChain b.LeadsTo → ∀ y ∈ x :: xs, b.Has y ∧
          ∀ slot ∈ b.slots, slot.address.toInt = y →
            (∃ item ∈ slot.items, item.operation.isDeadEnd = false) → ∃ z, b.LeadsTo y z) := by
  refine ⟨fun m h => h.built.addressed, fun m haddressed => ?_⟩
  have hiff := haddressed.validityReport?_eq_none_iff
  refine ⟨hiff, fun hvalid b hb x xs hx hwalk y hy => ?_⟩
  have hformed : b.WellFormed := hiff.mp hvalid b hb
  refine ⟨hformed.stays hx hwalk y hy, ?_⟩
  rintro slot hslot rfl ⟨item, hitem, hend⟩
  exact hformed.goes_on hslot hitem hend

/-- A board with a jump that may return to itself and a slot of two items, one of them a dead end. -/
def waitingModule : Module :=
  madeBy [.emit .exit, .emit .entry, .emit (.jumpIfTrue "x_f_0"), .setNext 2 0 [3, 2], .newSlot,
    .append 3 (.select "x_f_0" [] []), .append 3 (.jump 4), .emit (.jump 0)]

theorem waitingModule_walks_safely :
    waitingModule.Scripted ∧ waitingModule.validityReport? = none ∧
    (∀ b ∈ waitingModule.boards, b.WellFormed) ∧
    ∀ b ∈ waitingModule.boards, [1, 2, 2, 3, 4, 0].IsChain b.LeadsTo ∧
      (∀ y ∈ [1, 2, 2, 3, 4, 0], b.Has y) ∧ ∃ z, b.LeadsTo 3 z := by
  have hscripted : waitingModule.Scripted := scripted_madeBy (by simp)
  have hvalid : waitingModule.validityReport? = none := by decide +kernel
  have hwalk : ∀ b ∈ waitingModule.boards, b.Has 1 ∧ [1, 2, 2, 3, 4, 0].IsChain b.LeadsTo ∧
      ∃ slot ∈ b.slots, slot.address.toInt = 3 ∧
        ∃ item ∈ slot.items, item.operation.isDeadEnd = false := by
    decide +kernel
  obtain ⟨haddressed, hmodules⟩ := validation_guarantees_safe_walks
  obtain ⟨hiff, hsafe⟩ := hmodules waitingModule (haddressed waitingModule hscripted)
  refine ⟨hscripted, hvalid, hiff.mp hvalid, fun b hb => ?_⟩
  obtain ⟨hstart, hchain, slot, hslot, hthree, hitem⟩ := hwalk b hb
  have hon := hsafe hvalid b hb 1 [2, 2, 3, 4, 0] hstart hchain
  exact ⟨hchain, fun y hy => (hon y hy).1, (hon 3 (by simp)).2 slot hslot hthree hitem⟩

end SlotBoard
