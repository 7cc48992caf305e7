import SlotBoard.Command.Run
import SlotBoard.Proofs.Function

/-!
Whatever is lowered, the module is structurally valid. The code of a board is a region between the
markers and the final jump, so every item has the successors its form asks for and every successor is
an address of the board; a module only ever gains such boards. A run that validates its module
therefore does the same as one that does not.
-/
namespace SlotBoard

theorem Item.violations_eq_nil_iff {size : Nat} {address : Int} {item : Item} :
    item.violations size address = [] ↔ item.next.length = item.operation.arity ∧
      ∀ n ∈ item.next, 0 ≤ n ∧ n < (size : Int) := by
  unfold violations
  rw [List.append_eq_nil_iff, List.map_eq_nil_iff, List.filter_eq_nil_iff]
  refine and_congr ?_ (forall₂_congr fun n _ => ?_)
  · split
    · rename_i harity
      exact iff_of_true rfl harity
    · rename_i harity
      exact iff_of_false (List.cons_ne_nil _ _) harity
  · simp only [Bool.or_eq_true, decide_eq_true_eq]
    omega

theorem Slot.violations_single {size i : Nat} {item : Item}
    (harity : item.next.length = item.operation.arity)
    (hnext : ∀ n ∈ item.next, 0 ≤ n ∧ n < (size : Int)) :
    (single i item).violations size i = [] := by
  have hitem : item.violations size i = [] := Item.violations_eq_nil_iff.mpr ⟨harity, hnext⟩
  simp [violations, single, Address.toInt, hitem]

theorem Operation.arity_of_goesOn {operation : Operation} (h : operation.goesOn = true) :
    operation.arity = 1 := by
  cases operation <;> first | rfl | cases h

theorem Item.Flows.valid {a e k i size : Nat} {item : Item} (h : item.Flows a e k i)
    (he : e ≤ size) (hk : k < size) :
    (Slot.single i item).violations size i = [] := by
  cases h with
  | ret value =>
    refine Slot.violations_single rfl fun n hn => ?_
    simp only [Item.ret, List.mem_singleton] at hn
    omega
  | fork cond m n hm hn hi =>
    refine Slot.violations_single rfl fun x hx => ?_
    simp only [List.mem_cons, List.not_mem_nil, or_false] at hx
    omega
  | inner operation h n hn hi =>
    refine Slot.violations_single (Operation.arity_of_goesOn h).symm fun x hx => ?_
    simp only [List.mem_singleton] at hx
    omega
  | last operation h hi =>
    refine Slot.violations_single (Operation.arity_of_goesOn h).symm fun x hx => ?_
    simp only [List.mem_singleton] at hx
    omega

theorem Lies.valid {a e k i size : Nat} {slots : List Slot} (h : Lies a e k i slots)
    (he : e ≤ size) (hk : k < size) :
    ((slots.zipIdx i).flatMap fun (slot, position) => slot.violations size position) = [] := by
  induction slots generalizing i with
  | nil => rfl
  | cons slot slots ih =>
    obtain ⟨⟨item, rfl, hitem⟩, hslots⟩ := h
    rw [List.zipIdx_cons, List.flatMap_cons, ih hslots, List.append_nil]
    exact hitem.valid he hk

/-- Markers, a region that is left at its end and a jump to address 0 make a valid board. -/
theorem Board.violations_eq_nil (board : Board) (code : List Slot)
    (hregion : Region 2 (2 + code.length) code)
    (hslots : board.slots = Slot.single 0 ⟨.exit, [1]⟩ :: Slot.single 1 ⟨.entry, [2]⟩ ::
      (code ++ [Slot.single (2 + code.length) (.jump 0)])) :
    board.violations = [] := by
  have hlength : board.slots.length = 3 + code.length := by
    simp only [hslots, List.length_cons, List.length_append, List.length_nil]
    omega
  have hlast : board.slots.getLast? = some (Slot.single (2 + code.length) (.jump 0)) := by
    rw [hslots, ← List.cons_append, ← List.cons_append, List.getLast?_concat]
  have hsize : 3 ≤ board.slots.length := by omega
  have hmarker : ∀ (i : Nat) (operation : Operation) (n : Nat), operation.arity = 1 → n < 3 →
      (Slot.single i ⟨operation, [(n : Int)]⟩).violations board.slots.length i = [] := by
    intro i operation n harity hn
    refine Slot.violations_single harity.symm fun x hx => ?_
    simp only [List.mem_singleton] at hx
    omega
  have hexit : (Slot.single 0 ⟨.exit, [1]⟩).violations board.slots.length 0 = [] :=
    hmarker 0 .exit 1 rfl (by omega)
  have hentry : (Slot.single 1 ⟨.entry, [2]⟩).violations board.slots.length 1 = [] :=
    hmarker 1 .entry 2 rfl (by omega)
  have hjump : (Slot.single (2 + code.length) (.jump 0)).violations board.slots.length
      (2 + code.length) = [] := hmarker _ .jump 0 rfl (by omega)
  have hend : 2 + code.length < board.slots.length := by omega
  have hcode := Lies.valid hregion (Nat.le_of_lt hend) hend
  have hall : (board.slots.zipIdx.flatMap fun (slot, position) =>
      slot.violations board.slots.length position) = [] := by
    generalize board.slots.length = size at hexit hentry hjump hcode
    rw [hslots]
    simp only [List.zipIdx_cons, List.zipIdx_append, List.flatMap_cons, List.flatMap_append,
      List.zipIdx_nil, List.flatMap_nil, Nat.zero_add, hexit, hentry, hcode, hjump,
      List.append_nil]
  obtain ⟨third, rest, hthird⟩ :
      ∃ third rest, code ++ [Slot.single (2 + code.length) (.jump 0)] = third :: rest := by
    cases code with
    | nil => exact ⟨_, _, rfl⟩
    | cons slot code => exact ⟨_, _, rfl⟩
  rw [hthird] at hslots
  unfold violations
  rw [hall, hlast, hslots]
  rfl

namespace Lowering

theorem finished_violations (l : Lowering) (f : FuncDef) : (l.finished f).board.violations = [] := by
  obtain ⟨code, hregion, hslots⟩ :=
    f.lower_region (l.context f) l.module.name (l.blank f) rfl
  exact Board.violations_eq_nil _ code hregion hslots

theorem function_violations (l : Lowering) (f : FuncDef) (h : l.module.violations = []) :
    (l.function f).module.violations = [] := by
  cases hboard : l.module.board? f.name with
  | some b =>
    rw [function_of_known l f b hboard]
    exact h
  | none =>
    rw [function_of_new l f hboard]
    unfold Module.violations at h ⊢
    rw [List.flatMap_append, h, List.flatMap_singleton, finished_violations]
    rfl

theorem declaration_boards (l : Lowering) (d : Decl) :
    (l.declaration d).module.boards = l.module.boards := by
  unfold declaration Module.declareGlobal
  cases l.module.global? d.name with
  | some v => rfl
  | none =>
    dsimp only
    cases d.init <;> rfl

theorem topLevel_violations (l : Lowering) (t : TopLevel) (h : l.module.violations = []) :
    (l.topLevel t).module.violations = [] := by
  cases t with
  | func f => exact l.function_violations f h
  | decl d =>
    unfold Module.violations at h ⊢
    rw [topLevel, declaration_boards]
    exact h
  | unknown pos kind => exact h

theorem unit_violations (l : Lowering) (u : SourceUnit) (h : l.module.violations = []) :
    (l.unit u).module.violations = [] := by
  unfold unit
  induction u.decls generalizing l with
  | nil => exact h
  | cons t ts ih => exact ih (l.topLevel t) (l.topLevel_violations t h)

/-- A module that is lowered from the start has no violation. -/
theorem violations_of_units (name : String) (aliases : Kind.Aliases) (units : List SourceUnit) :
    (units.foldl unit (.start name aliases)).module.violations = [] := by
  have hrun : ∀ l : Lowering, l.module.violations = [] →
      (units.foldl unit l).module.violations = [] := by
    induction units with
    | nil => exact fun l h => h
    | cons u us ih => exact fun l h => ih (l.unit u) (l.unit_violations u h)
  exact hrun (.start name aliases) rfl

end Lowering

theorem Module.validityReport?_eq_none {m : Module} (h : m.violations = []) :
    m.validityReport? = none := by
  rw [validityReport?, h]

/-- Validation never stops the lowering of a configuration. -/
theorem Config.lower_eq {m : Type → Type} [Monad m] [MonadFiles m] (c : Config) :
    c.lower (m := m) = (do
      match ← SourceUnit.decodeFiles c.inputs with
      | .error e => return .error (.source e)
      | .ok units => return .ok (units.foldl Lowering.unit (.start c.name c.aliases))) := by
  unfold lower
  congr 1
  funext decoded
  cases decoded with
  | error e => rfl
  | ok units =>
    have hreport := Module.validityReport?_eq_none
      (Lowering.violations_of_units c.name c.aliases units)
    simp only [hreport, ite_self]

/-- Every module that is lowered is valid after each of its units, whatever was reported on the way.
Asking for validation therefore changes neither what a run lowers nor what it reports: the lowering
fails on an input that cannot be read and on nothing else. -/
theorem lowered_module_always_valid :
    (∀ (name : String) (aliases : Kind.Aliases) (units : List SourceUnit),
      (units.foldl Lowering.unit (.start name aliases)).module.violations = [] ∧
      (units.foldl Lowering.unit (.start name aliases)).module.validityReport? = none) ∧
    ∀ (m : Type → Type) [Monad m] [MonadFiles m] [MonadArchives m] [MonadStamp m] (c : Config),
      c.lower (m := m) = (do
        match ← SourceUnit.decodeFiles c.inputs with
        | .error e => return .error (.source e)
        | .ok units => return .ok (units.foldl Lowering.unit (.start c.name c.aliases))) ∧
      c.run (m := m) = { c with check := false }.run := by
  refine ⟨fun name aliases units => ?_, fun m _ _ _ _ c => ⟨c.lower_eq, ?_⟩⟩
  · have hvalid := Lowering.violations_of_units name aliases units
    exact ⟨hvalid, Module.validityReport?_eq_none hvalid⟩
  · unfold Config.run
    rw [Config.lower_eq c, Config.lower_eq]
    rfl

end SlotBoard
