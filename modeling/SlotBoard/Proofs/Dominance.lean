import SlotBoard.Proofs.Blocks
import SlotBoard.Proofs.Numbering

/-!
Every value is defined before it is read. A temporary is read in the block that computes it, and a
walk enters a block only at its first operation, so every walk that comes to the reading slot has been
at the computing one, whatever loops and joins it went through.
-/
namespace SlotBoard

def Module.Knows (m : Module) (board : Board) (value : Value) : Prop :=
  value ∈ board.values ∨ ∃ g ∈ m.globals, value = .var g

def Module.Blocked (m : Module) : Prop :=
  ∀ board ∈ m.boards, ∃ blocks, Blocks (m.Knows board) (Boundary 0 blocks) 0 board.slots blocks

namespace Lowering

theorem finished_blocks {l : Lowering} (h : l.Plain) (f : FuncDef) :
    ∃ blocks, Blocks (l.module.Knows (l.finished f).board) (Boundary 0 blocks) 0
      (l.finished f).board.slots blocks := by
  have hctx : (l.context f).Plain := h
  obtain ⟨-, code, blocks, hcode, hblocks⟩ := Stmt.lowerAll_addsBlocks hctx f.body
    (f.opened (l.context f) l.module.name (l.blank f))
  have hslots := f.lower_slots (l.context f) l.module.name (l.blank f) rfl hcode
  rw [f.opened_slots (l.context f) l.module.name (l.blank f) rfl] at hblocks
  refine ⟨[[.exit], [.entry]] ++ (blocks ++ [[.jump]]), ?_⟩
  generalize hall : [[Operation.exit], [.entry]] ++ (blocks ++ [[.jump]]) = all
  have hzero : Boundary 0 all 0 := ⟨[], all, rfl, rfl⟩
  have hinside : ∀ n, Target 2 blocks n → Boundary 0 all n := by
    intro n hn
    rcases hn with rfl | hn
    · exact hzero
    · rw [← hall]
      exact hn.inside _ _ rfl
  have hexit : Blocks (l.module.Knows (l.finished f).board) (Boundary 0 all) 0
      [Slot.single 0 ⟨.exit, [1]⟩] [[.exit]] :=
    .single (.idle rfl rfl) fun n hn => Or.inl (List.mem_singleton.mp hn)
  have hentry : Blocks (l.module.Knows (l.finished f).board) (Boundary 0 all) 1
      [Slot.single 1 ⟨.entry, [2]⟩] [[.entry]] :=
    .single (.idle rfl rfl) fun n hn => Or.inl (List.mem_singleton.mp hn)
  have hbody : Blocks (l.module.Knows (l.finished f).board) (Boundary 0 all) 2 code blocks :=
    hblocks.mono (fun _ hv => hv) hinside
  have hjump := Blocks.jump (l.module.Knows (l.finished f).board) (a := 2 + code.length)
    (Or.inr hzero)
  have hboard := (hexit.append hentry rfl).append (hbody.append hjump rfl) rfl
  rw [← hall] at hboard ⊢
  exact hslots ▸ hboard

theorem Takes.blocked {l m : Lowering} {t : TopLevel} (h : l.Takes t m) (hplain : l.Plain)
    (hl : l.module.Blocked) : m.module.Blocked := by
  cases h with
  | refused diagnostic h => exact hl
  | board f h =>
    intro board hboard
    rcases List.mem_append.mp hboard with hold | hnew
    · exact hl board hold
    · rw [List.mem_singleton.mp hnew]
      exact finished_blocks hplain f
  | global d diagnostics h hinit =>
    intro board hboard
    obtain ⟨blocks, hblocks⟩ := hl board hboard
    refine ⟨blocks, hblocks.mono (fun v hv => ?_) fun _ hn => hn⟩
    refine hv.imp_right ?_
    rintro ⟨g, hg, rfl⟩
    exact ⟨g, List.mem_append_left _ hg, rfl⟩

theorem blocked_of_units (name : String) (aliases : Kind.Aliases) (units : List SourceUnit) :
    (units.foldl unit (start name aliases)).module.Blocked := by
  refine (units_induction (P := fun l => l.Plain ∧ l.module.Blocked) name aliases ?_ ?_ units).2
  · exact ⟨(fun _ hv => nomatch hv), (fun _ hb => nomatch hb)⟩
  · rintro l t ⟨hplain, hblocked⟩
    have htakes := l.topLevel_takes t
    exact ⟨htakes.plain hplain, htakes.blocked hplain hblocked⟩

end Lowering

/-- Each operation of some blocks stands in one of them. -/
theorem exists_block_of_getElem? {blocks : List (List Operation)} {i : Nat} {x : Operation}
    (h : blocks.flatten[i]? = some x) :
    ∃ front block back before after, blocks = front ++ block :: back ∧ block = before ++ x :: after ∧
      i = front.flatten.length + before.length := by
  induction blocks generalizing i with
  | nil => simp at h
  | cons block blocks ih =>
    rw [List.flatten_cons] at h
    by_cases hi : i < block.length
    · rw [List.getElem?_append_left hi] at h
      obtain ⟨-, rfl⟩ := List.getElem?_eq_some_iff.mp h
      refine ⟨[], block, blocks, block.take i, block.drop (i + 1), rfl, ?_, ?_⟩
      · rw [← List.drop_eq_getElem_cons hi, List.take_append_drop]
      · rw [List.length_take, Nat.min_eq_left (Nat.le_of_lt hi)]
        exact (Nat.zero_add i).symm
    · rw [List.getElem?_append_right (by omega)] at h
      obtain ⟨front, b, back, before, after, rfl, hb, hindex⟩ := ih h
      refine ⟨block :: front, b, back, before, after, rfl, hb, ?_⟩
      rw [List.flatten_cons, List.length_append]
      omega

/-- No boundary lies inside a block. -/
theorem Boundary.not_inside {front back : List (List Operation)} {block : List Operation} {n : Nat}
    (h : Boundary 0 (front ++ block :: back) n) :
    n ≤ front.flatten.length ∨ front.flatten.length + block.length ≤ n := by
  obtain ⟨front', back', heq, rfl⟩ := h
  rw [Nat.zero_add]
  rcases List.append_eq_append_iff.mp heq with ⟨mid, hfront, hback⟩ | ⟨mid, hfront, hback⟩
  · cases mid with
    | nil =>
      rw [hfront, List.append_nil]
      exact Or.inl (Nat.le_refl _)
    | cons b mid =>
      obtain ⟨rfl, -⟩ := List.cons.inj hback
      rw [hfront, List.flatten_append, List.flatten_cons, List.length_append, List.length_append]
      exact Or.inr (by omega)
  · rw [hfront, List.flatten_append, List.length_append]
    exact Or.inl (by omega)

namespace Board

/-- A walk along successors from address 0: the addresses where it has been, in order, and the one
where it is. -/
inductive Visits (board : Board) : List Nat → Nat → Prop
  | start : Visits board [] 0
  | step {earlier : List Nat} {x y : Nat} (h : Visits board earlier x)
      (hy : ∃ slot ∈ board.slots[x]?, (y : Int) ∈ slot.successors) : Visits board (earlier ++ [x]) y

def ReadsAt (board : Board) (x : Nat) (t : Variable) : Prop :=
  ∃ slot ∈ board.slots[x]?, ∃ item ∈ slot.items, .var t ∈ item.operation.reads

instance (board : Board) (x : Nat) (t : Variable) : Decidable (board.ReadsAt x t) :=
  inferInstanceAs (Decidable (∃ slot ∈ board.slots[x]?, _))

def ComputesAt (board : Board) (x : Nat) (t : Variable) : Prop :=
  ∃ slot ∈ board.slots[x]?, ∃ item ∈ slot.items, item.operation.result? = some t

/-- A walk that comes to an address has been at every earlier one from which no jump target lies on
the way. -/
theorem Visits.passes {board : Board} {target : Nat → Prop} (hjumps : Jumps target 0 board.slots)
    {earlier : List Nat} {x i j : Nat} (h : board.Visits earlier x)
    (hclear : ∀ n, j < n → n ≤ i → ¬ target n) (hj : j ≤ x) (hi : x ≤ i) :
    j = x ∨ j ∈ earlier := by
  induction h with
  | start => exact Or.inl (by omega)
  | @step earlier x y h hy ih =>
    obtain ⟨slot, hslot, hy⟩ := hy
    by_cases hjy : j = y
    · exact Or.inl hjy
    · right
      rcases hjumps x slot hslot y hy with hnext | ⟨m, hm, htarget⟩
      · rcases ih (by omega) (by omega) with rfl | hmem
        · exact List.mem_append_right _ List.mem_cons_self
        · exact List.mem_append_left _ hmem
      · obtain rfl : y = m := by omega
        exact absurd htarget (hclear y (by omega) hi)

end Board

namespace Blocks

variable {known : Value → Prop} {target : Nat → Prop} {a x : Nat} {slots : List Slot}
  {blocks : List (List Operation)}

/-- The slots of blocks hold one operation each, the one at the same place in the blocks. -/
theorem getElem?_operations (h : Blocks known target a slots blocks) :
    slots[x]?.map Slot.operations = blocks.flatten[x]?.map ([·]) := by
  rw [← List.getElem?_map, ← List.getElem?_map, h.operations]

/-- The operation of an item fits into the block around it. -/
theorem fits (h : Blocks known target a slots blocks) {slot : Slot} (hslot : slots[x]? = some slot)
    {item : Item} (hitem : item ∈ slot.items) :
    ∃ front block back before after, blocks = front ++ block :: back ∧
      block = before ++ item.operation :: after ∧ x = front.flatten.length + before.length ∧
      item.operation.Fits known before := by
  have hx := h.getElem?_operations (x := x)
  rw [hslot] at hx
  obtain ⟨operation, hoperation, hsingle⟩ := Option.map_eq_some_iff.mp hx.symm
  have hmem : item.operation ∈ slot.operations := List.mem_map_of_mem hitem
  rw [← hsingle] at hmem
  obtain rfl := List.mem_singleton.mp hmem
  obtain ⟨front, block, back, before, after, rfl, rfl, hindex⟩ := exists_block_of_getElem? hoperation
  refine ⟨front, _, back, before, after, rfl, rfl, hindex, ?_⟩
  exact h.sound _ (List.mem_append_right _ List.mem_cons_self) before _ after rfl

/-- The operations of a board are those of its blocks. -/
theorem board_operations {board : Board} (h : Blocks known target a board.slots blocks) :
    board.operations = blocks.flatten := by
  have hslots : board.operations = (board.slots.map Slot.operations).flatten := rfl
  rw [hslots, h.operations]
  exact List.flatMap_singleton' _

theorem exists_fits {board : Board} (h : Blocks known target a board.slots blocks) {x : Operation}
    (hx : x ∈ board.operations) : ∃ front, x.Fits known front := by
  rw [h.board_operations] at hx
  obtain ⟨block, hblock, hx⟩ := List.mem_flatten.mp hx
  obtain ⟨front, back, rfl⟩ := List.append_of_mem hx
  exact ⟨front, h.sound _ hblock front x back rfl⟩

theorem computesAt {board : Board} (h : Blocks known target a board.slots blocks)
    {operation : Operation} {t : Variable} (hoperation : blocks.flatten[x]? = some operation)
    (hresult : operation.result? = some t) : board.ComputesAt x t := by
  have hx := h.getElem?_operations (x := x)
  rw [hoperation] at hx
  obtain ⟨slot, hslot, hsingle⟩ := Option.map_eq_some_iff.mp hx
  have hmem : operation ∈ slot.operations := hsingle.symm ▸ List.mem_cons_self
  obtain ⟨item, hitem, rfl⟩ := List.mem_map.mp hmem
  exact ⟨slot, hslot, item, hitem, hresult⟩

/-- A walk that comes to a slot that reads a temporary has been at one that computes it. -/
theorem computed_before {board : Board} (h : Blocks known (Boundary 0 blocks) 0 board.slots blocks)
    {earlier : List Nat} {t : Variable} (hvisits : board.Visits earlier x)
    (hreads : board.ReadsAt x t) (htemp : t.temp = true) :
    ∃ y ∈ earlier, board.ComputesAt y t := by
  obtain ⟨slot, hslot, item, hitem, hread⟩ := hreads
  obtain ⟨front, block, back, before, after, hblocks, hblock, hx, hfits⟩ := h.fits hslot hitem
  obtain ⟨operation, hoperation, hresult⟩ := (hfits.reads _ hread).computed t rfl htemp
  obtain ⟨q, hq⟩ := List.mem_iff_getElem?.mp hoperation
  obtain ⟨hlt, -⟩ := List.getElem?_eq_some_iff.mp hq
  have hlength : block.length = before.length + (after.length + 1) := by
    rw [hblock, List.length_append, List.length_cons]
  have hplace : blocks.flatten[front.flatten.length + q]? = some operation := by
    rw [hblocks, List.flatten_append, List.flatten_cons, List.getElem?_append_right (by omega),
      Nat.add_sub_cancel_left, List.getElem?_append_left (by omega), hblock,
      List.getElem?_append_left hlt, hq]
  -- the computing slot lies in the same block, and no walk enters the block behind it
  have hclear : ∀ n, front.flatten.length + q < n → n ≤ x → ¬ Boundary 0 blocks n := by
    intro n hlow hhigh hn
    rw [hblocks] at hn
    rcases hn.not_inside with hn | hn
    · omega
    · omega
  rcases hvisits.passes h.jumps hclear (by omega) (Nat.le_refl x) with heq | hmem
  · omega
  · exact ⟨_, hmem, h.computesAt hplace hresult⟩

end Blocks

namespace Module.Counted

variable {m : Module}

/-- Names of different scopes are different. -/
theorem apart (h : m.Counted) {i j : Nat} {xs ys : List String} {name : String} (hij : i ≠ j)
    (hi : m.nameLists[i]? = some xs) (hj : m.nameLists[j]? = some ys) (hx : name ∈ xs) :
    name ∉ ys := by
  have hpairwise := List.pairwise_iff_getElem.mp (List.nodup_flatten.mp h.names_nodup).2
  obtain ⟨hlt, rfl⟩ := List.getElem?_eq_some_iff.mp hi
  obtain ⟨hlt', rfl⟩ := List.getElem?_eq_some_iff.mp hj
  intro hy
  rcases Nat.lt_or_gt_of_ne hij with hless | hgreater
  · exact hpairwise i j hlt hlt' hless hx hy
  · exact hpairwise j i hlt' hlt hgreater hy hx

/-- A value that is known on one board is no value of another one. -/
theorem not_mem_other (h : m.Counted) {i j : Nat} {board other : Board} {v : Value} (hij : j ≠ i)
    (hboard : m.boards[i]? = some board) (hother : m.boards[j]? = some other)
    (hv : m.Knows board v) : v ∉ other.values := by
  have hnames : ∀ {k b}, m.boards[k]? = some b →
      m.nameLists[k + 1]? = some (b.values.map Value.name) := by
    intro k b hb
    rw [nameLists, List.getElem?_cons_succ, List.getElem?_map, hb]
    rfl
  intro hmem
  have hname : v.name ∈ other.values.map Value.name := List.mem_map_of_mem hmem
  rcases hv with hv | ⟨g, hg, rfl⟩
  · exact h.apart (by omega) (hnames hboard) (hnames hother) (List.mem_map_of_mem hv) hname
  · exact h.apart (i := 0) (by omega) rfl (hnames hother) (List.mem_map_of_mem hg) hname

end Module.Counted

/-- Whatever is lowered, and whatever is reported on the way: an item reads and writes only values of
its own board and variables of the module, and it writes no constant; and every walk from address 0
that comes to a slot which reads a temporary has been at a slot whose result is that temporary. -/
theorem operands_known_and_computed_before (name : String) (aliases : Kind.Aliases)
    (units : List SourceUnit) :
    let m := (units.foldl Lowering.unit (.start name aliases)).module
    ∀ (i : Nat) (board : Board), m.boards[i]? = some board →
      (∀ slot ∈ board.slots, ∀ item ∈ slot.items,
        (∀ v ∈ item.operation.reads ++ item.operation.writes,
          (v ∈ board.values ∨ ∃ g ∈ m.globals, v = .var g) ∧
            ∀ (j : Nat) (other : Board), j ≠ i → m.boards[j]? = some other → v ∉ other.values) ∧
        ∀ c, .const c ∉ item.operation.writes) ∧
      ∀ earlier x t, board.Visits earlier x → board.ReadsAt x t → t.temp = true →
        ∃ y ∈ earlier, board.ComputesAt y t := by
  intro m i board hboard
  have hcounted : m.Counted := Lowering.counted_of_units name aliases units
  obtain ⟨blocks, hblocks⟩ :=
    Lowering.blocked_of_units name aliases units board (List.mem_of_getElem? hboard)
  refine ⟨fun slot hslot item hitem => ?_, fun earlier x t hvisits hreads htemp => ?_⟩
  · obtain ⟨x, hx⟩ := List.mem_iff_getElem?.mp hslot
    obtain ⟨-, -, -, before, -, -, -, -, hfits⟩ := hblocks.fits hx hitem
    refine ⟨fun v hv => ?_, fun c hc => ?_⟩
    · have hknown : m.Knows board v := by
        rcases List.mem_append.mp hv with hread | hwrite
        · exact (hfits.reads v hread).known
        · exact (hfits.writes v hwrite).1
      exact ⟨hknown, fun j other hij hother => hcounted.not_mem_other hij hboard hother hknown⟩
    · obtain ⟨-, w, hw⟩ := hfits.writes _ hc
      cases hw
  · exact hblocks.computed_before hvisits hreads htemp

def waitingFunction : FuncDef where
  pos := {}
  name := "f"
  returnType := ["void"]
  storage := []
  params := [⟨{}, "a", ["int"], [], [], none⟩, ⟨{}, "b", ["int"], [], [], none⟩]
  bodyPos := {}
  body := [.forLoop {} none (some (.binary {} "<" (.ident {} "a") (.ident {} "b"))) none (.empty {})]

/-- A walk through one turn of the loop comes to the condition a second time. -/
theorem waitingFunction_condition_computed_before :
    let units : List SourceUnit := [⟨"u", [.func waitingFunction]⟩]
    let m := (units.foldl Lowering.unit (.start "m" [])).module
    let t := Variable.temporary "binary_op" "f" 2 .boolean {}
    ∃ board, m.boards[0]? = some board ∧ t.temp = true ∧ board.Visits [0, 1, 2, 3, 4, 2] 3 ∧
      board.ReadsAt 3 t ∧ ∃ y ∈ [0, 1, 2, 3, 4, 2], board.ComputesAt y t := by
  intro units m t
  have hboard : m.boards[0]? = some ((Lowering.start "m" []).finished waitingFunction).board := by
    decide +kernel
  have hreads : ((Lowering.start "m" []).finished waitingFunction).board.ReadsAt 3 t := by
    decide +kernel
  have hsteps : ∀ step ∈ [(0, 1), (1, 2), (2, 3), (3, 4), (4, 2)],
      ∃ slot ∈ ((Lowering.start "m" []).finished waitingFunction).board.slots[step.1]?,
        ((step.2 : Nat) : Int) ∈ slot.successors := by
    decide +kernel
  generalize ((Lowering.start "m" []).finished waitingFunction).board = board at hboard hreads hsteps
  simp only [List.forall_mem_cons] at hsteps
  obtain ⟨h01, h12, h23, h34, h42, -⟩ := hsteps
  have hvisits : board.Visits [0, 1, 2, 3, 4, 2] 3 :=
    .step (.step (.step (.step (.step (.step .start h01) h12) h23) h34) h42) h23
  refine ⟨board, hboard, rfl, hvisits, hreads, ?_⟩
  exact (operands_known_and_computed_before "m" [] units 0 board hboard).2 _ 3 t hvisits hreads rfl

end SlotBoard
