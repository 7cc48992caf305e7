import SlotBoard.Proofs.Meaning

/-!
The machine that runs a board. It carries out the item of the slot it is at and goes to the item's
successor; a conditional jump takes the first of its two successors if the condition holds. It stops
at a return, and where the last slot of the board jumps to address 0. The memory is addressed by the
internal names of variables.
-/
namespace SlotBoard

variable {V : Type}

abbrev Memory (V : Type) := String → V

def Value.read (I : Interpretation V) (μ : Memory V) : Value → V
  | var v => μ v.name
  | const c => I.literal c.kind c.literal
  | unset => μ ""

def Operation.apply (I : Interpretation V) (μ : Memory V) : Operation → Memory V
  | assign target source => Function.update μ target.name (source.read I μ)
  | binary opcode left right result =>
    Function.update μ result.name (I.operate opcode (left.read I μ) (right.read I μ))
  | call callee args result => Function.update μ result.name (I.call callee (args.map (·.read I μ)))
  | ret _ | jumpIfTrue _ | jump | select _ _ | entry | exit => μ

def applyAll (I : Interpretation V) (μ : Memory V) (operations : List Operation) : Memory V :=
  operations.foldl (Operation.apply I) μ

/-- What one step of the machine comes to. -/
inductive Progress (V : Type) where
  | goes (address : Int) (μ : Memory V)
  | stops (outcome : Outcome (Memory V) V)
  | stuck

def Item.step (I : Interpretation V) (μ : Memory V) (item : Item) : Progress V :=
  match item.operation, item.next with
  | .ret value, _ => .stops (.returned (value.map (·.read I μ)) μ)
  | .jumpIfTrue cond, [m, n] => .goes (if I.holds (cond.read I μ) then m else n) μ
  | operation, [n] => .goes n (operation.apply I μ)
  | _, _ => .stuck

namespace Board

variable (I : Interpretation V) (b : Board)

def step (a : Nat) (μ : Memory V) : Progress V :=
  match b.slots[a]? with
  | some ⟨_, [item]⟩ =>
    if a + 1 = b.slots.length ∧ item = .jump 0 then .stops (.finished μ) else item.step I μ
  | _ => .stuck

/-- Run the machine for at most some steps; none if it has not stopped by then. -/
def run : Nat → Nat → Memory V → Option (Outcome (Memory V) V)
  | 0, _, _ => none
  | n + 1, a, μ =>
    match b.step I a μ with
    | .stops outcome => some outcome
    | .goes address μ => if 0 ≤ address then run n address.toNat μ else none
    | .stuck => none

variable {I b}

theorem run_of_stops {a : Nat} {μ : Memory V} {outcome : Outcome (Memory V) V}
    (h : b.step I a μ = .stops outcome) (n : Nat) : b.run I (n + 1) a μ = some outcome := by
  rw [run, h]

theorem run_of_goes {a k : Nat} {μ μ' : Memory V} (h : b.step I a μ = .goes (k : Int) μ') (n : Nat) :
    b.run I (n + 1) a μ = b.run I n k μ' := by
  rw [run, h]
  simp

/-- More steps do not change how the machine stopped. -/
theorem run_mono {n a : Nat} {μ : Memory V} {outcome : Outcome (Memory V) V}
    (h : b.run I n a μ = some outcome) (m : Nat) : b.run I (n + m) a μ = some outcome := by
  induction n generalizing a μ with
  | zero => cases h
  | succ n ih =>
    rw [Nat.succ_add]
    rw [run] at h ⊢
    cases hstep : b.step I a μ with
    | stops o =>
      rw [hstep] at h
      exact h
    | stuck =>
      rw [hstep] at h
      cases h
    | goes address μ' =>
      rw [hstep] at h
      by_cases haddress : 0 ≤ address
      · simp only [if_pos haddress] at h ⊢
        exact ih h
      · simp only [if_neg haddress] at h
        cases h

theorem run_none_of_le {m n a : Nat} {μ : Memory V} (hle : m ≤ n) (h : b.run I n a μ = none) :
    b.run I m a μ = none := by
  cases hm : b.run I m a μ with
  | none => rfl
  | some outcome =>
    have hn := run_mono hm (n - m)
    rw [Nat.add_sub_cancel' hle, h] at hn
    cases hn

theorem run_unique {m n a : Nat} {μ : Memory V} {o o' : Outcome (Memory V) V}
    (h : b.run I m a μ = some o) (h' : b.run I n a μ = some o') : o = o' := by
  have hm := run_mono h n
  rw [Nat.add_comm, run_mono h' m] at hm
  exact (Option.some.inj hm).symm

variable (I b)

def Leads (j a : Nat) (μ : Memory V) (a' : Nat) (μ' : Memory V) : Prop :=
  ∀ n, b.run I (n + j) a μ = b.run I n a' μ'

variable {I b}

namespace Leads

variable {i j a a' a'' : Nat} {μ μ' μ'' : Memory V}

theorem refl (a : Nat) (μ : Memory V) : b.Leads I 0 a μ a μ := fun _ => rfl

theorem trans (h : b.Leads I i a μ a' μ') (h' : b.Leads I j a' μ' a'' μ'') :
    b.Leads I (j + i) a μ a'' μ'' := by
  intro n
  rw [← Nat.add_assoc, h, h']

theorem of_step (h : b.step I a μ = .goes (a' : Int) μ') : b.Leads I 1 a μ a' μ' :=
  run_of_goes h

end Leads

def Holds (b : Board) (a : Nat) (code : List Slot) : Prop :=
  ∀ j, j < code.length → b.slots[a + j]? = code[j]?

namespace Holds

variable {a : Nat} {xs ys : List Slot} {slot : Slot}

theorem left (h : b.Holds a (xs ++ ys)) : b.Holds a xs := by
  intro j hj
  rw [h j (by rw [List.length_append]; omega), List.getElem?_append_left hj]

theorem right (h : b.Holds a (xs ++ ys)) : b.Holds (a + xs.length) ys := by
  intro j hj
  rw [Nat.add_assoc, h (xs.length + j) (by rw [List.length_append]; omega),
    List.getElem?_append_right (Nat.le_add_right _ _), Nat.add_sub_cancel_left]

theorem head (h : b.Holds a (slot :: xs)) : b.slots[a]? = some slot :=
  h 0 (by simp)

theorem tail (h : b.Holds a (slot :: xs)) : b.Holds (a + 1) xs := by
  have hcode : b.Holds a ([slot] ++ xs) := h
  exact hcode.right

end Holds

/-- A slot with an item that goes on at a single address, which is not 0. -/
theorem step_goesOn {a k : Nat} {operation : Operation} (hop : operation.goesOn = true) (hk : 0 < k)
    (hslot : b.slots[a]? = some (Slot.single a ⟨operation, [(k : Int)]⟩)) (μ : Memory V) :
    b.step I a μ = .goes (k : Int) (operation.apply I μ) := by
  have hjump : ¬ (a + 1 = b.slots.length ∧ (⟨operation, [(k : Int)]⟩ : Item) = .jump 0) := by
    rintro ⟨-, hitem⟩
    have hnext := congrArg Item.next hitem
    simp only [Item.jump, List.cons.injEq, and_true] at hnext
    omega
  rw [step, hslot]
  simp only [Slot.single]
  rw [if_neg hjump]
  cases operation with
  | assign _ _ => rfl
  | binary _ _ _ _ => rfl
  | call _ _ _ => rfl
  | jump => rfl
  | _ => cases hop

theorem step_jumpIfTrue {a m n : Nat} {cond : Value}
    (hslot : b.slots[a]? = some (Slot.single a ⟨.jumpIfTrue cond, [(m : Int), (n : Int)]⟩))
    (μ : Memory V) :
    b.step I a μ = .goes ((if I.holds (cond.read I μ) then m else n : Nat) : Int) μ := by
  rw [step, hslot]
  simp only [Slot.single]
  rw [if_neg (by simp [Item.jump]), Item.step]
  dsimp only
  split <;> rfl

theorem step_ret {a : Nat} {value : Option Value}
    (hslot : b.slots[a]? = some (Slot.single a (.ret value))) (μ : Memory V) :
    b.step I a μ = .stops (.returned (value.map (·.read I μ)) μ) := by
  rw [step, hslot]
  simp only [Slot.single]
  rw [if_neg (by simp [Item.jump, Item.ret])]
  rfl

theorem step_entry {a k : Nat}
    (hslot : b.slots[a]? = some (Slot.single a ⟨.entry, [(k : Int)]⟩)) (μ : Memory V) :
    b.step I a μ = .goes (k : Int) μ := by
  rw [step, hslot]
  simp only [Slot.single]
  rw [if_neg (by simp [Item.jump])]
  rfl

/-- The machine stops at a final jump to address 0. -/
theorem step_end {slots : List Slot}
    (hslots : b.slots = slots ++ [Slot.single slots.length (.jump 0)]) (μ : Memory V) :
    b.step I slots.length μ = .stops (.finished μ) := by
  have hslot : b.slots[slots.length]? = some (Slot.single slots.length (.jump 0)) := by
    rw [hslots, List.getElem?_concat_length]
  have hlength : slots.length + 1 = b.slots.length := by
    rw [hslots, List.length_append, List.length_singleton]
  rw [step, hslot]
  exact if_pos ⟨hlength, rfl⟩

/-- Operations in slots of their own are carried out in order. -/
theorem Leads.place {a k : Nat} {operations : List Operation}
    (hops : ∀ operation ∈ operations, operation.computes = true) (hk : 0 < k)
    (hcode : b.Holds a (place a k operations)) (μ : Memory V) :
    b.Leads I operations.length (follow operations.length a k) μ k (applyAll I μ operations) := by
  induction operations generalizing a μ with
  | nil => exact Leads.refl k μ
  | cons operation operations ih =>
    obtain ⟨hop, hrest⟩ := List.forall_mem_cons.mp hops
    rw [place_cons] at hcode
    have hnext : 0 < follow operations.length (a + 1) k := by
      unfold follow
      split <;> omega
    have hstep := step_goesOn (I := I) (Operation.goesOn_of_computes hop) hnext hcode.head μ
    exact (Leads.of_step hstep).trans (ih hrest hcode.tail _)

end Board
end SlotBoard
