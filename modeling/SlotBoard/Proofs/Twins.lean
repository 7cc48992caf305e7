import Mathlib.Data.List.Forall2
import Mathlib.Tactic.SplitIfs
import SlotBoard.Proofs.Function

/-!
Twin drafts. Two contexts that offer a function the same variables and the same functions, by name and
by kind, are its surroundings in two modules. The drafts in which it is lowered there are twins: their
values were drawn in the same order with other numbers, and their code is the same up to operands that
correspond to each other, which are values drawn at the same point or variables of the modules that
bear one name.
-/
namespace SlotBoard

variable {α β : Type}

theorem rel_imp {R S : α → β → Prop} {a : Option α} {b : Option β} (h : Option.Rel R a b)
    (himp : ∀ x y, R x y → S x y) : Option.Rel S a b := by
  cases h with
  | some hxy => exact .some (himp _ _ hxy)
  | none => exact .none

theorem getElem?_of_initial {xs ys : List α} (h : xs <+: ys) {k : Nat} {a : α}
    (hk : xs[k]? = some a) : ys[k]? = some a := by
  obtain ⟨hlt, rfl⟩ := List.getElem?_eq_some_iff.mp hk
  exact List.prefix_iff_getElem?.mp h k hlt

/-- One value drawn twice: the numbers may differ, and all else is the same. -/
inductive Value.Redrawn (m n : Nat) : Value → Value → Prop
  | declared (source owner scope : String) (kind : Kind) (flags : Flags) :
      Redrawn m n (.var (.declared source owner scope m kind flags))
        (.var (.declared source owner scope n kind flags))
  | temporary (stem owner : String) (kind : Kind) (flags : Flags) :
      Redrawn m n (.var (.temporary stem owner m kind flags))
        (.var (.temporary stem owner n kind flags))
  | constant (owner : String) (kind : Kind) (literal : String) :
      Redrawn m n (.const (.numbered owner m kind literal)) (.const (.numbered owner n kind literal))

/-- Two lists of values that were drawn in the same order, each from a number of its own on. -/
inductive RedrawnFrom : Nat → Nat → List Value → List Value → Prop
  | nil (m n : Nat) : RedrawnFrom m n [] []
  | cons {m n : Nat} {v w : Value} {vs ws : List Value} (hv : v.Redrawn m n w)
      (h : RedrawnFrom (m + 1) (n + 1) vs ws) : RedrawnFrom m n (v :: vs) (w :: ws)

def findDeclared (source : String) (values : List Value) : Option Variable :=
  ((values.filterMap Value.toVariable?).filter fun v => !v.temp).find? fun v => v.source = source

theorem findDeclared_cons (source name owner scope : String) (n : Nat) (kind : Kind) (flags : Flags)
    (values : List Value) :
    findDeclared source (.var (.declared name owner scope n kind flags) :: values) =
      if name = source then some (.declared name owner scope n kind flags)
      else findDeclared source values := by
  by_cases hname : name = source <;>
    simp [findDeclared, Value.toVariable?, Variable.declared, hname]

namespace RedrawnFrom

variable {m n : Nat} {vs ws : List Value}

theorem length_eq (h : RedrawnFrom m n vs ws) : vs.length = ws.length := by
  induction h with
  | nil m n => rfl
  | cons hv h ih => rw [List.length_cons, List.length_cons, ih]

theorem concat (h : RedrawnFrom m n vs ws) {v w : Value}
    (hv : v.Redrawn (m + vs.length) (n + ws.length) w) :
    RedrawnFrom m n (vs ++ [v]) (ws ++ [w]) := by
  induction h with
  | nil m n => exact .cons hv (.nil _ _)
  | cons hu h ih =>
    refine .cons hu (ih ?_)
    simp only [List.length_cons, ← Nat.add_assoc, Nat.add_right_comm _ _ 1] at hv
    exact hv

/-- A source name refers to values at the same position, or to nothing in both lists. -/
theorem findDeclared (h : RedrawnFrom m n vs ws) (source : String) :
    Option.Rel (fun v w => ∃ k, vs[k]? = some (.var v) ∧ ws[k]? = some (.var w) ∧
      (Value.var v).Redrawn (m + k) (n + k) (.var w))
      (SlotBoard.findDeclared source vs) (SlotBoard.findDeclared source ws) := by
  induction h with
  | nil m n => exact .none
  | @cons m n v w vs ws hv h ih =>
    -- A value that does not bear the name is passed over in both lists.
    have hlater : Option.Rel (fun x y => ∃ k, (v :: vs)[k]? = some (.var x) ∧
        (w :: ws)[k]? = some (.var y) ∧ (Value.var x).Redrawn (m + k) (n + k) (.var y))
        (SlotBoard.findDeclared source vs) (SlotBoard.findDeclared source ws) := by
      refine rel_imp ih fun x y hxy => ?_
      obtain ⟨k, hx, hy, hdrawn⟩ := hxy
      refine ⟨k + 1, hx, hy, ?_⟩
      simpa only [Nat.add_assoc, Nat.add_comm 1] using hdrawn
    cases hv with
    | temporary stem owner kind flags => exact hlater
    | constant owner kind literal => exact hlater
    | declared name owner scope kind flags =>
      rw [findDeclared_cons, findDeclared_cons]
      split_ifs
      · exact .some ⟨0, rfl, rfl, .declared name owner scope kind flags⟩
      · exact hlater

end RedrawnFrom

/-- What the operands of a board are taken from: the variables of the module, and the board's own
values, the first of which has the given number. -/
structure Supply where
  globals : List Variable
  first : Nat
  values : List Value

/-- Operands of two boards that correspond to each other: values of the boards that were drawn at the
same point, or the variables of the modules that one name refers to. -/
inductive Value.Corresponds (s t : Supply) : Value → Value → Prop
  | owned {v w : Value} (k : Nat) (hv : s.values[k]? = some v) (hw : t.values[k]? = some w)
      (h : v.Redrawn (s.first + k) (t.first + k) w) : Corresponds s t v w
  | global {v w : Variable} (source : String)
      (hv : s.globals.find? (fun g => g.source = source) = some v)
      (hw : t.globals.find? (fun g => g.source = source) = some w) : Corresponds s t (.var v) (.var w)

section Alike

variable {R S : Value → Value → Prop}

/-- Two operations of one form, with related operands. -/
inductive Operation.Alike (R : Value → Value → Prop) : Operation → Operation → Prop
  | assign {a a' b b' : Value} (ha : R a a') (hb : R b b') : Alike R (.assign a b) (.assign a' b')
  | binary (opcode : Opcode) {a a' b b' : Value} {r r' : Variable} (ha : R a a') (hb : R b b')
      (hr : R (.var r) (.var r')) : Alike R (.binary opcode a b r) (.binary opcode a' b' r')
  | call (callee : String) {args args' : List Value} {r r' : Variable}
      (hargs : List.Forall₂ R args args') (hr : R (.var r) (.var r')) :
      Alike R (.call callee args r) (.call callee args' r')
  | ret {v v' : Option Value} (h : Option.Rel R v v') : Alike R (.ret v) (.ret v')
  | jumpIfTrue {c c' : Value} (h : R c c') : Alike R (.jumpIfTrue c) (.jumpIfTrue c')
  | jump : Alike R .jump .jump
  | select {key key' : Value} {cases cases' : List Value} (hkey : R key key')
      (hcases : List.Forall₂ R cases cases') : Alike R (.select key cases) (.select key' cases')
  | entry : Alike R .entry .entry
  | exit : Alike R .exit .exit

/-- Two items of one form, with the same successors and related operands. -/
structure Item.Alike (R : Value → Value → Prop) (i j : Item) : Prop where
  operation : i.operation.Alike R j.operation
  next : i.next = j.next

/-- Two slots of one address, with items of the same forms. -/
structure Slot.Alike (R : Value → Value → Prop) (s t : Slot) : Prop where
  address : s.address = t.address
  items : List.Forall₂ (Item.Alike R) s.items t.items

namespace Operation.Alike

theorem imp {x y : Operation} (h : x.Alike R y) (himp : ∀ v w, R v w → S v w) : x.Alike S y := by
  cases h with
  | assign ha hb => exact .assign (himp _ _ ha) (himp _ _ hb)
  | binary opcode ha hb hr => exact .binary opcode (himp _ _ ha) (himp _ _ hb) (himp _ _ hr)
  | call callee hargs hr => exact .call callee (hargs.imp himp) (himp _ _ hr)
  | ret h => exact .ret (rel_imp h himp)
  | jumpIfTrue h => exact .jumpIfTrue (himp _ _ h)
  | jump => exact .jump
  | select hkey hcases => exact .select (himp _ _ hkey) (hcases.imp himp)
  | entry => exact .entry
  | exit => exact .exit

theorem branches_eq {x y : Operation} (h : x.Alike R y) : x.branches = y.branches := by
  cases h <;> rfl

end Operation.Alike

theorem Item.Alike.imp {i j : Item} (h : i.Alike R j) (himp : ∀ v w, R v w → S v w) : i.Alike S j :=
  ⟨h.operation.imp himp, h.next⟩

namespace Slot.Alike

variable {s t : Slot}

theorem imp (h : s.Alike R t) (himp : ∀ v w, R v w → S v w) : s.Alike S t :=
  ⟨h.address, h.items.imp fun _ _ hi => hi.imp himp⟩

theorem push (h : s.Alike R t) {i j : Item} (hi : i.Alike R j) : (s.push i).Alike R (t.push j) where
  address := h.address
  items := by
    have hbranches : i.branches = j.branches := hi.operation.branches_eq
    refine List.rel_append h.items (.cons ?_ .nil)
    rw [hbranches, h.address]
    split
    · exact hi
    · exact ⟨hi.operation, rfl⟩

theorem last? (h : s.Alike R t) : Option.Rel (Item.Alike R) s.last? t.last? := by
  have hreverse : List.Forall₂ (Item.Alike R) s.items.reverse t.items.reverse :=
    List.rel_reverse h.items
  unfold Slot.last?
  rw [List.getLast?_eq_head?_reverse, List.getLast?_eq_head?_reverse]
  generalize s.items.reverse = is at hreverse
  generalize t.items.reverse = js at hreverse
  cases hreverse with
  | nil => exact .none
  | cons hi _ => exact .some hi

theorem isOpen_eq (h : s.Alike R t) : s.isOpen = t.isOpen := by
  have hlast := h.last?
  unfold isOpen
  generalize s.last? = i at hlast
  generalize t.last? = j at hlast
  cases hlast with
  | none => rfl
  | @some i j hi =>
    obtain ⟨x, next⟩ := i
    obtain ⟨y, next'⟩ := j
    obtain ⟨hxy, rfl : next = next'⟩ := hi
    dsimp only [Item.branches]
    rw [h.address]
    cases hxy <;> rfl

theorem retarget (h : s.Alike R t) (target : Int) : (s.retarget target).Alike R (t.retarget target) :=
  ⟨h.address, List.rel_map (fun _ _ hi => ⟨hi.operation, rfl⟩) h.items⟩

end Slot.Alike

theorem forall₂_modify {f g : Slot → Slot} (hf : ∀ s t, Slot.Alike R s t → Slot.Alike R (f s) (g t))
    {ss ts : List Slot} (h : List.Forall₂ (Slot.Alike R) ss ts) (position : Nat) :
    List.Forall₂ (Slot.Alike R) (ss.modify position f) (ts.modify position g) := by
  induction h generalizing position with
  | nil => cases position <;> exact .nil
  | cons hst h ih =>
    cases position with
    | zero => exact .cons (hf _ _ hst) h
    | succ position => exact .cons hst (ih position)

end Alike

/-- Two contexts that a function cannot tell apart: the same type aliases, and the same variables and
functions, by name and by kind. The first value of the function has a number of its own in each. -/
structure Surroundings where
  left : Context
  right : Context
  leftFirst : Nat
  rightFirst : Nat
  aliases : left.aliases = right.aliases
  isPrivate : left.isPrivate = right.isPrivate
  globals : ∀ source, (left.globals.find? fun v => v.source = source).map Variable.kind =
    (right.globals.find? fun v => v.source = source).map Variable.kind
  signatures : ∀ callee, left.signatures.lookup callee = right.signatures.lookup callee
  leftPlain : left.Plain
  rightPlain : right.Plain

namespace Surroundings

def Operands (p : Surroundings) (d e : Draft) : Value → Value → Prop :=
  Value.Corresponds ⟨p.left.globals, p.leftFirst, d.board.values⟩
    ⟨p.right.globals, p.rightFirst, e.board.values⟩

variable {p : Surroundings} {d e d' e' : Draft}

namespace Operands

variable {v w : Value}

theorem mono (h : p.Operands d e v w) (hd : d.board.values <+: d'.board.values)
    (he : e.board.values <+: e'.board.values) : p.Operands d' e' v w := by
  cases h with
  | owned k hv hw hdrawn =>
    exact .owned k (getElem?_of_initial hd hv) (getElem?_of_initial he hw) hdrawn
  | global source hv hw => exact .global source hv hw

theorem kind_eq (h : p.Operands d e v w) : v.kind = w.kind := by
  cases h with
  | owned k hv hw hdrawn => cases hdrawn <;> rfl
  | global source hv hw =>
    have hkind := p.globals source
    rw [hv, hw] at hkind
    exact Option.some.inj hkind

/-- What a lowering can see of an operand is whether it is a variable, and then whether it is a
temporary. -/
theorem form (h : p.Operands d e v w) :
    (∃ x y, v = .var x ∧ w = .var y ∧ x.temp = y.temp) ∨ ∃ b c, v = .const b ∧ w = .const c := by
  cases h with
  | owned k hv hw hdrawn =>
    cases hdrawn with
    | declared source owner scope kind flags => exact Or.inl ⟨_, _, rfl, rfl, rfl⟩
    | temporary stem owner kind flags => exact Or.inl ⟨_, _, rfl, rfl, rfl⟩
    | constant owner kind literal => exact Or.inr ⟨_, _, rfl, rfl⟩
  | @global x y source hv hw =>
    have hx := p.leftPlain x (List.mem_of_find?_eq_some hv)
    have hy := p.rightPlain y (List.mem_of_find?_eq_some hw)
    exact Or.inl ⟨x, y, rfl, rfl, hx.trans hy.symm⟩

end Operands

/-- The drafts of one function in its two surroundings. -/
structure Twin (p : Surroundings) (d e : Draft) : Prop where
  name : d.board.name = e.board.name
  kind : d.board.kind = e.board.kind
  values : RedrawnFrom p.leftFirst p.rightFirst d.board.values e.board.values
  leftCounter : d.counter = p.leftFirst + d.board.values.length
  rightCounter : e.counter = p.rightFirst + e.board.values.length
  slots : List.Forall₂ (Slot.Alike (p.Operands d e)) d.board.slots e.board.slots
  diagnostics : d.diagnostics = e.diagnostics

end Surroundings
end SlotBoard
