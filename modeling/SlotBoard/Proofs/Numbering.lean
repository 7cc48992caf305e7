import SlotBoard.Proofs.Names
import SlotBoard.Text.Decimal

/-!
The numbers in internal names. A name can be read back: what follows its last underscore is the
number it was drawn with, however the names it was made from are spelled. Lowering gives every number
it draws to one value and keeps that value, so the names in a module bear exactly the numbers below
its counter, each of them once, and no two names are equal.
-/
namespace SlotBoard

variable {α : Type}

def numberOf? (name : String) : Option Nat :=
  if '_' ∈ name.toList then Decimal.natural? (name.toList.reverse.takeWhile (· ≠ '_')).reverse
  else none

theorem Decimal.natural?_repr (n : Nat) : natural? n.repr.toList = some n := by
  have hempty : n.repr.toList.isEmpty = false := by
    rw [Nat.toList_repr]
    exact List.isEmpty_eq_false_iff.mpr Nat.toDigits_ne_nil
  have hdigits : n.repr.toList.all Char.isDigit = true :=
    List.all_eq_true.mpr fun c hc => isDigit_of_mem_repr hc
  have hvalue : n.repr.toList.foldl (fun n c => n * 10 + (c.toNat - '0'.toNat)) 0 = n := by
    have hread : Nat.ofDigitChars 10 (Nat.toDigits 10 n) 0 = n := Nat.ofDigitChars_ten_toDigits
    rw [← Nat.toList_repr] at hread
    simpa only [Nat.ofDigitChars, Nat.mul_comm 10] using hread
  rw [natural?, hempty, hdigits, hvalue]
  rfl

theorem numberOf?_stamp (stem owner : String) (n : Nat) :
    numberOf? (stamp stem owner n) = some n := by
  have hname : (stamp stem owner n).toList =
      (stem ++ "_" ++ owner).toList ++ '_' :: n.repr.toList := by
    have hstamp : stamp stem owner n = stem ++ "_" ++ owner ++ "_" ++ n.repr := rfl
    rw [hstamp]
    simp [String.toList_append]
  have hmem : '_' ∈ (stamp stem owner n).toList := by simp [hname]
  have hlast : ((stamp stem owner n).toList.reverse.takeWhile (· ≠ '_')).reverse =
      n.repr.toList := by
    rw [hname, List.reverse_append, List.reverse_cons, List.append_assoc,
      List.takeWhile_append_of_pos]
    · simp
    · intro c hc
      have hdigit := isDigit_of_mem_repr (List.mem_reverse.mp hc)
      have hne : c ≠ '_' := by
        rintro rfl
        exact absurd hdigit (by decide)
      simpa using hne
  rw [numberOf?, if_pos hmem, hlast, Decimal.natural?_repr]

theorem numberOf?_temporary (stem owner : String) (n : Nat) (kind : Kind) (flags : Flags) :
    numberOf? (Value.var (.temporary stem owner n kind flags)).name = some n := by
  simp only [Value.name, Variable.temporary, numberOf?_stamp]

theorem numberOf?_declared (source owner scope : String) (n : Nat) (kind : Kind) (flags : Flags) :
    numberOf? (Value.var (.declared source owner scope n kind flags)).name = some n := by
  simp only [Value.name, Variable.declared, numberOf?_stamp]

theorem numberOf?_constant (owner : String) (n : Nat) (kind : Kind) (literal : String) :
    numberOf? (Value.const (.numbered owner n kind literal)).name = some n := by
  simp only [Value.name, Constant.numbered, numberOf?_stamp]

namespace Draft

/-- The values that the later draft has more bear the numbers drawn in between, in their order. -/
def Draws (d e : Draft) : Prop :=
  ∃ values, e.board.values = d.board.values ++ values ∧ e.counter = d.counter + values.length ∧
    values.map (fun v => numberOf? v.name) = (List.range' d.counter values.length).map some

namespace Draws

theorem of_eq {d e : Draft} (hvalues : e.board.values = d.board.values)
    (hcounter : e.counter = d.counter) : d.Draws e :=
  ⟨[], by simpa using hvalues, hcounter, rfl⟩

theorem trans {a b c : Draft} (hab : a.Draws b) (hbc : b.Draws c) : a.Draws c := by
  obtain ⟨xs, hxs, hb, hnumbers⟩ := hab
  obtain ⟨ys, hys, hc, hnumbers'⟩ := hbc
  refine ⟨xs ++ ys, ?_, ?_, ?_⟩
  · rw [hys, hxs, List.append_assoc]
  · rw [hc, hb, List.length_append, Nat.add_assoc]
  · rw [hb] at hnumbers'
    rw [List.map_append, hnumbers, hnumbers', ← List.map_append, List.range'_append_1,
      List.length_append]

theorem introduce (make : String → Nat → α) (toValue : α → Value)
    (hmake : ∀ owner n, numberOf? (toValue (make owner n)).name = some n) :
    Keeps Draws (introduce make toValue) := by
  intro d
  refine ⟨[toValue (make d.board.name d.counter)], rfl, rfl, ?_⟩
  exact congrArg (· :: []) (hmake d.board.name d.counter)

theorem slotBlind (ctx : Context) : SlotBlind ctx Draws where
  refl _ := of_eq rfl rfl
  trans := trans
  temporary _ _ := introduce _ _ fun _ _ => numberOf?_temporary _ _ _ _ _
  constant _ _ := introduce _ _ fun _ _ => numberOf?_constant _ _ _ _
  report _ _ _ _ := of_eq rfl rfl
  emit _ _ _ := of_eq rfl rfl
  slots _ _ := of_eq rfl rfl
  declare scope source kind flags d := by
    rw [after_declare?]
    split
    · exact of_eq rfl rfl
    · exact introduce _ _ (fun _ _ => numberOf?_declared _ _ _ _ _ _) d

end Draws
end Draft

namespace Module

def nameLists (m : Module) : List (List String) :=
  m.globals.map Variable.name :: m.boards.map fun b => b.values.map Value.name

def names (m : Module) : List String := m.nameLists.flatten

/-- The names in a module bear the numbers below its counter, each of them once and in each scope in
ascending order. -/
structure Counted (m : Module) : Prop where
  all : (m.names.map numberOf?).Perm ((List.range m.counter).map some)
  ascending : ∀ names ∈ m.nameLists, ∃ numbers : List Nat,
    names.map numberOf? = numbers.map some ∧ numbers.Pairwise (· < ·)

namespace Counted

variable {m : Module}

theorem names_nodup (h : m.Counted) : m.names.Nodup := by
  have hnumbers : ((List.range m.counter).map some).Nodup :=
    List.nodup_range.map fun _ _ h => Option.some.inj h
  exact List.Nodup.of_map numberOf? (h.all.nodup_iff.mpr hnumbers)

theorem number_lt (h : m.Counted) {name : String} {n : Nat} (hname : name ∈ m.names)
    (hn : numberOf? name = some n) : n < m.counter := by
  have hmem : some n ∈ m.names.map numberOf? := hn ▸ List.mem_map_of_mem hname
  have hrange := h.all.mem_iff.mp hmem
  simpa using hrange

/-- A variable of the module that bears the next number. -/
theorem addGlobal (h : m.Counted) {v : Variable} (hv : numberOf? v.name = some m.counter) :
    Counted { m with globals := m.globals ++ [v], counter := m.counter + 1 } where
  all := by
    have hswap : (m.globals.map Variable.name ++ [v.name] ++
        (m.boards.map fun b => b.values.map Value.name).flatten).Perm (m.names ++ [v.name]) := by
      rw [names, nameLists, List.flatten_cons, List.append_assoc, List.append_assoc]
      exact List.perm_append_comm.append_left _
    have hnumbers : ((m.names ++ [v.name]).map numberOf?).Perm
        ((List.range (m.counter + 1)).map some) := by
      rw [List.range_succ, List.map_append, List.map_append]
      refine h.all.append ?_
      simp [hv]
    simpa [names, nameLists] using (hswap.map numberOf?).trans hnumbers
  ascending names hnames := by
    rcases List.mem_cons.mp hnames with rfl | hboard
    · obtain ⟨numbers, hnumbers, hascending⟩ :=
        h.ascending (m.globals.map Variable.name) List.mem_cons_self
      refine ⟨numbers ++ [m.counter], ?_, List.pairwise_append.mpr ⟨hascending, ?_, ?_⟩⟩
      · simp only [List.map_append, hnumbers, List.map_cons, List.map_nil, hv]
      · exact List.pairwise_singleton _ _
      · intro n hn k hk
        rw [List.mem_singleton.mp hk]
        have hmem : some n ∈ (m.globals.map Variable.name).map numberOf? :=
          hnumbers ▸ List.mem_map_of_mem hn
        obtain ⟨name, hname, hnumber⟩ := List.mem_map.mp hmem
        exact h.number_lt (List.mem_flatten_of_mem List.mem_cons_self hname) hnumber
    · exact h.ascending names (List.mem_cons_of_mem _ hboard)

/-- A board whose values bear the next numbers. -/
theorem addBoard (h : m.Counted) {b : Board}
    (hb : b.values.map (fun v => numberOf? v.name) =
      (List.range' m.counter b.values.length).map some) :
    Counted { m with boards := m.boards ++ [b], counter := m.counter + b.values.length } where
  all := by
    have hrange : List.range (m.counter + b.values.length) =
        List.range m.counter ++ List.range' m.counter b.values.length := by
      rw [List.range_eq_range', List.range_eq_range', ← List.range'_append_1, Nat.zero_add]
    have hall := h.all.append_right ((List.range' m.counter b.values.length).map some)
    rw [← List.map_append, ← hrange, ← hb] at hall
    simpa [names, nameLists, Function.comp_def] using hall
  ascending names hnames := by
    rw [nameLists, List.map_append, ← List.cons_append, List.mem_append] at hnames
    rcases hnames with hold | hnew
    · exact h.ascending names hold
    · obtain rfl : names = b.values.map Value.name := by simpa using hnew
      refine ⟨List.range' m.counter b.values.length, ?_, List.pairwise_lt_range' 1⟩
      rw [List.map_map]
      exact hb

end Counted
end Module

namespace Lowering

theorem finished_counted (l : Lowering) (f : FuncDef) :
    (l.finished f).counter = l.module.counter + (l.finished f).board.values.length ∧
      (l.finished f).board.values.map (fun v => numberOf? v.name) =
        (List.range' l.module.counter (l.finished f).board.values.length).map some := by
  obtain ⟨values, hvalues, hcounter, hnumbers⟩ :=
    (Draft.Draws.slotBlind (l.context f)).function l.module.name f (l.blank f)
  have hall : (l.finished f).board.values = values := hvalues
  rw [hall]
  exact ⟨hcounter, hnumbers⟩

theorem Takes.counted {l m : Lowering} {t : TopLevel} (h : l.Takes t m) (hl : l.module.Counted) :
    m.module.Counted := by
  cases h with
  | refused diagnostic h => exact hl
  | board f h =>
    obtain ⟨hcounter, hnumbers⟩ := l.finished_counted f
    rw [hcounter]
    exact hl.addBoard hnumbers
  | global d diagnostics h hinit => exact hl.addGlobal (numberOf?_declared _ _ _ _ _ _)

theorem start_counted (name : String) (aliases : Kind.Aliases) :
    (start name aliases).module.Counted where
  all := List.Perm.refl _
  ascending names hnames := by
    obtain rfl : names = [] := by simpa [Module.nameLists, start] using hnames
    exact ⟨[], rfl, List.Pairwise.nil⟩

theorem counted_of_units (name : String) (aliases : Kind.Aliases) (units : List SourceUnit) :
    (units.foldl unit (start name aliases)).module.Counted :=
  units_induction (P := fun l => l.module.Counted) name aliases (start_counted name aliases)
    (fun l t h => (l.topLevel_takes t).counted h) units

end Lowering

/-- Whatever is lowered, and whatever is reported on the way, the numbers after the last underscores
of all names in the module are those below its counter, each of them once; in the module's own list
and in the list of every board they ascend; and no two names are equal. -/
theorem names_bear_all_numbers (name : String) (aliases : Kind.Aliases) (units : List SourceUnit) :
    let m := (units.foldl Lowering.unit (.start name aliases)).module
    (m.names.map numberOf?).Perm ((List.range m.counter).map some) ∧
      (∀ names ∈ m.nameLists, ∃ numbers : List Nat,
        names.map numberOf? = numbers.map some ∧ numbers.Pairwise (· < ·)) ∧
      m.names.Nodup := by
  intro m
  have hcounted : m.Counted := Lowering.counted_of_units name aliases units
  exact ⟨hcounted.all, hcounted.ascending, hcounted.names_nodup⟩

end SlotBoard
