import SlotBoard.Proofs.Machine
import SlotBoard.Proofs.TwoPass
import Mathlib.Data.List.Nodup

/-!
Internal names. Each ends in the number it was drawn with, and no number is drawn twice, so a
temporary never shares its name with a variable, not even with one that is declared later. Code that
writes only names it has drawn itself leaves everything else in memory as it was.
-/
namespace SlotBoard

variable {V : Type}

def Numbered (n : Nat) (name : String) : Prop := ∃ stem owner, name = stamp stem owner n

theorem isDigit_of_mem_repr {n : Nat} {c : Char} (h : c ∈ n.repr.toList) : c.isDigit = true := by
  rw [Nat.toList_repr] at h
  exact Nat.isDigit_of_mem_toDigits (by omega) (by omega) h

/-- The digits at the end of a name are its number. -/
theorem takeWhile_stamp (stem owner : String) (n : Nat) :
    (stamp stem owner n).toList.reverse.takeWhile Char.isDigit = n.repr.toList.reverse := by
  have hname : (stamp stem owner n).toList.reverse =
      n.repr.toList.reverse ++ '_' :: (stem ++ "_" ++ owner).toList.reverse := by
    have hstamp : stamp stem owner n = stem ++ "_" ++ owner ++ "_" ++ n.repr := rfl
    rw [hstamp]
    simp [String.toList_append]
  rw [hname, List.takeWhile_append_of_pos]
  · simp
  · intro c hc
    exact isDigit_of_mem_repr (List.mem_reverse.mp hc)

theorem Numbered.unique {m n : Nat} {name : String} (hm : Numbered m name) (hn : Numbered n name) :
    m = n := by
  obtain ⟨stem, owner, hm⟩ := hm
  obtain ⟨stem', owner', hn⟩ := hn
  have hdigits := takeWhile_stamp stem owner m
  rw [← hm, hn, takeWhile_stamp stem' owner' n] at hdigits
  have hrepr := List.reverse_injective hdigits
  rw [Nat.toList_repr, Nat.toList_repr] at hrepr
  have hvalue := congrArg (fun digits => Nat.ofDigitChars 10 digits 0) hrepr
  simp only [Nat.ofDigitChars_ten_toDigits] at hvalue
  exact hvalue.symm

theorem Scope.numbered_temporary (σ : Scope) (stem : String) (kind : Kind) :
    Numbered σ.counter (σ.temporary stem kind).name := ⟨stem, σ.owner, rfl⟩

theorem Scope.numbered_variableOf (σ : Scope) (stem : String) (flags : Flags) (d : Decl) :
    Numbered σ.counter (σ.variableOf stem flags d).name := ⟨d.name, stem, rfl⟩

/-- Two memories that differ at most in names whose number lies from `lo` up to `hi`. -/
def Frame (lo hi : Nat) (μ μ' : Memory V) : Prop :=
  ∀ name, (∀ n, Numbered n name → n < lo ∨ hi ≤ n) → μ' name = μ name

namespace Frame

variable {lo mid hi : Nat} {μ μ' μ'' : Memory V}

theorem refl (lo hi : Nat) (μ : Memory V) : Frame lo hi μ μ := fun _ _ => rfl

theorem trans (h : Frame lo mid μ μ') (h' : Frame mid hi μ' μ'') (hlo : lo ≤ mid) (hhi : mid ≤ hi) :
    Frame lo hi μ μ'' := by
  intro name hname
  rw [h' name, h name]
  · intro n hn
    have := hname n hn
    omega
  · intro n hn
    have := hname n hn
    omega

theorem update {name : String} (hname : Numbered lo name) (μ : Memory V) (x : V) :
    Frame lo (lo + 1) μ (Function.update μ name x) := by
  intro other hother
  have hne : other ≠ name := by
    rintro rfl
    have := hother lo hname
    omega
  exact Function.update_of_ne hne x μ

/-- A name with a number outside the range keeps its value. -/
theorem at_number (h : Frame lo hi μ μ') {name : String} {n : Nat} (hname : Numbered n name)
    (hn : n < lo ∨ hi ≤ n) : μ' name = μ name := by
  refine h name fun m hm => ?_
  rwa [hm.unique hname]

end Frame

namespace Scope

/-- One scope of a function is later than another: it has the variables of the earlier one and such
with a later number. -/
structure Before (σ τ : Scope) : Prop where
  ctx : τ.ctx = σ.ctx
  counter : σ.counter ≤ τ.counter
  locals : σ.locals <+: τ.locals
  later : ∀ v ∈ τ.locals, v ∈ σ.locals ∨ ∃ n, σ.counter ≤ n ∧ Numbered n v.name

namespace Before

theorem refl (σ : Scope) : σ.Before σ :=
  ⟨rfl, Nat.le_refl _, List.prefix_refl _, fun _ hv => Or.inl hv⟩

theorem trans {a b c : Scope} (hab : a.Before b) (hbc : b.Before c) : a.Before c where
  ctx := hbc.ctx.trans hab.ctx
  counter := Nat.le_trans hab.counter hbc.counter
  locals := hab.locals.trans hbc.locals
  later v hv := by
    rcases hbc.later v hv with hb | ⟨n, hn, hname⟩
    · exact hab.later v hb
    · exact Or.inr ⟨n, Nat.le_trans hab.counter hn, hname⟩

theorem skip (σ : Scope) (n : Nat) : σ.Before (σ.skip n) :=
  ⟨rfl, Nat.le_add_right _ _, List.prefix_refl _, fun _ hv => Or.inl hv⟩

theorem add (σ : Scope) (v : Variable) (hv : Numbered σ.counter v.name) : σ.Before (σ.add v) where
  ctx := rfl
  counter := Nat.le_succ _
  locals := List.prefix_append _ _
  later w hw := by
    rcases List.mem_append.mp hw with hw | hw
    · exact Or.inl hw
    · rw [List.mem_singleton.mp hw]
      exact Or.inr ⟨σ.counter, Nat.le_refl _, hv⟩

end Before
end Scope

mutual

theorem Stmt.before_past : ∀ (s : Stmt) (σ : Scope), σ.Before (s.past σ)
  | .block _ items, σ => Stmt.before_pastAll items σ
  | .decl d, σ => (Scope.Before.add σ _ (σ.numbered_variableOf _ _ d)).trans (.skip _ _)
  | .ret .., σ => .skip σ _
  | .ifThen _ _ thenBranch elseBranch, σ =>
    (Scope.Before.skip σ _).trans
      ((thenBranch.before_past _).trans (Stmt.before_pastOption elseBranch _))
  | .forLoop _ init _ next body, σ =>
    (Stmt.before_pastOption init σ).trans
      ((Scope.Before.skip _ _).trans ((body.before_past _).trans (Stmt.before_pastOption next _)))
  | .switch _ _ body, σ => (Scope.Before.skip σ _).trans (body.before_past _)
  | .caseOf _ _ stmts, σ => (Scope.Before.skip σ _).trans (Stmt.before_pastAll stmts _)
  | .otherwise _ stmts, σ => Stmt.before_pastAll stmts σ
  | .leave _, σ | .unknown .., σ | .empty _, σ => .refl σ
  | .expr .., σ => .skip σ _
termination_by structural s => s

theorem Stmt.before_pastAll : ∀ (ss : List Stmt) (σ : Scope), σ.Before (Stmt.pastAll σ ss)
  | [], σ => .refl σ
  | s :: ss, σ => (s.before_past σ).trans (Stmt.before_pastAll ss _)
termination_by structural ss => ss

theorem Stmt.before_pastOption :
    ∀ (s : Option Stmt) (σ : Scope), σ.Before (Stmt.pastOption σ s)
  | none, σ => .refl σ
  | some s, σ => s.before_past σ
termination_by structural s => s

end

end SlotBoard
