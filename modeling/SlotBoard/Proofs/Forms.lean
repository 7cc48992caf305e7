import SlotBoard.Proofs.Numbering
import SlotBoard.Text.Blank

/-!
Reading parenthesised text. A word ends where a character stands that words do not have. A form ends
where its parenthesis is closed: if the parentheses between them match, the closing one can be told
from those before it. A series of pieces ends where something stands that no piece begins with. Pieces
that tell what they say and where they end can be put one behind the other.
-/
namespace SlotBoard

variable {α κ : Type}

def unbracketed (s : String) : Bool := s.toList.all fun c => c ≠ '(' && c ≠ ')'

def breaks (c : Char) : Bool := isBlank c || c = '(' || c = ')'

def isWord (s : String) : Bool := s.toList.all fun c => !breaks c

def startsBroken : List Char → Bool
  | c :: _ => breaks c
  | [] => false

theorem unbracketed_of_isWord {s : String} (h : isWord s = true) : unbracketed s = true := by
  refine List.all_eq_true.mpr fun c hc => ?_
  have hword := List.all_eq_true.mp h c hc
  simp only [breaks, Bool.not_or, Bool.and_eq_true] at hword
  simp only [ne_eq, decide_not, Bool.and_eq_true]
  exact ⟨hword.1.2, hword.2⟩

theorem unbracketed_append {s t : String} (hs : unbracketed s = true) (ht : unbracketed t = true) :
    unbracketed (s ++ t) = true := by
  unfold unbracketed at hs ht ⊢
  rw [String.toList_append, List.all_append, hs, ht]
  rfl

theorem isWord_append (s t : String) : isWord (s ++ t) = (isWord s && isWord t) := by
  simp [isWord, String.toList_append]

theorem breaks_of_isDigit {c : Char} (h : c.isDigit = true) : breaks c = false := by
  have hrange : 48 ≤ c.toNat ∧ c.toNat ≤ 57 := by
    simp only [Char.isDigit, Bool.and_eq_true, decide_eq_true_eq] at h
    exact h
  have hblank : isBlank c = false := by
    simp only [isBlank, Bool.or_eq_false_iff, Bool.and_eq_false_iff, decide_eq_false_iff_not,
      beq_eq_false_iff_ne]
    omega
  have hopen : c ≠ '(' := by
    rintro rfl
    simp at hrange
  have hclose : c ≠ ')' := by
    rintro rfl
    simp at hrange
  simp [breaks, hblank, hopen, hclose]

theorem isWord_natRepr (n : Nat) : isWord n.repr = true := by
  refine List.all_eq_true.mpr fun c hc => ?_
  rw [breaks_of_isDigit (isDigit_of_mem_repr hc)]
  rfl

theorem isWord_intRepr (n : Int) : isWord n.repr = true := by
  cases n with
  | ofNat n => exact isWord_natRepr n
  | negSucc n => exact (isWord_append "-" (n + 1).repr).trans (isWord_natRepr (n + 1))

theorem natRepr_inj {m n : Nat} (h : m.repr = n.repr) : m = n := by
  have hread := Decimal.natural?_repr m
  rw [h, Decimal.natural?_repr n] at hread
  exact (Option.some.inj hread).symm

theorem natRepr_ne_minus (m n : Nat) : m.repr ≠ "-" ++ n.repr := by
  intro h
  have hmem : '-' ∈ m.repr.toList := by simp [h, String.toList_append]
  exact absurd (isDigit_of_mem_repr hmem) (by decide)

theorem intRepr_inj {m n : Int} (h : m.repr = n.repr) : m = n := by
  cases m with
  | ofNat m =>
    cases n with
    | ofNat n => exact congrArg Int.ofNat (natRepr_inj h)
    | negSucc n => exact absurd h (natRepr_ne_minus m (n + 1))
  | negSucc m =>
    cases n with
    | ofNat n => exact absurd h.symm (natRepr_ne_minus n (m + 1))
    | negSucc n =>
      have hminus : "-" ++ (m + 1).repr = "-" ++ (n + 1).repr := h
      have hrepr := String.toList_inj.mpr hminus
      rw [String.toList_append, String.toList_append] at hrepr
      have hsucc := natRepr_inj (String.toList_inj.mp (List.append_cancel_left hrepr))
      exact congrArg Int.negSucc (Nat.succ.inj hsucc)

theorem intRepr_ne_nil (n : Int) : n.repr.toList ≠ [] := by
  cases n with
  | ofNat n =>
    have hdigits : n.repr.toList ≠ [] := by
      rw [Nat.toList_repr]
      exact Nat.toDigits_ne_nil
    exact hdigits
  | negSucc n =>
    have hminus : ("-" ++ (n + 1).repr).toList ≠ [] := by simp [String.toList_append]
    exact hminus

/-- A word ends where something stands that words do not have. -/
theorem word_inj {u v : String} (hu : isWord u = true) (hv : isWord v = true) {r s : List Char}
    (hr : startsBroken r = true) (hs : startsBroken s = true) (h : u.toList ++ r = v.toList ++ s) :
    u = v ∧ r = s := by
  have hfront : ∀ {w : String} {t : List Char}, isWord w = true → startsBroken t = true →
      (w.toList ++ t).takeWhile (fun c => !breaks c) = w.toList := by
    intro w t hw ht
    rw [List.takeWhile_append_of_pos (List.all_eq_true.mp hw)]
    cases t with
    | nil => cases ht
    | cons c t =>
      have hc : breaks c = true := ht
      simp [hc]
  have hlist := hfront hu hr
  rw [h, hfront hv hs] at hlist
  have huv : u = v := String.toList_inj.mp hlist.symm
  subst huv
  exact ⟨rfl, List.append_cancel_left h⟩

/-- Text whose parentheses match. -/
inductive Level : List Char → Prop
  | nil : Level []
  | plain {c : Char} {u : List Char} (hopen : c ≠ '(') (hclose : c ≠ ')') (h : Level u) :
      Level (c :: u)
  | group {u v : List Char} (hu : Level u) (hv : Level v) : Level ('(' :: (u ++ ')' :: v))

namespace Level

theorem append {u v : List Char} (hu : Level u) (hv : Level v) : Level (u ++ v) := by
  induction hu with
  | nil => exact hv
  | plain hopen hclose _ ih => exact .plain hopen hclose ih
  | group hu _ _ ih =>
    rw [List.cons_append, List.append_assoc, List.cons_append]
    exact .group hu ih

theorem of_unbracketed {s : String} (h : unbracketed s = true) : Level s.toList := by
  unfold unbracketed at h
  generalize s.toList = u at h
  induction u with
  | nil => exact .nil
  | cons c u ih =>
    simp only [List.all_cons, Bool.and_eq_true, decide_eq_true_eq] at h
    exact .plain h.1.1 h.1.2 (ih h.2)

theorem clause {s t : String} (hs : unbracketed s = true) (ht : unbracketed t = true) :
    Level (s ++ " (" ++ t ++ ") ").toList := by
  have hblank : Level [' '] := .plain (by decide) (by decide) .nil
  have hgroup := (of_unbracketed hs).append (hblank.append (.group (of_unbracketed ht) hblank))
  simpa using hgroup

/-- The parenthesis that closes a form is the first one that is closed too often. -/
theorem inj {u v r s : List Char} (hu : Level u) (hv : Level v)
    (h : u ++ ')' :: r = v ++ ')' :: s) : u = v ∧ r = s := by
  induction hu generalizing v r s with
  | nil =>
    cases hv with
    | nil => exact ⟨rfl, (List.cons.inj h).2⟩
    | plain _ hclose _ => exact absurd (List.cons.inj h).1.symm hclose
    | group _ _ => exact absurd (List.cons.inj h).1 (by decide)
  | plain hopen hclose _ ih =>
    cases hv with
    | nil => exact absurd (List.cons.inj h).1 hclose
    | plain _ _ hv =>
      simp only [List.cons_append, List.cons.injEq] at h
      obtain ⟨rfl, htail⟩ := h
      obtain ⟨rfl, hrest⟩ := ih hv htail
      exact ⟨rfl, hrest⟩
    | group _ _ => exact absurd (List.cons.inj h).1 hopen
  | group _ _ ihu ihv =>
    cases hv with
    | nil => exact absurd (List.cons.inj h).1 (by decide)
    | plain hopen _ _ => exact absurd (List.cons.inj h).1.symm hopen
    | group hu hv =>
      simp only [List.cons_append, List.append_assoc, List.cons.injEq, true_and] at h
      obtain ⟨rfl, htail⟩ := ihu hu h
      obtain ⟨rfl, hrest⟩ := ihv hv htail
      exact ⟨rfl, hrest⟩

end Level

def Tells (P : α → Prop) (write : α → List Char) (key : α → κ) : Prop :=
  ∀ a b r s, P a → P b → write a ++ r = write b ++ s → key a = key b ∧ r = s

/-- Pieces may have the same text in front and behind. -/
theorem Tells.frame {P : α → Prop} {write : α → List Char} {key : α → κ} (h : Tells P write key)
    (front back : List Char) : Tells P (fun a => front ++ (write a ++ back)) key := by
  intro a b r s ha hb heq
  simp only [List.append_assoc] at heq
  obtain ⟨hkey, htail⟩ := h a b _ _ ha hb (List.append_cancel_left heq)
  exact ⟨hkey, List.append_cancel_left htail⟩

/-- A series ends where something stands that no piece begins with. -/
theorem Tells.series {P : α → Prop} {write : α → List Char} {key : α → κ} (htells : Tells P write key)
    {stop : List Char} (hstop : ∀ a r s, write a ++ r ≠ stop ++ s) {as bs : List α}
    (has : ∀ a ∈ as, P a) (hbs : ∀ b ∈ bs, P b) {r s : List Char}
    (h : as.flatMap write ++ (stop ++ r) = bs.flatMap write ++ (stop ++ s)) :
    as.map key = bs.map key ∧ r = s := by
  induction as generalizing bs with
  | nil =>
    cases bs with
    | nil => exact ⟨rfl, List.append_cancel_left h⟩
    | cons b bs =>
      rw [List.flatMap_cons, List.append_assoc] at h
      exact absurd h.symm (hstop b _ _)
  | cons a as ih =>
    cases bs with
    | nil =>
      rw [List.flatMap_cons, List.append_assoc] at h
      exact absurd h (hstop a _ _)
    | cons b bs =>
      rw [List.flatMap_cons, List.flatMap_cons, List.append_assoc, List.append_assoc] at h
      obtain ⟨hkey, h⟩ := htells a b _ _ (has a List.mem_cons_self) (hbs b List.mem_cons_self) h
      obtain ⟨hkeys, hrest⟩ := ih (fun x hx => has x (List.mem_cons_of_mem _ hx))
        (fun x hx => hbs x (List.mem_cons_of_mem _ hx)) h
      exact ⟨by rw [List.map_cons, List.map_cons, hkey, hkeys], hrest⟩

def spaced (ws : List String) : List Char := ws.flatMap fun w => ' ' :: w.toList

theorem spaced_cons (w : String) (ws : List String) :
    spaced (w :: ws) = ' ' :: (w.toList ++ spaced ws) := rfl

theorem startsBroken_spaced (ws : List String) (r : List Char) :
    startsBroken (spaced ws ++ ')' :: r) = true := by
  cases ws <;> rfl

/-- Words up to a closing parenthesis. -/
theorem spaced_inj {us vs : List String} (hus : ∀ u ∈ us, isWord u = true)
    (hvs : ∀ v ∈ vs, isWord v = true) {r s : List Char}
    (h : spaced us ++ ')' :: r = spaced vs ++ ')' :: s) : us = vs ∧ r = s := by
  induction us generalizing vs with
  | nil =>
    cases vs with
    | nil => exact ⟨rfl, (List.cons.inj h).2⟩
    | cons v vs => exact absurd (List.cons.inj h).1 (by decide)
  | cons u us ih =>
    cases vs with
    | nil => exact absurd (List.cons.inj h).1 (by decide)
    | cons v vs =>
      simp only [spaced_cons, List.cons_append, List.append_assoc, List.cons.injEq, true_and] at h
      obtain ⟨hu, hus'⟩ := List.forall_mem_cons.mp hus
      obtain ⟨hv, hvs'⟩ := List.forall_mem_cons.mp hvs
      obtain ⟨rfl, htail⟩ := word_inj hu hv (startsBroken_spaced us r) (startsBroken_spaced vs s) h
      obtain ⟨rfl, hrest⟩ := ih hus' hvs' htail
      exact ⟨rfl, hrest⟩

def form (ws : List String) : List Char := '(' :: (spaced ws).tail ++ [')']

theorem form_inj {u v : String} {us vs : List String} (hus : ∀ w ∈ u :: us, isWord w = true)
    (hvs : ∀ w ∈ v :: vs, isWord w = true) {r s : List Char}
    (h : form (u :: us) ++ r = form (v :: vs) ++ s) : u :: us = v :: vs ∧ r = s := by
  simp only [form, spaced_cons, List.tail_cons, List.cons_append, List.append_assoc,
    List.nil_append, List.cons.injEq, true_and] at h
  refine spaced_inj hus hvs ?_
  simp only [spaced_cons, List.cons_append, List.append_assoc, h]

/-- Texts with blanks between them. -/
theorem toList_intercalate_blank (ws : List String) :
    (" ".intercalate ws).toList = (spaced ws).tail := by
  rw [String.toList_intercalate]
  cases ws with
  | nil => rfl
  | cons w ws =>
    induction ws generalizing w with
    | nil => simp [List.intercalate, spaced]
    | cons w' ws ih =>
      have hrest := ih w'
      simp_all [List.intercalate, spaced_cons]

theorem unbracketed_intercalate {ws : List String} (h : ∀ w ∈ ws, unbracketed w = true) :
    unbracketed (" ".intercalate ws) = true := by
  refine List.all_eq_true.mpr fun c hc => ?_
  rw [toList_intercalate_blank] at hc
  obtain ⟨w, hw, hc⟩ := List.mem_flatMap.mp (List.mem_of_mem_tail hc)
  rcases List.mem_cons.mp hc with rfl | hc
  · rfl
  · exact List.all_eq_true.mp (h w hw) c hc

/-- Numbers with blanks between them are read back, also if there are none. -/
theorem numbers_inj {ms ns : List Int}
    (h : " ".intercalate (ms.map fun n => toString n) = " ".intercalate (ns.map fun n => toString n)) :
    ms = ns := by
  have htails := String.toList_inj.mpr h
  rw [toList_intercalate_blank, toList_intercalate_blank] at htails
  have hwords : ∀ ks : List Int, ∀ w ∈ ks.map fun n => toString n, isWord w = true := by
    intro ks w hw
    obtain ⟨n, -, rfl⟩ := List.mem_map.mp hw
    exact isWord_intRepr n
  have hsame : ms.map (fun n => toString n) = ns.map fun n => toString n := by
    cases ms with
    | nil =>
      cases ns with
      | nil => rfl
      | cons n ns => exact absurd (List.append_eq_nil_iff.mp htails.symm).1 (intRepr_ne_nil n)
    | cons m ms =>
      cases ns with
      | nil => exact absurd (List.append_eq_nil_iff.mp htails).1 (intRepr_ne_nil m)
      | cons n ns =>
        have hforms : form ((m :: ms).map fun n => toString n) ++ [] =
            form ((n :: ns).map fun n => toString n) ++ [] := by rw [form, form, htails]
        exact (form_inj (hwords (m :: ms)) (hwords (n :: ns)) hforms).1
  exact List.map_injective_iff.mpr (fun _ _ => intRepr_inj) hsame

/-- What stands in the last parentheses. -/
theorem last_group_inj {u v r s : List Char} (hr : '(' ∉ r) (hs : '(' ∉ s)
    (h : u ++ '(' :: r = v ++ '(' :: s) : r = s := by
  rcases List.append_eq_append_iff.mp h with ⟨w, -, hw⟩ | ⟨w, -, hw⟩
  · cases w with
    | nil => exact (List.cons.inj hw).2
    | cons c w =>
      have hmem : '(' ∈ r := by simp [(List.cons.inj hw).2]
      exact absurd hmem hr
  · cases w with
    | nil => exact (List.cons.inj hw).2.symm
    | cons c w =>
      have hmem : '(' ∈ s := by simp [(List.cons.inj hw).2]
      exact absurd hmem hs

end SlotBoard
