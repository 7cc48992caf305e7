import SlotBoard.Glob
import SlotBoard.Proofs.Utf8

/-!
File name patterns. A pattern is taken apart one character at a time, so a pattern can be read if its
parts can. A pattern without special characters fits exactly one name, its own text.
-/
namespace SlotBoard.Glob

/-- A character inside brackets is read alike whatever follows, and something has to follow. -/
theorem rangeEnd?_append {cs rest : List Char} {c : Char} (h : rangeEnd? cs = some (c, rest))
    (more : List Char) :
    rangeEnd? (cs ++ more) = some (c, rest ++ more) ∧ rest ≠ [] ∧ rest.length < cs.length := by
  fun_cases rangeEnd? cs with
  | case1 x y tail =>
    obtain ⟨rfl, rfl⟩ : x = c ∧ y :: tail = rest := by simpa [rangeEnd?] using h
    exact ⟨rfl, by simp, by simp⟩
  | case2 x y tail hescape hx => simp [rangeEnd?, hx] at h
  | case3 x y tail hescape hx =>
    obtain ⟨rfl, rfl⟩ : x = c ∧ y :: tail = rest := by simpa [rangeEnd?, hx] using h
    have hne : x ≠ '\\' := fun heq => hx (Or.inr (Or.inr heq))
    refine ⟨?_, by simp, by simp⟩
    rw [List.cons_append, List.cons_append, rangeEnd?.eq_2 _ _ _ (fun _ _ heq _ => hne heq),
      if_neg hx]
  | case4 => simp_all [rangeEnd?]

def rangeHigh? (low : Char) : List Char → Option (Char × List Char)
  | '-' :: rest => rangeEnd? rest
  | rest => some (low, rest)

theorem rangeHigh?_append {low high : Char} {cs rest : List Char}
    (h : rangeHigh? low cs = some (high, rest)) (hcs : cs ≠ []) (more : List Char) :
    rangeHigh? low (cs ++ more) = some (high, rest ++ more) ∧ rest.length ≤ cs.length := by
  fun_cases rangeHigh? low cs with
  | case1 tail =>
    obtain ⟨happend, -, hlength⟩ := rangeEnd?_append h more
    exact ⟨happend, Nat.le_succ_of_le (Nat.le_of_lt hlength)⟩
  | case2 _ hdash =>
    obtain ⟨rfl, rfl⟩ : low = high ∧ cs = rest := by simpa [rangeHigh?] using h
    refine ⟨?_, Nat.le_refl _⟩
    rw [rangeHigh?.eq_2]
    intro tail htail
    cases cs with
    | nil => exact hcs rfl
    | cons c cs =>
      rw [List.cons_append, List.cons.injEq] at htail
      exact hdash cs (by rw [htail.1])

/-- The brackets are closed, or another range follows. -/
theorem ranges?_succ (fuel : Nat) (any : Bool) (cs : List Char) :
    ranges? (fuel + 1) any cs =
      if any = true ∧ cs.head? = some ']' then some ([], cs.tail)
      else (rangeEnd? cs).bind fun low => (rangeHigh? low.1 low.2).bind fun high =>
        (ranges? fuel true high.2).bind fun others => some ((low.1, high.1) :: others.1, others.2) := by
  by_cases hclosed : any = true ∧ cs.head? = some ']'
  · obtain ⟨rest, rfl⟩ := List.head?_eq_some_iff.mp hclosed.2
    rw [if_pos hclosed, hclosed.1]
    rfl
  · rw [if_neg hclosed, ranges?.eq_3 _ _ _ (fun rest hany hcs => hclosed ⟨hany, by rw [hcs]; rfl⟩)]
    cases rangeEnd? cs with
    | none => rfl
    | some low =>
      dsimp only [Option.bind_eq_bind, Option.bind_some]
      split
      · rename_i tail hdash
        rw [hdash]
        rfl
      · rename_i hdash
        rw [rangeHigh?.eq_2 _ _ hdash]
        rfl

theorem ranges?_append {fuel fuel' : Nat} {any : Bool} {cs rest : List Char}
    {ranges : List (Char × Char)} (h : ranges? fuel any cs = some (ranges, rest))
    (hfuel : fuel ≤ fuel') (more : List Char) :
    ranges? fuel' any (cs ++ more) = some (ranges, rest ++ more) ∧ rest.length < cs.length := by
  induction fuel generalizing any cs rest ranges fuel' with
  | zero => cases h
  | succ fuel ih =>
    obtain ⟨fuel', rfl⟩ : ∃ k, fuel' = k + 1 := ⟨fuel' - 1, by omega⟩
    have hne : cs ≠ [] := by
      rintro rfl
      simp [ranges?_succ, rangeEnd?] at h
    have hhead : (cs ++ more).head? = cs.head? := by
      rw [List.head?_append, Option.or_of_isSome (by simpa using hne)]
    rw [ranges?_succ] at h ⊢
    rw [hhead, List.tail_append_of_ne_nil hne]
    split at h
    · rename_i hclosed
      cases h
      rw [if_pos hclosed, List.length_tail]
      have hpos := List.length_pos_iff.mpr hne
      exact ⟨rfl, by omega⟩
    · rename_i hopen
      simp only [Option.bind_eq_some_iff, Prod.exists, Option.some.injEq, Prod.mk.injEq] at h
      obtain ⟨low, afterLow, hlow, high, afterHigh, hhigh, others, tail, hothers, rfl, rfl⟩ := h
      obtain ⟨hlow', hafter, hlowLength⟩ := rangeEnd?_append hlow more
      obtain ⟨hhigh', hhighLength⟩ := rangeHigh?_append hhigh hafter more
      obtain ⟨hothers', hothersLength⟩ := ih hothers (Nat.le_of_succ_le_succ hfuel)
      refine ⟨?_, by omega⟩
      rw [if_neg hopen, hlow', Option.bind_some, hhigh', Option.bind_some, hothers', Option.bind_some]

def class? (negated : Bool) (cs : List Char) : Option (Option (List Piece) × List Char) :=
  (ranges? cs.length false cs).bind fun found => some (some [.oneOf negated found.1], found.2)

theorem class?_append (negated : Bool) {cs rest : List Char} {front : Option (List Piece)}
    (h : class? negated cs = some (front, rest)) (more : List Char) :
    class? negated (cs ++ more) = some (front, rest ++ more) ∧ rest.length < cs.length := by
  obtain ⟨⟨ranges, after⟩, hranges, heq⟩ := Option.bind_eq_some_iff.mp h
  obtain ⟨rfl, rfl⟩ := Prod.mk.inj (Option.some.inj heq)
  have hfuel : cs.length ≤ (cs ++ more).length := by simp
  obtain ⟨happend, hlength⟩ := ranges?_append hranges hfuel more
  exact ⟨by rw [class?, happend]; rfl, hlength⟩

/-- A character without a special meaning stands for itself. -/
theorem next?_plain {c : Char} (h : isMeta c = false) (tail : List Char) :
    next? (c :: tail) = some (some ((Utf8.encodeChar c).map .byte), tail) := by
  simp only [isMeta, Bool.or_eq_false_iff, decide_eq_false_iff_not] at h
  obtain ⟨⟨⟨hstar, hquestion⟩, hbracket⟩, hescape⟩ := h
  rw [next?.eq_6 _ _ hstar hquestion (fun _ h _ => hbracket h) hbracket (fun _ _ h _ => hescape h),
    if_neg hescape]

/-- What stands at the front of a pattern does not depend on what follows it. -/
theorem next?_append {cs rest : List Char} {front : Option (List Piece)}
    (h : next? cs = some (front, rest)) (more : List Char) :
    next? (cs ++ more) = some (front, rest ++ more) ∧ rest.length < cs.length := by
  fun_cases next? cs with
  | case1 tail =>
    cases h
    exact ⟨rfl, Nat.lt_succ_self _⟩
  | case2 tail =>
    cases h
    exact ⟨rfl, Nat.lt_succ_self _⟩
  | case3 tail =>
    obtain ⟨happend, hlength⟩ := class?_append true h more
    exact ⟨happend, by simp only [List.length_cons]; omega⟩
  | case4 tail hcaret =>
    have hclass : ∀ cs : List Char, (∀ rest, cs = '^' :: rest → False) →
        next? ('[' :: cs) = class? false cs := fun cs hcs => next?.eq_4 cs hcs
    rw [hclass tail hcaret] at h
    obtain ⟨happend, hlength⟩ := class?_append false h more
    refine ⟨?_, by simp only [List.length_cons]; omega⟩
    rw [List.cons_append, hclass (tail ++ more), happend]
    cases tail with
    | nil => cases h
    | cons c tail =>
      intro rest heq
      exact hcaret tail (by rw [(List.cons.inj heq).1])
  | case5 c tail =>
    cases h
    exact ⟨rfl, by simp only [List.length_cons]; omega⟩
  | case6 tail => simp_all [next?]
  | case7 c tail hstar hquestion hcaret hbracket hescape hplain =>
    have hmeta : isMeta c = false := by
      simp only [isMeta, Bool.or_eq_false_iff, decide_eq_false_iff_not]
      exact ⟨⟨⟨hstar, hquestion⟩, hbracket⟩, hplain⟩
    rw [next?_plain hmeta] at h
    obtain ⟨rfl, rfl⟩ := Prod.mk.inj (Option.some.inj h)
    exact ⟨next?_plain hmeta (tail ++ more), Nat.lt_succ_self _⟩
  | case8 => cases h

/-- A pattern that can be taken apart to its end. -/
inductive WellFormed : List Char → Prop
  | nil : WellFormed []
  | next {cs rest : List Char} {front : Option (List Piece)} : next? cs = some (front, rest) →
    WellFormed rest → WellFormed cs

theorem WellFormed.append {xs ys : List Char} (hx : WellFormed xs) (hy : WellFormed ys) :
    WellFormed (xs ++ ys) := by
  induction hx with
  | nil => exact hy
  | next h _ ih => exact .next (next?_append h ys).1 ih

theorem WellFormed.of_plain {cs : List Char} (h : ∀ c ∈ cs, isMeta c = false) : WellFormed cs := by
  induction cs with
  | nil => exact .nil
  | cons c cs ih =>
    obtain ⟨hc, hcs⟩ := List.forall_mem_cons.mp h
    exact .next (next?_plain hc cs) (ih hcs)

theorem parseFrom?_succ (fuel : Nat) (c : Char) (cs : List Char) :
    parseFrom? (fuel + 1) (c :: cs) = (next? (c :: cs)).bind fun found =>
      (parseFrom? fuel found.2).map fun chunks => found.1.elim (addStar chunks) (addPieces · chunks) := by
  rw [parseFrom?.eq_3 _ _ (List.cons_ne_nil c cs)]
  cases next? (c :: cs) with
  | none => rfl
  | some found =>
    obtain ⟨front, rest⟩ := found
    dsimp only [Option.bind_eq_bind, Option.bind_some]
    cases parseFrom? fuel rest with
    | none => rfl
    | some chunks => cases front <;> rfl

theorem parseFrom?_isSome_iff {fuel : Nat} {cs : List Char} (h : cs.length ≤ fuel) :
    (parseFrom? fuel cs).isSome = true ↔ WellFormed cs := by
  induction fuel generalizing cs with
  | zero =>
    obtain rfl := List.length_eq_zero_iff.mp (Nat.le_zero.mp h)
    exact iff_of_true rfl .nil
  | succ fuel ih =>
    cases cs with
    | nil => exact iff_of_true rfl .nil
    | cons c cs =>
      rw [parseFrom?_succ]
      cases hnext : next? (c :: cs) with
      | none =>
        refine iff_of_false (by simp) ?_
        rintro (_ | ⟨hsome, -⟩)
        rw [hnext] at hsome
        cases hsome
      | some found =>
        obtain ⟨front, rest⟩ := found
        have hlength := (next?_append hnext []).2
        have hrest : rest.length ≤ fuel := by omega
        rw [Option.bind_some, Option.isSome_map, ih hrest]
        constructor
        · exact .next hnext
        · rintro (_ | ⟨hsome, hrest⟩)
          rw [hnext] at hsome
          cases hsome
          exact hrest

theorem isSome_parse? {pattern : String} :
    (parse? pattern).isSome = true ↔ WellFormed pattern.toList := parseFrom?_isSome_iff (Nat.le_refl _)

/-- A pattern without special characters is one chunk, its own bytes. -/
theorem parseFrom?_plain {fuel : Nat} {cs : List Char} (h : ∀ c ∈ cs, isMeta c = false)
    (hfuel : cs.length ≤ fuel) (hne : cs ≠ []) :
    parseFrom? fuel cs = some [{ star := false, pieces := (Utf8.encodeChars cs).map .byte }] := by
  induction cs generalizing fuel with
  | nil => exact absurd rfl hne
  | cons c cs ih =>
    obtain ⟨hc, hcs⟩ := List.forall_mem_cons.mp h
    obtain ⟨fuel, rfl⟩ : ∃ k, fuel = k + 1 := ⟨fuel - 1, by simp at hfuel; omega⟩
    rw [parseFrom?_succ, next?_plain hc, Option.bind_some]
    dsimp only
    by_cases hnil : cs = []
    · subst hnil
      simp [parseFrom?, addPieces, Utf8.encodeChars]
    · rw [ih hcs (by simpa using hfuel) hnil]
      simp [addPieces, Utf8.encodeChars]

theorem matchPieces_bytes {bs name rest : Bytes} :
    matchPieces (bs.map .byte) name = some rest ↔ name = bs ++ rest := by
  induction bs generalizing name with
  | nil => simp [matchPieces]
  | cons b bs ih =>
    cases name with
    | nil => simp [matchPieces]
    | cons c name =>
      rw [List.map_cons, matchPieces, List.cons_append, List.cons.injEq]
      by_cases hb : b = c
      · rw [if_pos hb, ih]
        exact ⟨fun h => ⟨hb.symm, h⟩, fun h => h.2⟩
      · rw [if_neg hb]
        exact iff_of_false nofun fun h => hb h.1.symm

theorem matchChunks_bytes (bs name : Bytes) :
    matchChunks [{ star := false, pieces := bs.map .byte }] name = true ↔ name = bs := by
  have hunfold : matchChunks [{ star := false, pieces := bs.map .byte }] name =
      ((matchPieces (bs.map .byte) name).filter (reaches true)).isSome := by
    rw [matchChunks]
    cases hrest : (matchPieces (bs.map .byte) name).filter (reaches true) with
    | none => simp [hrest]
    | some rest =>
      have hreaches := (Option.filter_eq_some_iff.mp hrest).2
      simpa [hrest, matchChunks, reaches] using hreaches
  rw [hunfold, Option.isSome_iff_exists]
  constructor
  · rintro ⟨rest, hrest⟩
    obtain ⟨hsome, hreaches⟩ := Option.filter_eq_some_iff.mp hrest
    obtain rfl : rest = [] := by simpa [reaches] using hreaches
    simpa using matchPieces_bytes.mp hsome
  · rintro rfl
    exact ⟨[], Option.filter_eq_some_iff.mpr ⟨matchPieces_bytes.mpr (by simp), rfl⟩⟩

def Fits (pattern name : String) : Prop :=
  ∃ chunks, parse? pattern = some chunks ∧ matchChunks chunks (Utf8.encode name) = true

theorem hasMeta_eq_false_iff {pattern : String} :
    hasMeta pattern = false ↔ ∀ c ∈ pattern.toList, isMeta c = false := by
  rw [hasMeta, List.any_eq_false]
  simp only [Bool.not_eq_true]

theorem fits_plain {pattern name : String} (h : hasMeta pattern = false) (hne : pattern ≠ "") :
    Fits pattern name ↔ name = pattern := by
  have hparse := parseFrom?_plain (hasMeta_eq_false_iff.mp h) (Nat.le_refl _)
    (fun hnil => hne (String.toList_eq_nil_iff.mp hnil))
  have hmatch := matchChunks_bytes (Utf8.encode pattern) (Utf8.encode name)
  rw [Utf8.encode_inj] at hmatch
  constructor
  · rintro ⟨chunks, hchunks, hfits⟩
    rw [parse?, hparse, Option.some_inj] at hchunks
    rw [← hchunks] at hfits
    exact hmatch.mp hfits
  · exact fun heq => ⟨_, hparse, hmatch.mpr heq⟩

end SlotBoard.Glob
