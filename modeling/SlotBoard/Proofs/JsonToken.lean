import SlotBoard.Json.Token
import SlotBoard.Proofs.Cbor
import SlotBoard.Proofs.Numbering

/-!
JSON tokens and their bytes. In a string every character is read back from its escape or its UTF-8
encoding, and an integer is read back with all its digits. So a token is read off the front of a text,
whatever follows it, except that nothing may follow a number that would go on it; and tokens that are
written one behind the other are the tokens of the text.
-/
namespace SlotBoard.Json

/-- The bytes that stand for a character in a string: quotes, backslashes and control characters are
escaped. -/
def escaped (c : Char) : Bytes :=
  if c = '"' then [0x5C, 0x22]
  else if c = '\\' then [0x5C, 0x5C]
  else if c.toNat < 0x20 then 0x5C :: 0x75 :: Utf8.encodeChars (Hex.padded 4 c.toNat)
  else Utf8.encodeChar c

namespace Token

def spell : Token → Bytes
  | beginArray => [0x5B]
  | endArray => [0x5D]
  | beginObject => [0x7B]
  | endObject => [0x7D]
  | comma => [0x2C]
  | colon => [0x3A]
  | null => Utf8.encode "null"
  | bool b => Utf8.encode (if b then "true" else "false")
  | number literal => Utf8.encodeChars literal
  | string s => 0x22 :: (s.toList.flatMap escaped ++ [0x22])

theorem unit?_padded {n : Nat} (h : n < 0x20) (rest : Bytes) :
    unit? (Utf8.encodeChars (Hex.padded 4 n) ++ rest) = some (n, rest) := by
  have hfour : ∀ k < 0x20, (Utf8.encodeChars (Hex.padded 4 k)).length = 4 ∧
      Hex.number? ((Utf8.encodeChars (Hex.padded 4 k)).map fun b => Char.ofNat b.toNat) = some k := by
    decide +kernel
  obtain ⟨hlength, hnumber⟩ := hfour n h
  simp only [unit?, splitBytes?_append hlength, Option.bind_eq_bind, Option.bind_some, hnumber]
  rfl

/-- An escape is read as its character. -/
theorem escape?_unit (c : Char) (h : c.toNat < 0x20) (rest : Bytes) :
    escape? (0x75 :: (Utf8.encodeChars (Hex.padded 4 c.toNat) ++ rest)) = some (c, rest) := by
  rw [escape?, if_pos rfl, unit?_padded h]
  have hplain : ¬(0xD800 ≤ c.toNat ∧ c.toNat ≤ 0xDFFF) := by omega
  simp only [Option.bind_eq_bind, Option.bind_some, joined, if_neg hplain, Char.ofNat_toNat]
  rfl

theorem characters?_escape {after rest : Bytes} {c : Char} (h : escape? after = some (c, rest)) :
    characters? (0x5C :: after) = (characters? rest).map fun (cs, bs) => (c :: cs, bs) := by
  rw [characters?, if_neg (by decide), if_pos rfl]
  split
  · rename_i hnone
    rw [h] at hnone
    cases hnone
  · rename_i c' rest' hsome
    rw [h] at hsome
    cases hsome
    cases characters? rest <;> rfl

theorem characters?_plain {b : UInt8} {after rest : Bytes} {c : Char} (hquote : b ≠ 0x22)
    (hescape : b ≠ 0x5C) (hcontrol : ¬b < 0x20) (h : Utf8.next? (b :: after) = some (c, rest)) :
    characters? (b :: after) = (characters? rest).map fun (cs, bs) => (c :: cs, bs) := by
  rw [characters?, if_neg hquote, if_neg hescape, if_neg hcontrol]
  split
  · rename_i c' rest' hsome
    rw [h] at hsome
    cases hsome
    cases characters? rest <;> rfl
  · rename_i hnone
    rw [h] at hnone
    cases hnone

/-- A character is read off the front of a string. -/
theorem characters?_escaped (c : Char) (rest : Bytes) :
    characters? (escaped c ++ rest) = (characters? rest).map fun (cs, bs) => (c :: cs, bs) := by
  unfold escaped
  split
  · rename_i hc
    subst hc
    exact characters?_escape rfl
  · split
    · rename_i hc
      subst hc
      exact characters?_escape rfl
    · split
      · rename_i hcontrol
        exact characters?_escape (escape?_unit c hcontrol rest)
      · rename_i hquote hescape hcontrol
        obtain ⟨b, bs, hbytes, hascii, hbeyond⟩ := Utf8.exists_lead c
        have hnext := Utf8.next?_encodeChar c rest
        rw [hbytes] at hnext ⊢
        have hb : ∀ k : Char, k.toNat < 0x80 → b.toNat = k.toNat → c = k := by
          intro k hk hbk
          have hlow : c.toNat < 0x80 := by omega
          have hsame : c.toNat = k.toNat := (hascii hlow).1.symm.trans hbk
          rw [← Char.ofNat_toNat c, hsame, Char.ofNat_toNat]
        refine characters?_plain ?_ ?_ ?_ hnext
        · rintro rfl
          exact hquote (hb '"' (by decide) rfl)
        · rintro rfl
          exact hescape (hb '\\' (by decide) rfl)
        · intro hlt
          have hbyte : b.toNat < 0x20 := UInt8.lt_iff_toNat_lt.mp hlt
          omega

theorem characters?_spell (cs : List Char) (rest : Bytes) :
    characters? (cs.flatMap escaped ++ 0x22 :: rest) = some (cs, rest) := by
  induction cs with
  | nil =>
    rw [List.flatMap_nil, List.nil_append, characters?]
    rfl
  | cons c cs ih =>
    rw [List.flatMap_cons, List.append_assoc, characters?_escaped, ih]
    rfl

def stopsNumber : Bytes → Bool
  | [] => true
  | b :: _ => !(isDigitByte b || b = 0x2E || b = 0x65 || b = 0x45)

theorem exists_digit_byte {c : Char} (h : c.isDigit = true) :
    ∃ b, Utf8.encodeChar c = [b] ∧ isDigitByte b = true ∧ Char.ofNat b.toNat = c := by
  have hrange : 0x30 ≤ c.toNat ∧ c.toNat ≤ 0x39 := by
    simp only [Char.isDigit, Bool.and_eq_true, decide_eq_true_eq] at h
    exact h
  obtain ⟨b, bs, hbytes, hascii, -⟩ := Utf8.exists_lead c
  obtain ⟨hb, rfl⟩ := hascii (by omega)
  refine ⟨b, hbytes, ?_, ?_⟩
  · simp only [isDigitByte, Bool.and_eq_true, decide_eq_true_eq, UInt8.le_iff_toNat_le, hb]
    exact hrange
  · rw [hb, Char.ofNat_toNat]

theorem encodeChars_digits {cs : List Char} (h : ∀ c ∈ cs, c.isDigit = true) :
    (∀ b ∈ Utf8.encodeChars cs, isDigitByte b = true) ∧
      (Utf8.encodeChars cs).map (fun b => Char.ofNat b.toNat) = cs := by
  induction cs with
  | nil => exact ⟨fun b hb => absurd hb List.not_mem_nil, rfl⟩
  | cons c cs ih =>
    obtain ⟨hc, hcs⟩ := List.forall_mem_cons.mp h
    obtain ⟨b, hbyte, hdigit, hchar⟩ := exists_digit_byte hc
    obtain ⟨hdigits, hchars⟩ := ih hcs
    have hsplit : Utf8.encodeChars (c :: cs) = b :: Utf8.encodeChars cs := by
      rw [Utf8.encodeChars, List.flatMap_cons, hbyte]
      rfl
    rw [hsplit]
    exact ⟨List.forall_mem_cons.mpr ⟨hdigit, hdigits⟩, by rw [List.map_cons, hchar, hchars]⟩

theorem digits?_append {run rest : Bytes} (hrun : ∀ b ∈ run, isDigitByte b = true)
    (hne : run ≠ []) (hrest : stopsNumber rest = true) : digits? (run ++ rest) = some (run, rest) := by
  have hstop : rest.takeWhile isDigitByte = [] := by
    cases rest with
    | nil => rfl
    | cons b rest =>
      have hb : isDigitByte b = false := by
        simp only [stopsNumber, Bool.not_or, Bool.and_eq_true, Bool.not_eq_true'] at hrest
        exact hrest.1.1.1
      simp [hb]
  have hfront : (run ++ rest).takeWhile isDigitByte = run := by
    rw [List.takeWhile_append_of_pos hrun, hstop, List.append_nil]
  rw [digits?, hfront]
  cases run with
  | nil => exact absurd rfl hne
  | cons b run => simp

/-- No number but zero begins with a zero. -/
theorem eq_zero_of_repr_cons {n : Nat} {cs : List Char} (h : n.repr.toList = '0' :: cs) : n = 0 := by
  rw [Nat.toList_repr] at h
  induction n using Nat.strongRecOn generalizing cs with
  | _ n ih =>
    rw [Nat.toDigits_eq_if (by omega)] at h
    split at h
    · obtain ⟨hdigit, -⟩ := List.cons.inj h
      exact Nat.digitChar_eq_zero.mp hdigit
    · rename_i hn
      obtain ⟨d, ds, hds⟩ := List.exists_cons_of_ne_nil (Nat.toDigits_ne_nil (b := 10) (n := n / 10))
      rw [hds] at h
      obtain ⟨rfl, -⟩ := List.cons.inj h
      have hzero := ih (n / 10) (by omega) hds
      omega

/-- The bytes of a natural number are digits, and the first one is zero only if the number is. -/
theorem exists_repr_bytes (n : Nat) : ∃ b bs, Utf8.encodeChars n.repr.toList = b :: bs ∧
    isDigitByte b = true ∧ (b = 0x30 → n = 0) := by
  obtain ⟨c, cs, hcs⟩ := List.exists_cons_of_ne_nil (l := n.repr.toList)
    (by rw [Nat.toList_repr]; exact Nat.toDigits_ne_nil)
  obtain ⟨b, hbyte, hdigit, hchar⟩ :=
    exists_digit_byte (isDigit_of_mem_repr (hcs ▸ List.mem_cons_self))
  refine ⟨b, Utf8.encodeChars cs, ?_, hdigit, fun hzero => ?_⟩
  · rw [hcs, Utf8.encodeChars, List.flatMap_cons, hbyte]
    rfl
  · have hlead : c = '0' := by
      rw [← hchar, hzero]
      rfl
    exact eq_zero_of_repr_cons (hlead ▸ hcs)

theorem integer?_repr (n : Nat) {rest : Bytes} (hrest : stopsNumber rest = true) :
    integer? (Utf8.encodeChars n.repr.toList ++ rest) =
      some (Utf8.encodeChars n.repr.toList, rest) := by
  obtain ⟨b, bs, hbytes, -, hzero⟩ := exists_repr_bytes n
  by_cases hb : b = 0x30
  · obtain rfl := hzero hb
    rfl
  · have hread : integer? (Utf8.encodeChars n.repr.toList ++ rest) =
        digits? (Utf8.encodeChars n.repr.toList ++ rest) := by
      rw [hbytes, List.cons_append, integer?]
      intro tail htail
      exact hb (List.cons.inj htail).1
    have hdigits := encodeChars_digits fun c (hc : c ∈ n.repr.toList) => isDigit_of_mem_repr hc
    rw [hread]
    exact digits?_append hdigits.1 (hbytes ▸ List.cons_ne_nil b bs) hrest

theorem fraction?_stop {rest : Bytes} (h : stopsNumber rest = true) :
    fraction? rest = some ([], rest) := by
  unfold fraction?
  split
  · simp [stopsNumber] at h
  · rfl

theorem exponent?_stop {rest : Bytes} (h : stopsNumber rest = true) :
    exponent? rest = some ([], rest) := by
  cases rest with
  | nil => rfl
  | cons e rest =>
    have he : ¬(e = 0x65 ∨ e = 0x45) := by
      simp only [stopsNumber, Bool.not_or, Bool.and_eq_true, Bool.not_eq_true',
        decide_eq_false_iff_not] at h
      exact not_or.mpr ⟨h.1.2, h.2⟩
    cases rest with
    | nil => rw [exponent?, if_neg he]
    | cons s rest => rw [exponent?, if_neg he]

theorem sign_repr (n : Nat) (rest : Bytes) :
    sign (Utf8.encodeChars n.repr.toList ++ rest) =
      ([], Utf8.encodeChars n.repr.toList ++ rest) := by
  obtain ⟨b, bs, hbytes, hdigit, -⟩ := exists_repr_bytes n
  rw [hbytes, List.cons_append]
  unfold sign
  split
  · rename_i tail htail
    rw [(List.cons.inj htail).1] at hdigit
    exact absurd hdigit (by decide)
  · rfl

theorem encodeChars_negSucc (n : Nat) : Utf8.encodeChars (Int.negSucc n).repr.toList =
    0x2D :: Utf8.encodeChars (n + 1).repr.toList := by
  have hrepr : (Int.negSucc n).repr = "-" ++ (n + 1).repr := rfl
  rw [hrepr, String.toList_append, Utf8.encodeChars, List.flatMap_append]
  rfl

/-- An integer is read off the front, if nothing follows that would go on the number. -/
theorem number?_repr (i : Int) {rest : Bytes} (h : stopsNumber rest = true) :
    number? (Utf8.encodeChars i.repr.toList ++ rest) = some (i.repr.toList, rest) := by
  have hchars : ∀ n : Nat, (Utf8.encodeChars n.repr.toList).map (fun b => Char.ofNat b.toNat) =
      n.repr.toList := fun n => (encodeChars_digits fun c hc => isDigit_of_mem_repr hc).2
  cases i with
  | ofNat n =>
    have hrepr : (Int.ofNat n).repr = n.repr := rfl
    simp only [number?, hrepr, sign_repr, integer?_repr n h, fraction?_stop h, exponent?_stop h,
      Option.bind_eq_bind, Option.bind_some, List.nil_append, List.append_nil, hchars]
    rfl
  | negSucc n =>
    have hrepr : (Int.negSucc n).repr.toList = '-' :: (n + 1).repr.toList := by
      have hminus : (Int.negSucc n).repr = "-" ++ (n + 1).repr := rfl
      simp [hminus]
    have hsign : sign (0x2D :: (Utf8.encodeChars (n + 1).repr.toList ++ rest)) =
      ([0x2D], Utf8.encodeChars (n + 1).repr.toList ++ rest) := rfl
    rw [encodeChars_negSucc, List.cons_append, number?, hsign, hrepr]
    simp only [integer?_repr (n + 1) h, fraction?_stop h, exponent?_stop h, Option.bind_eq_bind,
      Option.bind_some, List.map_append, List.map_nil, List.append_nil, hchars]
    rfl

def otherLeads : List UInt8 :=
  [0x20, 0x09, 0x0A, 0x0D, 0x5B, 0x5D, 0x7B, 0x7D, 0x2C, 0x3A, 0x22, 0x6E, 0x74, 0x66]

theorem next?_number {b : UInt8} (hb : isDigitByte b = true ∨ b = 0x2D) (bs : Bytes) :
    next? (b :: bs) = (number? (b :: bs)).map fun (literal, rest) => (number literal, rest) := by
  have hother : otherLeads.all (fun k => !isDigitByte k && k != 0x2D) = true := by decide
  have hne : ∀ k ∈ otherLeads, b ≠ k := by
    rintro k hk rfl
    have hlead := List.all_eq_true.mp hother b hk
    rcases hb with hdigit | rfl
    · simp [hdigit] at hlead
    · simp at hlead
  simp only [otherLeads, List.forall_mem_cons] at hne
  simp [next?, isBlankByte, hne]

/-- A token that has a spelling: a number has to be an integer. -/
def Spelled : Token → Prop
  | number literal => ∃ i : Int, literal = i.repr.toList
  | _ => True

def isNumber : Token → Bool
  | number _ => true
  | _ => false

/-- A token is read off the front, whatever follows it, unless it is a number that would go on. -/
theorem next?_spell {t : Token} (ht : t.Spelled) {rest : Bytes}
    (h : t.isNumber = true → stopsNumber rest = true) : next? (t.spell ++ rest) = some (t, rest) := by
  cases t with
  | beginArray | endArray | beginObject | endObject | comma | colon => rfl
  | null => rfl
  | bool b => cases b <;> rfl
  | number literal =>
    obtain ⟨i, rfl⟩ := ht
    obtain ⟨b, bs, hbytes, hb⟩ : ∃ b bs, Utf8.encodeChars i.repr.toList = b :: bs ∧
        (isDigitByte b = true ∨ b = 0x2D) := by
      cases i with
      | ofNat n =>
        obtain ⟨b, bs, hbytes, hdigit, -⟩ := exists_repr_bytes n
        exact ⟨b, bs, hbytes, .inl hdigit⟩
      | negSucc n => exact ⟨0x2D, _, encodeChars_negSucc n, .inr rfl⟩
    have hnumber := number?_repr i (h rfl)
    rw [spell]
    rw [hbytes, List.cons_append] at hnumber ⊢
    rw [next?_number hb, hnumber]
    rfl
  | string s =>
    have hchars := characters?_spell s.toList rest
    have hread : next? ((string s).spell ++ rest) =
        (characters? (s.toList.flatMap escaped ++ 0x22 :: rest)).map
          fun (cs, rest) => (string (String.ofList cs), rest) := by
      rw [spell, List.cons_append, List.append_assoc]
      rfl
    rw [hread, hchars]
    simp only [Option.map_some, String.ofList_toList]

/-- What may follow a number among the tokens: the text ends, or a single mark stands there. -/
def mayFollow : List Token → Bool
  | [] => true
  | endArray :: _ | endObject :: _ | comma :: _ => true
  | _ => false

def Writable : List Token → Prop
  | [] => True
  | t :: ts => t.Spelled ∧ (t.isNumber = true → mayFollow ts = true) ∧ Writable ts

theorem Writable.cons {t : Token} {ts : List Token} (ht : t.isNumber = false) (hts : Writable ts) :
    Writable (t :: ts) := by
  refine ⟨?_, fun hnumber => ?_, hts⟩
  · cases t with
    | number => cases ht
    | _ => exact trivial
  · rw [ht] at hnumber
    cases hnumber

theorem spell_ne_nil {t : Token} (h : t.Spelled) : t.spell ≠ [] := by
  intro hnil
  have hread : next? (t.spell ++ []) = some (t, []) := next?_spell h fun _ => rfl
  rw [hnil] at hread
  cases hread

theorem stopsNumber_of_mayFollow {ts : List Token} (h : mayFollow ts = true) :
    stopsNumber (ts.flatMap spell) = true := by
  unfold mayFollow at h
  split at h
  · rfl
  · rfl
  · rfl
  · rfl
  · cases h

theorem scan_spell {ts : List Token} (h : Writable ts) {limit : Nat} (hlimit : ts.length ≤ limit) :
    scan limit (ts.flatMap spell) = ts := by
  induction ts generalizing limit with
  | nil => cases limit <;> rfl
  | cons t ts ih =>
    obtain ⟨ht, hfollow, hts⟩ := h
    cases limit with
    | zero => exact absurd hlimit (Nat.not_succ_le_zero _)
    | succ limit =>
      have hread := next?_spell ht fun hnumber => stopsNumber_of_mayFollow (hfollow hnumber)
      rw [List.flatMap_cons, scan, hread]
      simp only [ih hts (Nat.le_of_succ_le_succ hlimit)]

theorem length_le_spell {ts : List Token} (h : Writable ts) :
    ts.length ≤ (ts.flatMap spell).length := by
  induction ts with
  | nil => exact Nat.le_refl 0
  | cons t ts ih =>
    have hpos := List.length_pos_iff.mpr (spell_ne_nil h.1)
    have hrest := ih h.2.2
    rw [List.flatMap_cons, List.length_append, List.length_cons]
    omega

/-- The tokens of a text are those it was written with. -/
theorem all_spell {ts : List Token} (h : Writable ts) : all (ts.flatMap spell) = ts :=
  scan_spell h (length_le_spell h)

end Token

end SlotBoard.Json
