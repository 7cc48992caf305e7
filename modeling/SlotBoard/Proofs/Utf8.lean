import SlotBoard.Proofs.Outcome
import SlotBoard.Text.Utf8

/-!
Text and its bytes. The character at the front of a byte list is read back from its encoding, whatever
bytes follow, so a text is read back from its bytes and no two texts have the same bytes.
-/
namespace SlotBoard

theorem toNat_toUInt8 {n : Nat} (h : n < 256) : n.toUInt8.toNat = n := by
  rw [Nat.toUInt8, UInt8.toNat_ofNat', Nat.mod_eq_of_lt h]

theorem toUInt8_lt_iff {n : Nat} {b : UInt8} (h : n < 256) : n.toUInt8 < b ↔ n < b.toNat := by
  rw [UInt8.lt_iff_toNat_lt, toNat_toUInt8 h]

theorem toUInt8_le_iff {n : Nat} {b : UInt8} (h : n < 256) : n.toUInt8 ≤ b ↔ n ≤ b.toNat := by
  rw [UInt8.le_iff_toNat_le, toNat_toUInt8 h]

theorem le_toUInt8_iff {n : Nat} {b : UInt8} (h : n < 256) : b ≤ n.toUInt8 ↔ b.toNat ≤ n := by
  rw [UInt8.le_iff_toNat_le, toNat_toUInt8 h]

namespace Utf8

theorem toNat_lt (c : Char) : c.toNat < 0x110000 := by
  have hvalid : c.toNat.isValidChar := c.valid
  unfold Nat.isValidChar at hvalid
  omega

theorem tail?_toUInt8 {n : Nat} (h : n < 0x40) : tail? (0x80 + n).toUInt8 = some n := by
  have hrange : 0x80 ≤ (0x80 + n).toUInt8 ∧ (0x80 + n).toUInt8 ≤ 0xBF := by
    rw [le_toUInt8_iff (by omega), toUInt8_le_iff (by omega)]
    simp only [UInt8.reduceToNat]
    omega
  rw [tail?, if_pos hrange, toNat_toUInt8 (by omega), Nat.add_sub_cancel_left]

/-- The payloads of the bytes of a character make up the character. -/
theorem scalar?_toNat {c : Char} {least n : Nat} (hn : n = c.toNat) (h : least ≤ n) :
    scalar? least n = some c := by
  subst hn
  rw [scalar?, if_pos ⟨h, c.valid⟩, Char.ofNat_toNat]

theorem next?_encodeChar (c : Char) (rest : Bytes) :
    next? (encodeChar c ++ rest) = some (c, rest) := by
  have hc := toNat_lt c
  unfold encodeChar
  dsimp only
  -- one case for each length; the first byte tells the length, the others carry six bits each
  split
  · rename_i h1
    have hlead : c.toNat.toUInt8 < 0x80 := (toUInt8_lt_iff (by omega)).mpr h1
    simp only [List.cons_append, List.nil_append, next?]
    rw [if_pos hlead, toNat_toUInt8 (by omega), Char.ofNat_toNat]
  · split
    · have hlead : ¬(0xC0 + c.toNat / 0x40).toUInt8 < 0x80 ∧
          ¬(0xC0 + c.toNat / 0x40).toUInt8 < 0xC0 ∧ (0xC0 + c.toNat / 0x40).toUInt8 < 0xE0 := by
        simp only [toUInt8_lt_iff (show 0xC0 + c.toNat / 0x40 < 256 by omega), UInt8.reduceToNat]
        omega
      simp only [List.cons_append, List.nil_append, next?]
      rw [if_neg hlead.1, if_neg hlead.2.1, if_pos hlead.2.2, tail?_toUInt8 (by omega),
        toNat_toUInt8 (by omega)]
      simp only [Option.bind_eq_bind, Option.bind_some]
      rw [scalar?_toNat (c := c) (by omega) (by omega)]
      rfl
    · split
      · have hlead : ¬(0xE0 + c.toNat / 0x1000).toUInt8 < 0x80 ∧
            ¬(0xE0 + c.toNat / 0x1000).toUInt8 < 0xC0 ∧
            ¬(0xE0 + c.toNat / 0x1000).toUInt8 < 0xE0 ∧
            (0xE0 + c.toNat / 0x1000).toUInt8 < 0xF0 := by
          simp only [toUInt8_lt_iff (show 0xE0 + c.toNat / 0x1000 < 256 by omega),
            UInt8.reduceToNat]
          omega
        simp only [List.cons_append, List.nil_append, next?]
        rw [if_neg hlead.1, if_neg hlead.2.1, if_neg hlead.2.2.1, if_pos hlead.2.2.2,
          tail?_toUInt8 (by omega), tail?_toUInt8 (by omega), toNat_toUInt8 (by omega)]
        simp only [Option.bind_eq_bind, Option.bind_some]
        rw [scalar?_toNat (c := c) (by omega) (by omega)]
        rfl
      · have hlead : ¬(0xF0 + c.toNat / 0x40000).toUInt8 < 0x80 ∧
            ¬(0xF0 + c.toNat / 0x40000).toUInt8 < 0xC0 ∧
            ¬(0xF0 + c.toNat / 0x40000).toUInt8 < 0xE0 ∧
            ¬(0xF0 + c.toNat / 0x40000).toUInt8 < 0xF0 ∧
            (0xF0 + c.toNat / 0x40000).toUInt8 < 0xF8 := by
          simp only [toUInt8_lt_iff (show 0xF0 + c.toNat / 0x40000 < 256 by omega),
            UInt8.reduceToNat]
          omega
        simp only [List.cons_append, List.nil_append, next?]
        rw [if_neg hlead.1, if_neg hlead.2.1, if_neg hlead.2.2.1, if_neg hlead.2.2.2.1,
          if_pos hlead.2.2.2.2, tail?_toUInt8 (by omega), tail?_toUInt8 (by omega),
          tail?_toUInt8 (by omega), toNat_toUInt8 (by omega)]
        simp only [Option.bind_eq_bind, Option.bind_some]
        rw [scalar?_toNat (c := c) (by omega) (by omega)]
        rfl

/-- The first byte of a character is the character itself if it is ASCII, and beyond ASCII if it is
not. -/
theorem exists_lead (c : Char) : ∃ b bs, encodeChar c = b :: bs ∧
    (c.toNat < 0x80 → b.toNat = c.toNat ∧ bs = []) ∧ (0x80 ≤ c.toNat → 0x80 ≤ b.toNat) := by
  have hc := toNat_lt c
  unfold encodeChar
  dsimp only
  split
  · exact ⟨_, _, rfl, fun _ => ⟨toNat_toUInt8 (by omega), rfl⟩, fun h => by omega⟩
  · split
    · exact ⟨_, _, rfl, fun h => by omega, fun _ => by rw [toNat_toUInt8 (by omega)]; omega⟩
    · split
      · exact ⟨_, _, rfl, fun h => by omega, fun _ => by rw [toNat_toUInt8 (by omega)]; omega⟩
      · exact ⟨_, _, rfl, fun h => by omega, fun _ => by rw [toNat_toUInt8 (by omega)]; omega⟩

theorem encodeChar_ne_nil (c : Char) : encodeChar c ≠ [] := by
  obtain ⟨b, bs, hbytes, -⟩ := exists_lead c
  rw [hbytes]
  exact List.cons_ne_nil b bs

theorem pieces_encodeChars (cs : List Char) : pieces (encodeChars cs) = cs.map some := by
  induction cs with
  | nil =>
    rw [encodeChars, List.flatMap_nil, pieces]
    rfl
  | cons c cs ih =>
    have hnext := next?_encodeChar c (encodeChars cs)
    have hsplit : encodeChars (c :: cs) = encodeChar c ++ encodeChars cs := List.flatMap_cons
    obtain ⟨b, bs, hbytes⟩ := List.exists_cons_of_ne_nil (encodeChar_ne_nil c)
    rw [hbytes, List.cons_append] at hnext
    rw [hsplit, hbytes, List.cons_append, pieces]
    split
    · rename_i c' rest' hread
      rw [hnext] at hread
      cases hread
      rw [ih, List.map_cons]
    · rename_i hread
      rw [hnext] at hread
      cases hread

theorem decode?_encode (s : String) : decode? (encode s) = some s := by
  have hall : (s.toList.map some).mapM id = some s.toList := mapM_map_pure fun _ _ => rfl
  rw [decode?, encode, pieces_encodeChars, hall, Option.map_some, String.ofList_toList]

theorem encode_inj {s t : String} : encode s = encode t ↔ s = t := by
  constructor
  · intro h
    have hread := decode?_encode s
    rw [h, decode?_encode t] at hread
    exact (Option.some.inj hread).symm
  · rintro rfl
    rfl

end Utf8
end SlotBoard
