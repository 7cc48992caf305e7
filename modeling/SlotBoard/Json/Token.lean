import SlotBoard.Text.Hex

/-!
JSON tokens, read off bytes. Each lexeme is as long as the grammar allows, and reading one always
uses up input. Stray bytes in a string become U+FFFD, and so does half of a surrogate pair.
-/
namespace SlotBoard.Json

/-- A number keeps its spelling. -/
inductive Token where
  | beginArray
  | endArray
  | beginObject
  | endObject
  | comma
  | colon
  | null
  | bool (b : Bool)
  | number (literal : List Char)
  | string (s : String)
deriving DecidableEq, Inhabited

namespace Token

def isBlankByte (b : UInt8) : Bool := b = 0x20 || b = 0x09 || b = 0x0A || b = 0x0D

def isDigitByte (b : UInt8) : Bool := 0x30 ≤ b && b ≤ 0x39

def digits? (bs : Bytes) : Option (Bytes × Bytes) :=
  match bs.takeWhile isDigitByte with
  | [] => none
  | run => some (run, bs.drop run.length)

def sign (bs : Bytes) : Bytes × Bytes :=
  match bs with
  | 0x2D :: rest => ([0x2D], rest)
  | _ => ([], bs)

def integer? (bs : Bytes) : Option (Bytes × Bytes) :=
  match bs with
  | 0x30 :: rest => some ([0x30], rest)
  | _ => digits? bs

def fraction? (bs : Bytes) : Option (Bytes × Bytes) :=
  match bs with
  | 0x2E :: rest => do
    let (run, rest) ← digits? rest
    return (0x2E :: run, rest)
  | _ => some ([], bs)

def exponent? (bs : Bytes) : Option (Bytes × Bytes) :=
  match bs with
  | e :: s :: rest =>
    if e = 0x65 ∨ e = 0x45 then
      if s = 0x2B ∨ s = 0x2D then do
        let (run, rest) ← digits? rest
        return (e :: s :: run, rest)
      else do
        let (run, rest) ← digits? (s :: rest)
        return (e :: run, rest)
    else some ([], bs)
  | [e] => if e = 0x65 ∨ e = 0x45 then none else some ([], bs)
  | [] => some ([], [])

/-- The number at the front: its spelling and the rest. A point and an exponent mark call for digits
after them. -/
def number? (bs : Bytes) : Option (List Char × Bytes) := do
  let (sign, rest) := sign bs
  let (whole, rest) ← integer? rest
  let (fraction, rest) ← fraction? rest
  let (exponent, rest) ← exponent? rest
  return ((sign ++ whole ++ fraction ++ exponent).map fun b => Char.ofNat b.toNat, rest)

def unit? (bs : Bytes) : Option (Nat × Bytes) := do
  let (front, rest) ← splitBytes? 4 bs
  let n ← Hex.number? (front.map fun b => Char.ofNat b.toNat)
  return (n, rest)

def lowHalf? (bs : Bytes) : Option (Nat × Bytes) :=
  match bs with
  | 0x5C :: 0x75 :: rest => do
    let (n, rest) ← unit? rest
    if 0xDC00 ≤ n ∧ n ≤ 0xDFFF then some (n, rest) else none
  | _ => none

/-- The character an escaped code unit stands for, together with its other half if it has one. -/
def joined (n : Nat) (rest : Bytes) : Char × Bytes :=
  if 0xD800 ≤ n ∧ n ≤ 0xDFFF then
    match lowHalf? rest with
    | some (low, after) =>
      if n ≤ 0xDBFF then (Char.ofNat (0x10000 + (n - 0xD800) * 0x400 + (low - 0xDC00)), after)
      else ('\uFFFD', rest)
    | none => ('\uFFFD', rest)
  else (Char.ofNat n, rest)

def escape? (bs : Bytes) : Option (Char × Bytes) :=
  match bs with
  | [] => none
  | b :: rest =>
    if b = 0x75 then do
      let (n, rest) ← unit? rest
      return joined n rest
    else if b = 0x22 then some ('"', rest)
    else if b = 0x5C then some ('\\', rest)
    else if b = 0x2F then some ('/', rest)
    else if b = 0x62 then some ('\u0008', rest)
    else if b = 0x66 then some ('\u000C', rest)
    else if b = 0x6E then some ('\n', rest)
    else if b = 0x72 then some ('\r', rest)
    else if b = 0x74 then some ('\t', rest)
    else none

theorem splitBytes?_length_le {n : Nat} {bs front rest : Bytes}
    (h : splitBytes? n bs = some (front, rest)) : rest.length ≤ bs.length := by
  unfold splitBytes? at h
  split at h
  · cases h; simp
  · cases h

theorem unit?_length_le {bs rest : Bytes} {n : Nat} (h : unit? bs = some (n, rest)) :
    rest.length ≤ bs.length := by
  simp only [unit?, bind, Option.bind_eq_some_iff, pure, Option.some.injEq, Prod.mk.injEq] at h
  obtain ⟨⟨front, after⟩, hsplit, _, _, _, rfl⟩ := h
  exact splitBytes?_length_le hsplit

theorem lowHalf?_length_le {bs rest : Bytes} {n : Nat} (h : lowHalf? bs = some (n, rest)) :
    rest.length ≤ bs.length := by
  unfold lowHalf? at h
  split at h
  · simp only [bind, Option.bind_eq_some_iff] at h
    obtain ⟨⟨m, after⟩, hunit, h⟩ := h
    split at h
    · cases h
      have := unit?_length_le hunit
      simp only [List.length_cons]
      omega
    · cases h
  · cases h

theorem joined_length_le (n : Nat) (rest : Bytes) : (joined n rest).2.length ≤ rest.length := by
  unfold joined
  split
  · split
    · rename_i h
      split
      · exact lowHalf?_length_le h
      · exact Nat.le_refl _
    · exact Nat.le_refl _
  · exact Nat.le_refl _

theorem escape?_length_le {bs rest : Bytes} {c : Char} (h : escape? bs = some (c, rest)) :
    rest.length ≤ bs.length := by
  unfold escape? at h
  split at h
  · cases h
  · rename_i b after
    by_cases hb : b = 0x75
    · simp only [hb, if_true, bind, Option.bind_eq_some_iff, pure, Option.some.injEq] at h
      obtain ⟨⟨n, tail⟩, hunit, h⟩ := h
      have hle := joined_length_le n tail
      have := unit?_length_le hunit
      rw [h] at hle
      simp only [List.length_cons]
      simp only at hle
      omega
    · simp only [hb, if_false] at h
      repeat' split at h
      all_goals first
        | cases h; simp
        | cases h

/-- The characters of a string up to its closing quote, and the rest. Control characters have to be
escaped. -/
def characters? (bs : Bytes) : Option (List Char × Bytes) :=
  match bs with
  | [] => none
  | b :: after =>
    if b = 0x22 then some ([], after)
    else if b = 0x5C then
      match _h : escape? after with
      | none => none
      | some (c, rest) => do
        let (cs, rest) ← characters? rest
        return (c :: cs, rest)
    else if b < 0x20 then none
    else
      match _h : Utf8.next? (b :: after) with
      | some (c, rest) => do
        let (cs, rest) ← characters? rest
        return (c :: cs, rest)
      | none => do
        let (cs, rest) ← characters? after
        return ('\uFFFD' :: cs, rest)
termination_by bs.length
decreasing_by
  · have := escape?_length_le _h
    simp only [List.length_cons]
    omega
  · exact Utf8.next?_length_lt _h
  · simp

def keyword? (word : String) (token : Token) (bs : Bytes) : Option (Token × Bytes) :=
  let spelling := Utf8.encode word
  if bs.take spelling.length = spelling then some (token, bs.drop spelling.length) else none

def next? (bs : Bytes) : Option (Token × Bytes) :=
  match bs.dropWhile isBlankByte with
  | [] => none
  | b :: rest =>
    if b = 0x5B then some (beginArray, rest)
    else if b = 0x5D then some (endArray, rest)
    else if b = 0x7B then some (beginObject, rest)
    else if b = 0x7D then some (endObject, rest)
    else if b = 0x2C then some (comma, rest)
    else if b = 0x3A then some (colon, rest)
    else if b = 0x22 then (characters? rest).map fun (cs, rest) => (string (String.ofList cs), rest)
    else if b = 0x6E then keyword? "null" null (b :: rest)
    else if b = 0x74 then keyword? "true" (bool true) (b :: rest)
    else if b = 0x66 then keyword? "false" (bool false) (b :: rest)
    else (number? (b :: rest)).map fun (literal, rest) => (number literal, rest)

/-- The tokens of a text up to its end or to the first thing that is none. Every token takes a byte
at least, so the length of the text bounds their number. -/
def scan : Nat → Bytes → List Token
  | 0, _ => []
  | limit + 1, bs =>
    match next? bs with
    | none => []
    | some (token, rest) => token :: scan limit rest

def all (bs : Bytes) : List Token := scan bs.length bs

end Token
end SlotBoard.Json
