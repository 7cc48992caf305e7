import SlotBoard.Bytes

/-!
Text as bytes. A scalar value is written in one to four bytes, and `next?` reads one back off the
front of a byte list. `pieces` cuts any byte list into scalar values and stray bytes; the strict
reading `decode?` refuses a stray byte and the lenient one writes U+FFFD for each.
-/
namespace SlotBoard.Utf8

def encodeChar (c : Char) : Bytes :=
  let n := c.toNat
  if n < 0x80 then [n.toUInt8]
  else if n < 0x800 then [(0xC0 + n / 0x40).toUInt8, (0x80 + n % 0x40).toUInt8]
  else if n < 0x10000 then
    [(0xE0 + n / 0x1000).toUInt8, (0x80 + n / 0x40 % 0x40).toUInt8, (0x80 + n % 0x40).toUInt8]
  else
    [(0xF0 + n / 0x40000).toUInt8, (0x80 + n / 0x1000 % 0x40).toUInt8,
      (0x80 + n / 0x40 % 0x40).toUInt8, (0x80 + n % 0x40).toUInt8]

def encodeChars (cs : List Char) : Bytes := cs.flatMap encodeChar

def encode (s : String) : Bytes := encodeChars s.toList

def tail? (b : UInt8) : Option Nat :=
  if 0x80 ≤ b ∧ b ≤ 0xBF then some (b.toNat - 0x80) else none

/-- A scalar value that is not below `least`, the first one its length of encoding is meant for. -/
def scalar? (least n : Nat) : Option Char :=
  if least ≤ n ∧ n.isValidChar then some (Char.ofNat n) else none

/-- The scalar value whose encoding stands at the front, with the bytes after it. Overlong forms,
surrogates and numbers above U+10FFFF are no encodings. -/
def next? : Bytes → Option (Char × Bytes)
  | [] => none
  | b0 :: rest =>
    if b0 < 0x80 then some (Char.ofNat b0.toNat, rest)
    else if b0 < 0xC0 then none
    else if b0 < 0xE0 then
      match rest with
      | b1 :: rest => do
        let t1 ← tail? b1
        let c ← scalar? 0x80 ((b0.toNat - 0xC0) * 0x40 + t1)
        return (c, rest)
      | [] => none
    else if b0 < 0xF0 then
      match rest with
      | b1 :: b2 :: rest => do
        let t1 ← tail? b1
        let t2 ← tail? b2
        let c ← scalar? 0x800 (((b0.toNat - 0xE0) * 0x40 + t1) * 0x40 + t2)
        return (c, rest)
      | _ => none
    else if b0 < 0xF8 then
      match rest with
      | b1 :: b2 :: b3 :: rest => do
        let t1 ← tail? b1
        let t2 ← tail? b2
        let t3 ← tail? b3
        let c ← scalar? 0x10000 ((((b0.toNat - 0xF0) * 0x40 + t1) * 0x40 + t2) * 0x40 + t3)
        return (c, rest)
      | _ => none
    else none

theorem next?_length_lt {bs rest : Bytes} {c : Char} (h : next? bs = some (c, rest)) :
    rest.length < bs.length := by
  unfold next? at h
  split at h
  · cases h
  · split at h
    · cases h; simp
    · split at h
      · cases h
      · split at h
        · split at h
          · simp only [bind, Option.bind_eq_some_iff, pure, Option.some.injEq, Prod.mk.injEq] at h
            obtain ⟨_, _, _, _, _, rfl⟩ := h
            simp only [List.length_cons]
            omega
          · cases h
        · split at h
          · split at h
            · simp only [bind, Option.bind_eq_some_iff, pure, Option.some.injEq, Prod.mk.injEq] at h
              obtain ⟨_, _, _, _, _, _, _, rfl⟩ := h
              simp only [List.length_cons]
              omega
            · cases h
          · split at h
            · split at h
              · simp only [bind, Option.bind_eq_some_iff, pure, Option.some.injEq,
                  Prod.mk.injEq] at h
                obtain ⟨_, _, _, _, _, _, _, _, _, rfl⟩ := h
                simp only [List.length_cons]
                omega
              · cases h
            · cases h

/-- The scalar values of a byte list in order, with `none` for each byte that starts none. -/
def pieces : Bytes → List (Option Char)
  | [] => []
  | b :: bs =>
    match _h : next? (b :: bs) with
    | some (c, rest) => some c :: pieces rest
    | none => none :: pieces bs
termination_by bs => bs.length
decreasing_by
  · exact next?_length_lt _h
  · simp

def decode? (bs : Bytes) : Option String := ((pieces bs).mapM id).map String.ofList

def decodeLossy (bs : Bytes) : String :=
  String.ofList ((pieces bs).map fun piece => piece.getD '\ufffd')

end SlotBoard.Utf8
