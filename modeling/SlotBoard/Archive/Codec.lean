import SlotBoard.Archive.Basic

/-!
Archives as bytes: a header, then the fields of one artifact after the other. A field ends with a
zero byte; a zero or a one inside it is written as a one followed by the byte after it, so that a
field is read back without knowing its length. Numbers are fields of eight bytes.
-/
namespace SlotBoard

namespace Delimited

def encode : Bytes → Bytes
  | [] => [0]
  | b :: bs => if b ≤ 1 then 1 :: (b + 1) :: encode bs else b :: encode bs

def decode? : Bytes → Option (Bytes × Bytes)
  | [] => none
  | 0 :: rest => some ([], rest)
  | 1 :: c :: rest => (decode? rest).map fun (bs, rest) => ((c - 1) :: bs, rest)
  | b :: rest => (decode? rest).map fun (bs, rest) => (b :: bs, rest)

theorem decode?_encode (bs rest : Bytes) : decode? (encode bs ++ rest) = some (bs, rest) := by
  induction bs with
  | nil => rfl
  | cons b bs ih =>
    by_cases h : b ≤ 1
    · simp [encode, h, decode?, ih]
    · have h0 : b ≠ 0 := by rintro rfl; simp at h
      have h1 : b ≠ 1 := by rintro rfl; simp at h
      simp [encode, h, decode?, h1, ih]

def text? (bs : Bytes) : Option (String × Bytes) := do
  let (field, rest) ← decode? bs
  let s ← Utf8.decode? field
  return (s, rest)

def ofInt64 (n : Int64) : Bytes := encode (bigEndian 8 n.toUInt64.toNat)

def int64? (bs : Bytes) : Option (Int64 × Bytes) :=
  (decode? bs).map fun (field, rest) => ((ofBigEndian field).toUInt64.toInt64, rest)

end Delimited

namespace Artifact

def encode (a : Artifact) : Bytes :=
  Delimited.encode (Utf8.encode a.id) ++ Delimited.encode (Utf8.encode a.module) ++
    Delimited.encode (Utf8.encode a.fingerprint) ++ Delimited.encode (Utf8.encode a.format) ++
    Delimited.encode a.bytes ++ Delimited.encode (Utf8.encode a.text) ++
    Delimited.ofInt64 a.diagnostics ++ Delimited.ofInt64 a.created

def decode? (bs : Bytes) : Option (Artifact × Bytes) := do
  let (id, bs) ← Delimited.text? bs
  let (module, bs) ← Delimited.text? bs
  let (fingerprint, bs) ← Delimited.text? bs
  let (format, bs) ← Delimited.text? bs
  let (bytes, bs) ← Delimited.decode? bs
  let (text, bs) ← Delimited.text? bs
  let (diagnostics, bs) ← Delimited.int64? bs
  let (created, bs) ← Delimited.int64? bs
  return ({ id, module, fingerprint, format, bytes, text, diagnostics, created }, bs)

/-- Artifacts up to the end of the bytes; there are no more of them than bytes. -/
def decodeAll? : Nat → Bytes → Option (List Artifact)
  | _, [] => some []
  | 0, _ => none
  | room + 1, bs => do
    let (a, bs) ← decode? bs
    let as ← decodeAll? room bs
    return a :: as

end Artifact

namespace Archive

def header : Bytes := Utf8.encode "slot artifacts 1\n"

def encode (archive : Archive) : Bytes := header ++ archive.artifacts.flatMap Artifact.encode

def decode? (bs : Bytes) : Option Archive :=
  if header.isPrefixOf bs then
    (Artifact.decodeAll? bs.length (bs.drop header.length)).map fun artifacts => { artifacts }
  else none

end Archive
end SlotBoard
