import SlotBoard.Cbor.Datum

/-!
Reading data items. A document is exactly one item. Both definite and indefinite lengths are read,
and numbers in any of their widths. Nesting is limited: every array and every map takes one level,
and so does every tag that directly follows another tag.
-/
namespace SlotBoard.Cbor

def maxDepth : Nat := 32

def maxCount : Nat := 131072

/-- The number in the front of an item. -/
inductive Count where
  | definite (n : Nat)
  | indefinite

/-- The initial byte taken apart: the major type, the five bits after it, and the number. -/
structure Head where
  major : Nat
  info : Nat
  count : Count

def number? (width : Nat) (bs : Bytes) : Option (Count × Bytes) := do
  let (front, rest) ← splitBytes? width bs
  return (.definite (ofBigEndian front), rest)

/-- The head of the item at the front. Only strings, arrays and maps may be of indefinite length. -/
def head? : Bytes → Option (Head × Bytes)
  | [] => none
  | b :: bs => do
    let major := b.toNat / 32
    let info := b.toNat % 32
    let (count, rest) ←
      if info < 24 then some (.definite info, bs)
      else if info = 24 then number? 1 bs
      else if info = 25 then number? 2 bs
      else if info = 26 then number? 4 bs
      else if info = 27 then number? 8 bs
      else if info = 31 ∧ 2 ≤ major ∧ major ≤ 5 then some (.indefinite, bs)
      else none
    return ({ major, info, count }, rest)

def breakByte : UInt8 := 0xFF

def readMany (read : Bytes → Option (α × Bytes)) : Nat → Bytes → Option (List α × Bytes)
  | 0, bs => some ([], bs)
  | n + 1, bs => do
    let (a, bs) ← read bs
    let (as, bs) ← readMany read n bs
    return (a :: as, bs)

def readToBreak (read : Bytes → Option (α × Bytes)) : Nat → Bytes → Option (List α × Bytes)
  | 0, bs =>
    match bs with
    | b :: rest => if b = breakByte then some ([], rest) else none
    | [] => none
  | limit + 1, bs =>
    match bs with
    | b :: rest =>
      if b = breakByte then some ([], rest)
      else do
        let (a, bs) ← read bs
        let (as, bs) ← readToBreak read limit bs
        return (a :: as, bs)
    | [] => none

def readSeries (read : Bytes → Option (α × Bytes)) (count : Count) (bs : Bytes) :
    Option (List α × Bytes) :=
  match count with
  | .definite n => if n ≤ maxCount then readMany read n bs else none
  | .indefinite => readToBreak read maxCount bs

def readPair (read : Bytes → Option (α × Bytes)) (bs : Bytes) : Option ((α × α) × Bytes) := do
  let (a, bs) ← read bs
  let (b, bs) ← read bs
  return ((a, b), bs)

/-- One chunk of a string of indefinite length: a string of the same type and of definite length. -/
def chunk? (major : Nat) (bs : Bytes) : Option (Bytes × Bytes) := do
  let (head, bs) ← head? bs
  match head.count with
  | .definite n => if head.major = major then splitBytes? n bs else none
  | .indefinite => none

/-- The chunks of a string. One of definite length is a single chunk. -/
def readChunks (major : Nat) (count : Count) (bs : Bytes) : Option (List Bytes × Bytes) :=
  match count with
  | .definite n => do
    let (content, bs) ← splitBytes? n bs
    return ([content], bs)
  | .indefinite => readToBreak (chunk? major) bs.length bs

/-- A simple value or a float. A simple value below 32 has no second byte. -/
def special? (info n : Nat) : Option Datum :=
  if info < 24 then some (.simple n)
  else if info = 24 then if n < 32 then none else some (.simple n)
  else some (.float (bigEndian (1 <<< (info - 24)) n))

def tags? : Nat → Bytes → Option (List Nat × Head × Bytes)
  | 0, _ => none
  | fuel + 1, bs => do
    let (head, bs) ← head? bs
    match head.major, head.count with
    | 6, .definite n => do
      let (tags, head, bs) ← tags? fuel bs
      return (n :: tags, head, bs)
    | _, _ => return ([], head, bs)

/-- Read the item at the front, with `room` levels of nesting left. -/
def readDatum (room : Nat) (bs : Bytes) : Option (Datum × Bytes) := do
  let (tags, head, bs) ← tags? bs.length bs
  if room < tags.length - 1 then none
  let (item, bs) ← match head.major, head.count with
    | 0, .definite n => some (.unsigned n, bs)
    | 1, .definite n => some (.negative n, bs)
    | 2, count => do
      let (chunks, bs) ← readChunks 2 count bs
      some (.bytes chunks.flatten, bs)
    | 3, count => do
      let (chunks, bs) ← readChunks 3 count bs
      some (.text chunks, bs)
    | 4, count =>
      if _h : tags.length - 1 < room then do
        let (items, bs) ← readSeries (readDatum (room - (tags.length - 1) - 1)) count bs
        some (.array items, bs)
      else none
    | 5, count =>
      if _h : tags.length - 1 < room then do
        let readEntry := readPair (readDatum (room - (tags.length - 1) - 1))
        let (entries, bs) ← readSeries readEntry count bs
        some (.map entries, bs)
      else none
    | _, .definite n => (special? head.info n).map (·, bs)
    | _, .indefinite => none
  return (tags.foldr .tag item, bs)
termination_by room

def parse? (bs : Bytes) : Option Datum :=
  match readDatum maxDepth bs with
  | some (item, []) => some item
  | _ => none

end SlotBoard.Cbor
