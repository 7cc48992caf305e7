import SlotBoard.Cbor.Parser
import SlotBoard.Cbor.Reading
import SlotBoard.Proofs.Utf8

/-!
Data items and their bytes. The head of an item is read back from its encoding, so the encoding of an
item in its usual form tells where it ends: no such encoding begins with that of another item. The
reader gives an item back exactly if its arrays and maps nest no deeper than there is room for and
none of them is longer than allowed; it refuses all others.
-/
namespace SlotBoard

theorem ofBigEndian_concat (bs : Bytes) (b : UInt8) :
    ofBigEndian (bs ++ [b]) = ofBigEndian bs * 256 + b.toNat := by
  rw [ofBigEndian, List.foldl_append]
  rfl

theorem ofBigEndian_bigEndian {width n : Nat} (h : n < Nat.pow 256 width) :
    ofBigEndian (bigEndian width n) = n := by
  induction width generalizing n with
  | zero =>
    have hn : n < 1 := h
    obtain rfl : n = 0 := by omega
    rfl
  | succ width ih =>
    have hdiv : n / 256 < Nat.pow 256 width := Nat.div_lt_of_lt_mul (by rwa [Nat.mul_comm])
    have hlast : n.toUInt8.toNat = n % 256 := UInt8.toNat_ofNat'
    rw [bigEndian, ofBigEndian_concat, ih hdiv, hlast]
    omega

theorem splitBytes?_append {front : Bytes} {n : Nat} (h : front.length = n) (rest : Bytes) :
    splitBytes? n (front ++ rest) = some (front, rest) := by
  subst h
  rw [splitBytes?, if_pos (by simp), List.take_left, List.drop_left]

namespace Cbor

def numberLimit : Nat := 0x10000000000000000

theorem number?_bigEndian (width : Nat) {n : Nat} (h : n < Nat.pow 256 width) (rest : Bytes) :
    number? width (bigEndian width n ++ rest) = some (.definite n, rest) := by
  rw [number?, splitBytes?_append (bigEndian_length width n)]
  simp only [Option.bind_eq_bind, Option.bind_some, ofBigEndian_bigEndian h]
  rfl

def headInfo (n : Nat) : Nat :=
  if n < 24 then n
  else if n < 0x100 then 24
  else if n < 0x10000 then 25
  else if n < 0x100000000 then 26
  else 27

/-- A head is read back, whatever follows it. -/
theorem head?_head {major n : Nat} (hmajor : major < 8) (hn : n < numberLimit) (rest : Bytes) :
    head? (head major n ++ rest) =
      some ({ major, info := headInfo n, count := .definite n }, rest) := by
  have hinitial : ∀ k < 32, (major * 32 + k).toUInt8.toNat / 32 = major ∧
      (major * 32 + k).toUInt8.toNat % 32 = k := by
    intro k hk
    rw [toNat_toUInt8 (by omega)]
    omega
  unfold head headInfo
  split
  · rename_i h
    obtain ⟨hdiv, hmod⟩ := hinitial n (by omega)
    simp only [List.cons_append, List.nil_append, head?, hdiv, hmod, if_pos h]
    rfl
  · split
    · obtain ⟨hdiv, hmod⟩ := hinitial 24 (by omega)
      have hnumber := number?_bigEndian 1 (n := n) (by simpa) rest
      simp only [List.cons_append, head?, hdiv, hmod, hnumber]
      rfl
    · split
      · obtain ⟨hdiv, hmod⟩ := hinitial 25 (by omega)
        have hnumber := number?_bigEndian 2 (n := n) (by simpa) rest
        simp only [List.cons_append, head?, hdiv, hmod, hnumber]
        rfl
      · split
        · obtain ⟨hdiv, hmod⟩ := hinitial 26 (by omega)
          have hnumber := number?_bigEndian 4 (n := n) (by simpa) rest
          simp only [List.cons_append, head?, hdiv, hmod, hnumber]
          rfl
        · obtain ⟨hdiv, hmod⟩ := hinitial 27 (by omega)
          have hnumber := number?_bigEndian 8 (n := n) (by simpa) rest
          simp only [List.cons_append, head?, hdiv, hmod, hnumber]
          rfl

theorem head_append_inj {major major' n n' : Nat} {rest rest' : Bytes} (hmajor : major < 8)
    (hmajor' : major' < 8) (hn : n < numberLimit) (hn' : n' < numberLimit)
    (h : head major n ++ rest = head major' n' ++ rest') :
    major = major' ∧ n = n' ∧ rest = rest' := by
  have hread := head?_head hmajor hn rest
  rw [h, head?_head hmajor' hn' rest'] at hread
  simp only [Option.some.injEq, Prod.mk.injEq, Head.mk.injEq, Count.definite.injEq] at hread
  obtain ⟨⟨hm, -, hcount⟩, hrest⟩ := hread
  exact ⟨hm.symm, hcount.symm, hrest.symm⟩

theorem head_ne_nil (major n : Nat) : head major n ≠ [] := by
  unfold head
  repeat' split
  all_goals exact List.cons_ne_nil _ _

namespace Datum

def major : Datum → Nat
  | unsigned _ => 0
  | negative _ => 1
  | bytes _ => 2
  | text _ => 3
  | array _ => 4
  | map _ => 5
  | tag .. => 6
  | simple _ | float _ => 7

def number : Datum → Nat
  | unsigned n | negative n | tag n _ | simple n => n
  | bytes content => content.length
  | text chunks => chunks.flatten.length
  | array items => items.length
  | map entries => entries.length
  | float content => 24 + content.length.log2

def content : Datum → Bytes
  | unsigned _ | negative _ | simple _ => []
  | bytes content | float content => content
  | text chunks => chunks.flatten
  | array items => encodeItems items
  | map entries => encodeEntries entries
  | tag _ content => content.encode

theorem major_lt (d : Datum) : d.major < 8 := by cases d <;> simp [major]

end Datum

mutual

/-- Items in their usual form: every number fits into a head, a text is in one piece, and there are no
tags, no floats and no simple values that have no encoding. -/
def Datum.usual : Datum → Bool
  | .unsigned n | .negative n => n < numberLimit
  | .bytes content => content.length < numberLimit
  | .text [content] => content.length < numberLimit
  | .array items => items.length < numberLimit && usualItems items
  | .map entries => entries.length < numberLimit && usualEntries entries
  | .simple code => code < 24
  | .text _ | .tag .. | .float _ => false
termination_by structural datum => datum

def usualItems : List Datum → Bool
  | [] => true
  | datum :: items => datum.usual && usualItems items
termination_by structural items => items

def usualEntries : List (Datum × Datum) → Bool
  | [] => true
  | entry :: entries => usualEntry entry && usualEntries entries
termination_by structural entries => entries

def usualEntry : Datum × Datum → Bool
  | (key, value) => key.usual && value.usual
termination_by structural entry => entry

end

theorem usualItems_eq_all (items : List Datum) : usualItems items = items.all Datum.usual := by
  induction items with
  | nil => rfl
  | cons d items ih => rw [usualItems, ih, List.all_cons]

theorem usualEntries_eq_all (entries : List (Datum × Datum)) :
    usualEntries entries = entries.all usualEntry := by
  induction entries with
  | nil => rfl
  | cons entry entries ih => rw [usualEntries, ih, List.all_cons]

theorem Datum.exists_of_usual_text {chunks : List Bytes} (h : (text chunks).usual = true) :
    ∃ content, chunks = [content] ∧ content.length < numberLimit := by
  unfold usual at h
  split at h
  all_goals simp_all

theorem Datum.encode_eq {d : Datum} (h : d.usual = true) :
    d.encode = head d.major d.number ++ d.content := by
  cases d with
  | tag | float => simp [usual] at h
  | _ => simp [encode, major, number, content]

theorem Datum.number_lt {d : Datum} (h : d.usual = true) : d.number < numberLimit := by
  cases d with
  | tag | float => simp [usual] at h
  | text chunks =>
    obtain ⟨content, rfl, hlength⟩ := exists_of_usual_text h
    simpa [number] using hlength
  | simple code =>
    simp only [usual, decide_eq_true_eq] at h
    simp only [number, numberLimit]
    omega
  | _ =>
    simp only [usual, Bool.and_eq_true, decide_eq_true_eq] at h
    simp [number, h]

mutual

/-- Whether items nest no deeper than there is room for, and arrays and maps are no longer than
allowed. -/
def Datum.fits (room : Nat) : Datum → Bool
  | .array items => 0 < room && items.length ≤ maxCount && fitItems (room - 1) items
  | .map entries => 0 < room && entries.length ≤ maxCount && fitEntries (room - 1) entries
  | _ => true
termination_by structural datum => datum

def fitItems (room : Nat) : List Datum → Bool
  | [] => true
  | datum :: items => datum.fits room && fitItems room items
termination_by structural items => items

def fitEntries (room : Nat) : List (Datum × Datum) → Bool
  | [] => true
  | entry :: entries => fitEntry room entry && fitEntries room entries
termination_by structural entries => entries

def fitEntry (room : Nat) : Datum × Datum → Bool
  | (key, value) => key.fits room && value.fits room
termination_by structural entry => entry

end

theorem fitItems_eq_all (room : Nat) (items : List Datum) :
    fitItems room items = items.all (·.fits room) := by
  induction items with
  | nil => rfl
  | cons d items ih => rw [fitItems, ih, List.all_cons]

theorem fitEntries_eq_all (room : Nat) (entries : List (Datum × Datum)) :
    fitEntries room entries = entries.all (fitEntry room) := by
  induction entries with
  | nil => rfl
  | cons entry entries ih => rw [fitEntries, ih, List.all_cons]

/-- An item without tags is taken apart behind its head. -/
theorem tags?_head {major n : Nat} (hmajor : major < 8) (htag : major ≠ 6) (hn : n < numberLimit)
    (rest : Bytes) :
    tags? (head major n ++ rest).length (head major n ++ rest) =
      some ([], { major, info := headInfo n, count := .definite n }, rest) := by
  obtain ⟨fuel, hfuel⟩ : ∃ fuel, (head major n ++ rest).length = fuel + 1 := by
    refine Nat.exists_eq_succ_of_ne_zero fun hzero => head_ne_nil major n ?_
    exact (List.append_eq_nil_iff.mp (List.eq_nil_of_length_eq_zero hzero)).1
  rw [hfuel, tags?, head?_head hmajor hn]
  simp only [Option.bind_eq_bind, Option.bind_some]
  split
  · exact absurd rfl htag
  · rfl

namespace Datum

theorem readDatum_scalar (room : Nat) {d : Datum} (h : d.usual = true)
    (hscalar : d.major ≠ 4 ∧ d.major ≠ 5) (rest : Bytes) :
    readDatum room (d.encode ++ rest) = some (d, rest) := by
  have htag : d.major ≠ 6 := by
    cases d with
    | tag => simp [usual] at h
    | _ => simp [major]
  rw [readDatum, encode_eq h, List.append_assoc, tags?_head d.major_lt htag (number_lt h)]
  cases d with
  | tag | float => simp [usual] at h
  | array | map => simp [major] at hscalar
  | unsigned | negative => rfl
  | bytes content =>
    simp [major, number, Datum.content, readChunks, splitBytes?_append]
  | text chunks =>
    obtain ⟨content, rfl, -⟩ := exists_of_usual_text h
    simp [major, number, Datum.content, readChunks, splitBytes?_append]
  | simple code =>
    simp only [usual, decide_eq_true_eq] at h
    simp [major, number, Datum.content, special?, headInfo, h]

end Datum

theorem readDatum_array (room : Nat) {n : Nat} (hn : n < numberLimit) (rest : Bytes) :
    readDatum room (head 4 n ++ rest) =
      if 0 < room ∧ n ≤ maxCount then
        (readMany (readDatum (room - 1)) n rest).map fun (items, bs) => (.array items, bs)
      else none := by
  rw [readDatum, tags?_head (by omega) (by omega) hn]
  by_cases hroom : 0 < room
  · by_cases hcount : n ≤ maxCount
    · cases hmany : readMany (readDatum (room - 1)) n rest <;>
        simp [hroom, hcount, readSeries, hmany]
    · simp [hcount, readSeries]
  · simp [hroom]

theorem readDatum_map (room : Nat) {n : Nat} (hn : n < numberLimit) (rest : Bytes) :
    readDatum room (head 5 n ++ rest) =
      if 0 < room ∧ n ≤ maxCount then
        (readMany (readPair (readDatum (room - 1))) n rest).map fun (entries, bs) =>
          (.map entries, bs)
      else none := by
  rw [readDatum, tags?_head (by omega) (by omega) hn]
  by_cases hroom : 0 < room
  · by_cases hcount : n ≤ maxCount
    · cases hmany : readMany (readPair (readDatum (room - 1))) n rest <;>
        simp [hroom, hcount, readSeries, hmany]
    · simp [hcount, readSeries]
  · simp [hroom]

mutual

/-- An item in its usual form is given back by the reader exactly if it fits. -/
theorem readDatum_encode : (d : Datum) → d.usual = true → ∀ (room : Nat) (rest : Bytes),
    readDatum room (d.encode ++ rest) = if d.fits room then some (d, rest) else none
  | .array items, h, room, rest => by
    simp only [Datum.usual, Bool.and_eq_true, decide_eq_true_eq] at h
    rw [Datum.encode, List.append_assoc, readDatum_array room h.1,
      readMany_encodeItems items h.2 (room - 1) rest]
    by_cases hroom : 0 < room ∧ items.length ≤ maxCount
    · rw [if_pos hroom]
      cases hfit : fitItems (room - 1) items <;> simp [Datum.fits, hroom, hfit]
    · rw [if_neg hroom]
      have hfits : (Datum.array items).fits room = false := by
        simp only [Datum.fits, Bool.and_eq_false_iff, decide_eq_false_iff_not]
        omega
      rw [hfits]
      rfl
  | .map entries, h, room, rest => by
    simp only [Datum.usual, Bool.and_eq_true, decide_eq_true_eq] at h
    rw [Datum.encode, List.append_assoc, readDatum_map room h.1,
      readMany_encodeEntries entries h.2 (room - 1) rest]
    by_cases hroom : 0 < room ∧ entries.length ≤ maxCount
    · rw [if_pos hroom]
      cases hfit : fitEntries (room - 1) entries <;> simp [Datum.fits, hroom, hfit]
    · rw [if_neg hroom]
      have hfits : (Datum.map entries).fits room = false := by
        simp only [Datum.fits, Bool.and_eq_false_iff, decide_eq_false_iff_not]
        omega
      rw [hfits]
      rfl
  | .unsigned n, h, room, rest => Datum.readDatum_scalar room h (by simp [Datum.major]) rest
  | .negative n, h, room, rest => Datum.readDatum_scalar room h (by simp [Datum.major]) rest
  | .bytes content, h, room, rest => Datum.readDatum_scalar room h (by simp [Datum.major]) rest
  | .text chunks, h, room, rest => Datum.readDatum_scalar room h (by simp [Datum.major]) rest
  | .simple code, h, room, rest => Datum.readDatum_scalar room h (by simp [Datum.major]) rest
  | .tag number content, h, _, _ => by simp [Datum.usual] at h
  | .float content, h, _, _ => by simp [Datum.usual] at h
termination_by structural d => d

theorem readMany_encodeItems : (items : List Datum) → usualItems items = true →
    ∀ (room : Nat) (rest : Bytes),
      readMany (readDatum room) items.length (encodeItems items ++ rest) =
        if fitItems room items then some (items, rest) else none
  | [], _, _, _ => rfl
  | d :: items, h, room, rest => by
    simp only [usualItems, Bool.and_eq_true] at h
    rw [List.length_cons, readMany, encodeItems, List.append_assoc,
      readDatum_encode d h.1 room (encodeItems items ++ rest), fitItems]
    cases d.fits room with
    | false => rfl
    | true =>
      simp only [if_true, Option.bind_eq_bind, Option.bind_some, Bool.true_and]
      rw [readMany_encodeItems items h.2 room rest]
      cases fitItems room items <;> rfl
termination_by structural items => items

theorem readMany_encodeEntries : (entries : List (Datum × Datum)) → usualEntries entries = true →
    ∀ (room : Nat) (rest : Bytes),
      readMany (readPair (readDatum room)) entries.length (encodeEntries entries ++ rest) =
        if fitEntries room entries then some (entries, rest) else none
  | [], _, _, _ => rfl
  | entry :: entries, h, room, rest => by
    simp only [usualEntries, Bool.and_eq_true] at h
    rw [List.length_cons, readMany, encodeEntries, List.append_assoc,
      readPair_encodeEntry entry h.1 room (encodeEntries entries ++ rest), fitEntries]
    cases fitEntry room entry with
    | false => rfl
    | true =>
      simp only [if_true, Option.bind_eq_bind, Option.bind_some, Bool.true_and]
      rw [readMany_encodeEntries entries h.2 room rest]
      cases fitEntries room entries <;> rfl
termination_by structural entries => entries

theorem readPair_encodeEntry : (entry : Datum × Datum) → usualEntry entry = true →
    ∀ (room : Nat) (rest : Bytes),
      readPair (readDatum room) (encodeEntry entry ++ rest) =
        if fitEntry room entry then some (entry, rest) else none
  | (key, value), h, room, rest => by
    simp only [usualEntry, Bool.and_eq_true] at h
    rw [readPair, encodeEntry, List.append_assoc,
      readDatum_encode key h.1 room (value.encode ++ rest), fitEntry]
    cases key.fits room with
    | false => rfl
    | true =>
      simp only [if_true, Option.bind_eq_bind, Option.bind_some, Bool.true_and]
      rw [readDatum_encode value h.2 room rest]
      cases value.fits room <;> rfl
termination_by structural entry => entry

end

/-- A document that holds an item in its usual form is read as that item if it fits, and refused
otherwise. -/
theorem parse?_encode {d : Datum} (h : d.usual = true) :
    parse? d.encode = if d.fits maxDepth then some d else none := by
  have hread := readDatum_encode d h maxDepth []
  rw [List.append_nil] at hread
  rw [parse?, hread]
  cases d.fits maxDepth <;> rfl

mutual

/-- The encoding of an item in its usual form tells where the item ends, and which item it is. -/
theorem encode_append_inj : (d : Datum) → d.usual = true → ∀ (e : Datum), e.usual = true →
    ∀ {r s : Bytes}, d.encode ++ r = e.encode ++ s → d = e ∧ r = s
  | d, hd, e, he, r, s, h => by
    rw [Datum.encode_eq hd, Datum.encode_eq he, List.append_assoc, List.append_assoc] at h
    obtain ⟨hmajor, hnumber, hrest⟩ := head_append_inj d.major_lt e.major_lt (Datum.number_lt hd)
      (Datum.number_lt he) h
    cases d with
    | tag | float => simp [Datum.usual] at hd
    | unsigned n =>
      cases e <;> simp [Datum.major] at hmajor
      exact ⟨congrArg Datum.unsigned hnumber, hrest⟩
    | negative n =>
      cases e <;> simp [Datum.major] at hmajor
      exact ⟨congrArg Datum.negative hnumber, hrest⟩
    | simple n =>
      cases e <;> simp [Datum.major, Datum.usual] at hmajor he
      exact ⟨congrArg Datum.simple hnumber, hrest⟩
    | bytes content =>
      cases e <;> simp [Datum.major] at hmajor
      obtain ⟨hcontent, hrest⟩ := List.append_inj hrest hnumber
      exact ⟨congrArg Datum.bytes hcontent, hrest⟩
    | text chunks =>
      cases e <;> simp [Datum.major] at hmajor
      obtain ⟨content, rfl, -⟩ := Datum.exists_of_usual_text hd
      obtain ⟨content', rfl, -⟩ := Datum.exists_of_usual_text he
      obtain ⟨hcontent, hrest⟩ := List.append_inj hrest hnumber
      simp only [Datum.content, List.flatten_singleton] at hcontent
      exact ⟨by rw [hcontent], hrest⟩
    | array items =>
      cases e <;> simp [Datum.major] at hmajor
      rename_i items'
      simp only [Datum.usual, Bool.and_eq_true] at hd he
      obtain ⟨hitems, hrest⟩ := encodeItems_append_inj items hd.2 items' he.2 hnumber hrest
      exact ⟨by rw [hitems], hrest⟩
    | map entries =>
      cases e <;> simp [Datum.major] at hmajor
      rename_i entries'
      simp only [Datum.usual, Bool.and_eq_true] at hd he
      obtain ⟨hentries, hrest⟩ := encodeEntries_append_inj entries hd.2 entries' he.2 hnumber hrest
      exact ⟨by rw [hentries], hrest⟩
termination_by structural d => d

theorem encodeItems_append_inj : (ds : List Datum) → usualItems ds = true → ∀ (es : List Datum),
    usualItems es = true → ds.length = es.length →
    ∀ {r s : Bytes}, encodeItems ds ++ r = encodeItems es ++ s → ds = es ∧ r = s
  | [], _, [], _, _, _, _, h => ⟨rfl, h⟩
  | d :: ds, hd, e :: es, he, hlength, r, s, h => by
    simp only [usualItems, Bool.and_eq_true] at hd he
    rw [encodeItems, encodeItems, List.append_assoc, List.append_assoc] at h
    obtain ⟨rfl, htail⟩ := encode_append_inj d hd.1 e he.1 h
    obtain ⟨rfl, hrest⟩ := encodeItems_append_inj ds hd.2 es he.2 (Nat.succ.inj hlength) htail
    exact ⟨rfl, hrest⟩
termination_by structural ds => ds

theorem encodeEntries_append_inj : (ds : List (Datum × Datum)) → usualEntries ds = true →
    ∀ (es : List (Datum × Datum)), usualEntries es = true → ds.length = es.length →
    ∀ {r s : Bytes}, encodeEntries ds ++ r = encodeEntries es ++ s → ds = es ∧ r = s
  | [], _, [], _, _, _, _, h => ⟨rfl, h⟩
  | d :: ds, hd, e :: es, he, hlength, r, s, h => by
    simp only [usualEntries, Bool.and_eq_true] at hd he
    rw [encodeEntries, encodeEntries, List.append_assoc, List.append_assoc] at h
    obtain ⟨rfl, htail⟩ := encodeEntry_append_inj d hd.1 e he.1 h
    obtain ⟨rfl, hrest⟩ := encodeEntries_append_inj ds hd.2 es he.2 (Nat.succ.inj hlength) htail
    exact ⟨rfl, hrest⟩
termination_by structural ds => ds

theorem encodeEntry_append_inj : (d : Datum × Datum) → usualEntry d = true →
    ∀ (e : Datum × Datum), usualEntry e = true →
    ∀ {r s : Bytes}, encodeEntry d ++ r = encodeEntry e ++ s → d = e ∧ r = s
  | (key, value), hd, (key', value'), he, r, s, h => by
    simp only [usualEntry, Bool.and_eq_true] at hd he
    rw [encodeEntry, encodeEntry, List.append_assoc, List.append_assoc] at h
    obtain ⟨rfl, htail⟩ := encode_append_inj key hd.1 key' he.1 h
    obtain ⟨rfl, hrest⟩ := encode_append_inj value hd.2 value' he.2 htail
    exact ⟨rfl, hrest⟩
termination_by structural d => d

end

theorem encode_inj {d e : Datum} (hd : d.usual = true) (he : e.usual = true)
    (h : d.encode = e.encode) : d = e := by
  rw [← List.append_nil d.encode, ← List.append_nil e.encode] at h
  exact (encode_append_inj d hd e he h).1

theorem Datum.usual_ofString {t : String} (h : (Utf8.encode t).length < numberLimit) :
    (ofString t).usual = true := decide_eq_true h

theorem Datum.usual_ofBool (b : Bool) : (ofBool b).usual = true := by cases b <;> rfl

theorem Datum.usual_ofInt {n : Int} (h : Decimal.inRange n = true) : (ofInt n).usual = true := by
  simp only [Decimal.inRange, Bool.and_eq_true, decide_eq_true_eq] at h
  unfold Decimal.least Decimal.greatest at h
  cases n with
  | ofNat n =>
    have hn : n < numberLimit := by
      rw [Int.ofNat_eq_natCast] at h
      unfold numberLimit
      omega
    exact decide_eq_true hn
  | negSucc n =>
    have hn : n < numberLimit := by
      unfold numberLimit
      omega
    exact decide_eq_true hn

theorem Datum.fits_ofString (room : Nat) (t : String) : (ofString t).fits room = true := rfl

theorem Datum.fits_ofInt (room : Nat) (n : Int) : (ofInt n).fits room = true := by cases n <;> rfl

@[simp] theorem Datum.text?_ofString (s : String) : (ofString s).text? = some s := by
  simp [ofString, text?, Utf8.decode?_encode]

@[simp] theorem Datum.bool?_ofBool (b : Bool) : (ofBool b).bool? = some b := by cases b <;> rfl

theorem Datum.integer?_ofInt {n : Int} (h : Decimal.inRange n = true) :
    (ofInt n).integer? = some n := by
  cases n with
  | ofNat n => exact if_pos h
  | negSucc n =>
    have hn : (-1 - (n : Int)) = Int.negSucc n := by omega
    simp only [ofInt, integer?, ranged?, hn]
    exact if_pos h

theorem key?_ofString (s : String) : key? (.ofString s) = some (.name s) := by
  simp [key?, Datum.ofString, Utf8.decode?_encode]

theorem key?_unsigned (n : Nat) : key? (.unsigned n) = some (.number n) := rfl

@[simp] theorem Datum.fields?_nil : (map []).fields? = some [] := rfl

theorem Datum.fields?_cons {k : Datum} {key : Key} (hkey : key? k = some key) (value : Datum)
    (entries : List (Datum × Datum)) :
    (map ((k, value) :: entries)).fields? = ((map entries).fields?).map ((key, value) :: ·) := by
  unfold fields? entries?
  simp only [Option.bind_eq_bind, Option.bind_some, List.mapM_cons, hkey, Option.map_eq_bind]
  rfl

section Lookup

variable {α : Type} (fits : Key → Bool) (read : Datum → Option α) (absent : α)

@[simp] theorem field?_nil : field? [] fits read absent = some absent := rfl

theorem field?_cons (key : Key) (datum : Datum) (fields : List (Key × Datum)) :
    field? ((key, datum) :: fields) fits read absent =
      if fits key then read datum else field? fields fits read absent := by
  unfold field?
  cases h : fits key <;> simp [h]

end Lookup

end Cbor
end SlotBoard
