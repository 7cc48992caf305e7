import SlotBoard.Proofs.Cbor
import SlotBoard.Proofs.Outcome
import SlotBoard.Snapshot.Codec

/-!
Snapshots and their bytes. Every record is read back from the data item it is written as, whatever it
holds. A snapshot whose sizes and successors are 64-bit words is written in the usual form, and its
arrays and maps nest seven deep; so its bytes determine it, and the reader gives it back exactly if
none of its lists is longer than allowed.
-/
namespace SlotBoard

namespace Snapshot

open Cbor

theorem list?_map {α : Type} {read : Datum → Option α} {write : α → Datum} {as : List α}
    (h : ∀ a ∈ as, read (write a) = some a) : (Datum.array (as.map write)).list? read = some as :=
  mapM_map_pure h

/-- An empty list is written as null and read back all the same. -/
theorem list?_seriesDatum {α : Type} {read : Datum → Option α} {write : α → Datum} {as : List α}
    (h : ∀ a ∈ as, read (write a) = some a) : (seriesDatum write as).list? read = some as := by
  cases as with
  | nil => rfl
  | cons a as => exact list?_map h

theorem flags?_flagsDatum (flags : Flags) : flags? (flagsDatum flags) = some flags := by
  have hfields : (flagsDatum flags).fields? = some [
      (.name "Member", .ofBool flags.isMember), (.name "Public", .ofBool flags.isPublic),
      (.name "Volatile", .ofBool flags.isVolatile),
      (.name "MethodParam", .ofBool flags.methodParam),
      (.name "PrivateMethod", .ofBool flags.privateMethod),
      (.name "GlobalConstant", .ofBool flags.globalConstant)] := by
    simp only [flagsDatum, Datum.fields?_cons (key?_ofString _), Datum.fields?_nil,
      Option.map_some]
  simp [flags?, hfields, field?_cons, isName, Fold.sameAscii]

theorem ValueRecord.ofDatum?_toDatum (v : ValueRecord) : ofDatum? v.toDatum = some v := by
  obtain ⟨form, kind, name, source, owner, flags, literal⟩ := v
  have hflags := flags?_flagsDatum flags
  -- three texts may be left out
  by_cases hsource : source = "" <;> by_cases howner : owner = "" <;>
    by_cases hliteral : literal = "" <;>
    simp [ofDatum?, toDatum, field, optionalField, Datum.fields?_cons (key?_unsigned _), field?_cons,
      isKey, hflags, hsource, howner, hliteral]

theorem ItemRecord.ofDatum?_toDatum {r : ItemRecord}
    (h : ∀ n ∈ r.next, Decimal.inRange n = true) : ofDatum? r.toDatum = some r := by
  have hnext := list?_seriesDatum fun n hn => Datum.integer?_ofInt (h n hn)
  simp [ofDatum?, toDatum, field, Datum.fields?_cons (key?_unsigned _), field?_cons, isKey, hnext]

theorem BoardRecord.ofDatum?_toDatum {b : BoardRecord}
    (h : ∀ slot ∈ b.slots, ∀ r ∈ slot, ∀ n ∈ r.next, Decimal.inRange n = true) :
    ofDatum? b.toDatum = some b := by
  have hvalues := list?_seriesDatum fun v (_ : v ∈ b.values) => v.ofDatum?_toDatum
  have hslots := list?_seriesDatum fun slot hslot =>
    list?_map fun r hr => ItemRecord.ofDatum?_toDatum (h slot hslot r hr)
  simp [ofDatum?, toDatum, field, Datum.fields?_cons (key?_unsigned _), field?_cons, isKey, hvalues,
    hslots]

def ValueRecord.texts (v : ValueRecord) : List String :=
  [v.form, v.kind, v.name, v.source, v.owner, v.literal]

def BoardRecord.texts (b : BoardRecord) : List String :=
  b.name :: b.kind :: b.values.flatMap ValueRecord.texts ++
    b.slots.flatMap fun slot => slot.map ItemRecord.text

def texts (s : Snapshot) : List String :=
  s.format :: s.name :: s.globals.flatMap ValueRecord.texts ++ s.boards.flatMap BoardRecord.texts

def BoardRecord.lengths (b : BoardRecord) : List Nat :=
  b.values.length :: b.slots.length ::
    b.slots.flatMap fun slot => slot.length :: slot.map fun r => r.next.length

def lengths (s : Snapshot) : List Nat :=
  s.globals.length :: s.boards.length :: s.boards.flatMap BoardRecord.lengths

def successors (s : Snapshot) : List Int :=
  s.boards.flatMap fun b => b.slots.flatMap fun slot => slot.flatMap ItemRecord.next

/-- Sizes and successors are 64-bit words, as those of everything held in memory are. -/
structure WordSized (s : Snapshot) : Prop where
  texts : ∀ t ∈ s.texts, (Utf8.encode t).length < numberLimit
  lengths : ∀ n ∈ s.lengths, n < numberLimit
  successors : ∀ n ∈ s.successors, Decimal.inRange n = true

/-- What reading needs of a snapshot is that its successors are 64-bit words. -/
theorem ofDatum?_toDatum {s : Snapshot} (h : ∀ n ∈ s.successors, Decimal.inRange n = true) :
    ofDatum? s.toDatum = some s := by
  have hglobals := list?_seriesDatum fun v (_ : v ∈ s.globals) => v.ofDatum?_toDatum
  have hboards := list?_seriesDatum fun b (hb : b ∈ s.boards) =>
    BoardRecord.ofDatum?_toDatum fun slot hslot r hr n hn => h n <|
      List.mem_flatMap_of_mem hb <| List.mem_flatMap_of_mem hslot <| List.mem_flatMap_of_mem hr hn
  simp [ofDatum?, toDatum, field, Datum.fields?_cons (key?_unsigned _), field?_cons, isKey, hglobals,
    hboards]

theorem length_optionalField_le (key : Nat) (t : String) : (optionalField key t).length ≤ 1 := by
  unfold optionalField
  split
  · exact Nat.zero_le 1
  · exact Nat.le_refl 1

/-- No record has more than seven fields. -/
theorem ValueRecord.number_toDatum_le (v : ValueRecord) : v.toDatum.number ≤ 7 := by
  have hsource := length_optionalField_le 4 v.source
  have howner := length_optionalField_le 5 v.owner
  have hliteral := length_optionalField_le 7 v.literal
  simp only [toDatum, Datum.number, List.length_append, field, List.length_singleton]
  omega

section Usual

theorem usual_series {α : Type} {write : α → Datum} {as : List α}
    (hlength : as.length < numberLimit) (h : ∀ a ∈ as, (write a).usual = true) :
    (Datum.array (as.map write)).usual = true := by
  simp only [Datum.usual, usualItems_eq_all, List.length_map, List.all_map, Bool.and_eq_true,
    decide_eq_true_eq, List.all_eq_true]
  exact ⟨hlength, h⟩

theorem usual_seriesDatum {α : Type} {write : α → Datum} {as : List α}
    (hlength : as.length < numberLimit) (h : ∀ a ∈ as, (write a).usual = true) :
    (seriesDatum write as).usual = true := by
  cases as with
  | nil => rfl
  | cons a as => exact usual_series hlength h

theorem usual_record {entries : List (Datum × Datum)} (hlength : entries.length ≤ 7)
    (h : entries.all usualEntry = true) : (Datum.map entries).usual = true := by
  have hlimit : entries.length < numberLimit := by
    unfold numberLimit
    omega
  simp only [Datum.usual, usualEntries_eq_all, h, hlimit, decide_true, Bool.and_true]

theorem all_usual_field {key : Nat} (hkey : key ≤ 7) {value : Datum} (h : value.usual = true) :
    (field key value).all usualEntry = true := by
  have hlimit : key < numberLimit := by
    unfold numberLimit
    omega
  simp [field, usualEntry, Datum.usual, hlimit, h]

theorem all_usual_optionalField {key : Nat} (hkey : key ≤ 7) {t : String}
    (h : (Utf8.encode t).length < numberLimit) :
    (optionalField key t).all usualEntry = true := by
  unfold optionalField
  split
  · rfl
  · exact all_usual_field hkey (Datum.usual_ofString h)

theorem usual_flagsDatum (flags : Flags) : (flagsDatum flags).usual = true := by
  have hnames : ∀ name ∈ ["Member", "Public", "Volatile", "MethodParam", "PrivateMethod",
      "GlobalConstant"], (Datum.ofString name).usual = true := by decide +kernel
  simp only [List.forall_mem_cons] at hnames
  exact usual_record (by simp) (by simp [usualEntry, Datum.usual_ofBool, hnames])

theorem ValueRecord.usual_toDatum {v : ValueRecord}
    (h : ∀ t ∈ v.texts, (Utf8.encode t).length < numberLimit) : v.toDatum.usual = true := by
  simp only [texts, List.forall_mem_cons] at h
  obtain ⟨hform, hkind, hname, hsource, howner, hliteral, -⟩ := h
  apply usual_record v.number_toDatum_le
  simp [all_usual_field, all_usual_optionalField, Datum.usual_ofString, usual_flagsDatum, hform, hkind,
    hname, hsource, howner, hliteral]

theorem ItemRecord.usual_toDatum {r : ItemRecord} (htext : (Utf8.encode r.text).length < numberLimit)
    (hlength : r.next.length < numberLimit) (hnext : ∀ n ∈ r.next, Decimal.inRange n = true) :
    r.toDatum.usual = true := by
  have hseries := usual_seriesDatum hlength fun n hn => Datum.usual_ofInt (hnext n hn)
  exact usual_record (by simp [field]) (by simp [all_usual_field, Datum.usual_ofString, htext, hseries])

theorem BoardRecord.usual_toDatum {b : BoardRecord}
    (htexts : ∀ t ∈ b.texts, (Utf8.encode t).length < numberLimit)
    (hlengths : ∀ n ∈ b.lengths, n < numberLimit)
    (hnext : ∀ slot ∈ b.slots, ∀ r ∈ slot, ∀ n ∈ r.next, Decimal.inRange n = true) :
    b.toDatum.usual = true := by
  simp only [texts, lengths, List.forall_mem_cons, List.cons_append, List.forall_mem_append]
    at htexts hlengths
  obtain ⟨hname, hkind, hvalues, hitems⟩ := htexts
  obtain ⟨hvalueCount, hslotCount, hlengths⟩ := hlengths
  have hvalues := usual_seriesDatum hvalueCount fun v hv =>
    ValueRecord.usual_toDatum fun t ht => hvalues t (List.mem_flatMap_of_mem hv ht)
  have hslots := usual_seriesDatum hslotCount fun slot hslot =>
    usual_series (hlengths _ (List.mem_flatMap_of_mem hslot List.mem_cons_self)) fun r hr =>
      ItemRecord.usual_toDatum
        (hitems _ (List.mem_flatMap_of_mem hslot (List.mem_map_of_mem hr)))
        (hlengths _ (List.mem_flatMap_of_mem hslot
          (List.mem_cons_of_mem _ (List.mem_map_of_mem hr))))
        (hnext slot hslot r hr)
  exact usual_record (by simp [field])
    (by simp [all_usual_field, Datum.usual_ofString, hname, hkind, hvalues, hslots])

theorem usual_toDatum {s : Snapshot} (h : s.WordSized) : s.toDatum.usual = true := by
  obtain ⟨htexts, hlengths, hsuccessors⟩ := h
  simp only [texts, lengths, List.forall_mem_cons, List.cons_append, List.forall_mem_append]
    at htexts hlengths
  obtain ⟨hformat, hname, hglobals, hboards⟩ := htexts
  obtain ⟨hglobalCount, hboardCount, hlengths⟩ := hlengths
  have hglobals := usual_seriesDatum hglobalCount fun v hv =>
    ValueRecord.usual_toDatum fun t ht => hglobals t (List.mem_flatMap_of_mem hv ht)
  have hboards := usual_seriesDatum hboardCount fun b hb =>
    BoardRecord.usual_toDatum (fun t ht => hboards t (List.mem_flatMap_of_mem hb ht))
      (fun n hn => hlengths n (List.mem_flatMap_of_mem hb hn))
      fun slot hslot r hr n hn => hsuccessors n <| List.mem_flatMap_of_mem hb <|
        List.mem_flatMap_of_mem hslot <| List.mem_flatMap_of_mem hr hn
  exact usual_record (by simp [field])
    (by simp [all_usual_field, Datum.usual_ofString, hformat, hname, hglobals, hboards])

end Usual

section Fits

theorem fits_series {α : Type} (room : Nat) (write : α → Datum) (as : List α) :
    (Datum.array (as.map write)).fits (room + 1) =
      (decide (as.length ≤ maxCount) && as.all fun a => (write a).fits room) := by
  simp [Datum.fits, fitItems_eq_all, Function.comp_def]

theorem fits_seriesDatum {α : Type} (room : Nat) (write : α → Datum) (as : List α) :
    (seriesDatum write as).fits (room + 1) =
      (decide (as.length ≤ maxCount) && as.all fun a => (write a).fits room) := by
  cases as with
  | nil => rfl
  | cons a as => exact fits_series room write (a :: as)

theorem fits_record (room : Nat) {entries : List (Datum × Datum)} (hlength : entries.length ≤ 7) :
    (Datum.map entries).fits (room + 1) = entries.all (fitEntry room) := by
  have hlimit : entries.length ≤ maxCount := Nat.le_trans hlength (by decide)
  simp [Datum.fits, fitEntries_eq_all, hlimit]

theorem all_fit_field (room key : Nat) (value : Datum) :
    (field key value).all (fitEntry room) = value.fits room := by
  simp [field, fitEntry, Datum.fits]

theorem all_fit_optionalField (room key : Nat) (t : String) :
    (optionalField key t).all (fitEntry room) = true := by
  unfold optionalField
  split
  · rfl
  · exact all_fit_field room key _

theorem fits_flagsDatum (room : Nat) (flags : Flags) : (flagsDatum flags).fits (room + 1) = true := by
  rw [flagsDatum, fits_record room (by simp)]
  rfl

theorem ValueRecord.fits_toDatum (room : Nat) (v : ValueRecord) :
    v.toDatum.fits (room + 2) = true := by
  rw [toDatum, fits_record (room + 1) v.number_toDatum_le]
  simp [all_fit_field, all_fit_optionalField, fits_flagsDatum, Datum.fits_ofString]

theorem fits_values (room : Nat) (vs : List ValueRecord) :
    (seriesDatum ValueRecord.toDatum vs).fits (room + 3) = decide (vs.length ≤ maxCount) := by
  have hall : (vs.all fun v => v.toDatum.fits (room + 2)) = true :=
    List.all_eq_true.mpr fun v _ => v.fits_toDatum room
  rw [fits_seriesDatum (room + 2), hall, Bool.and_true]

theorem ItemRecord.fits_toDatum (room : Nat) (r : ItemRecord) :
    r.toDatum.fits (room + 2) = decide (r.next.length ≤ maxCount) := by
  rw [toDatum, fits_record (room + 1) (by simp [field])]
  simp [all_fit_field, fits_seriesDatum, Datum.fits_ofInt, Datum.fits_ofString]

theorem BoardRecord.fits_toDatum (room : Nat) (b : BoardRecord) :
    b.toDatum.fits (room + 5) = b.lengths.all fun n => decide (n ≤ maxCount) := by
  rw [toDatum, fits_record (room + 4) (by simp [field])]
  simp [all_fit_field, Datum.fits_ofString, fits_values (room + 1), fits_seriesDatum (room + 3),
    fits_series (room + 2), ItemRecord.fits_toDatum, lengths, Function.comp_def]

theorem fits_toDatum (room : Nat) (s : Snapshot) :
    s.toDatum.fits (room + 7) = s.lengths.all fun n => decide (n ≤ maxCount) := by
  rw [toDatum, fits_record (room + 6) (by simp [field])]
  simp [all_fit_field, Datum.fits_ofString, fits_values (room + 3), fits_seriesDatum (room + 5),
    BoardRecord.fits_toDatum, lengths]

end Fits

/-- The bytes of a snapshot determine it. -/
theorem encode_inj {s t : Snapshot} (hs : s.WordSized) (ht : t.WordSized)
    (h : s.encode = t.encode) : s = t := by
  have hdatum : s.toDatum = t.toDatum := Cbor.encode_inj (usual_toDatum hs) (usual_toDatum ht) h
  have hread := ofDatum?_toDatum hs.successors
  rw [hdatum, ofDatum?_toDatum ht.successors] at hread
  exact (Option.some.inj hread).symm

/-- Bytes of a snapshot are read back unless one of its lists is too long. -/
theorem decode?_encode {s : Snapshot} (h : s.WordSized) :
    decode? s.encode = if ∀ n ∈ s.lengths, n ≤ Cbor.maxCount then some s else none := by
  have hfits : s.toDatum.fits Cbor.maxDepth = s.lengths.all fun n => decide (n ≤ Cbor.maxCount) :=
    fits_toDatum 25 _
  rw [decode?, encode, Cbor.parse?_encode (usual_toDatum h), hfits]
  by_cases hlengths : ∀ n ∈ s.lengths, n ≤ Cbor.maxCount
  · rw [if_pos hlengths, if_pos (by simpa using hlengths)]
    exact ofDatum?_toDatum h.successors
  · rw [if_neg hlengths, if_neg (by simpa using hlengths)]
    rfl

end Snapshot

/-- The snapshot of a module is read back from its bytes, and is the same, if none of its lists is
longer than allowed; otherwise the bytes are refused. -/
theorem snapshot_reads_back (m : Module) (h : (Snapshot.ofModule m).WordSized) :
    Snapshot.decode? m.snapshotBytes =
      if ∀ n ∈ (Snapshot.ofModule m).lengths, n ≤ Cbor.maxCount then some (.ofModule m)
      else none :=
  Snapshot.decode?_encode h

/-- A module with a value of each form, a negative and a two-byte successor and an empty slot. -/
def assortedModule : Module :=
  { name := "démo"
    globals := [.declared "g" "" "démo" 0 .int { isPublic := true }]
    boards := [
      { name := "f"
        kind := .void
        values := [.var (.declared "x" "f" "f" 1 .long {}), .const (.numbered "f" 2 .int "7"), .unset]
        slots := [
          { address := .index 0, items := [⟨.entry, [1]⟩, ⟨.jump, [-9223372036854775808, 300]⟩] },
          { address := .index 1 }] }] }

theorem assortedModule_reads_back :
    (Snapshot.ofModule assortedModule).WordSized ∧
      Snapshot.decode? assortedModule.snapshotBytes = some (.ofModule assortedModule) := by
  have hsized : (Snapshot.ofModule assortedModule).WordSized :=
    ⟨by decide +kernel, by decide +kernel, by decide +kernel⟩
  exact ⟨hsized, (snapshot_reads_back assortedModule hsized).trans (if_pos (by decide +kernel))⟩

end SlotBoard
