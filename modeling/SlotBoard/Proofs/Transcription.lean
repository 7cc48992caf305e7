import SlotBoard.Proofs.JsonText

/-!
Values written as data items. A JSON value and its transcription hold the same texts, integers, lists
and entries. A value whose numbers are integers in range and whose sizes can be written down is read
back from its text if it nests no deeper than the one reader allows, and its transcription is read
back from its bytes if moreover it fits the bounds of the other.
-/
namespace SlotBoard

theorem Decimal.integer?_natRepr (n : Nat) : integer? n.repr.toList = Cbor.ranged? n := by
  unfold integer?
  split
  · rename_i digits hsign
    exact absurd (isDigit_of_mem_repr (hsign ▸ List.mem_cons_self)) (by decide)
  · rename_i digits hsign
    exact absurd (isDigit_of_mem_repr (hsign ▸ List.mem_cons_self)) (by decide)
  · simp only [natural?_repr, Option.bind_eq_bind, Option.bind_some, Option.pure_def,
      Option.map_some]
    rw [Cbor.ranged?]

theorem Decimal.integer?_minus (n : Nat) :
    integer? ('-' :: n.repr.toList) = Cbor.ranged? (-(n : Int)) := by
  rw [integer?, natural?_repr]
  simp only [Option.bind_eq_bind, Option.bind_some, Option.pure_def, Option.map_some]
  rw [Cbor.ranged?]

/-- An integer in range is read back from its digits. -/
theorem Decimal.integer?_repr {i : Int} (h : inRange i = true) : integer? i.repr.toList = some i := by
  cases i with
  | ofNat n =>
    have hrepr : (n : Int).repr = n.repr := rfl
    rw [Int.ofNat_eq_natCast] at h ⊢
    rw [hrepr, integer?_natRepr, Cbor.ranged?, if_pos h]
  | negSucc n =>
    have hrepr : (Int.negSucc n).repr = "-" ++ (n + 1).repr := rfl
    have hminus : (Int.negSucc n).repr.toList = '-' :: (n + 1).repr.toList := by
      rw [hrepr, String.toList_append]
      rfl
    have hneg : -((n + 1 : Nat) : Int) = Int.negSucc n := rfl
    rw [hminus, integer?_minus, hneg, Cbor.ranged?, if_pos h]

theorem Decimal.inRange_of_integer? {cs : List Char} {i : Int} (h : integer? cs = some i) :
    inRange i = true := by
  unfold integer? at h
  dsimp only at h
  split at h
  all_goals
    obtain ⟨n, -, hn⟩ := Option.bind_eq_some_iff.mp h
    obtain ⟨hrange, hsame⟩ := Option.ite_none_right_eq_some.mp hn
    exact Option.some.inj hsame ▸ hrange

namespace Json.Value

open Cbor (Datum numberLimit maxCount)

mutual

def toDatum : Json.Value → Datum
  | .null => .null
  | .bool b => .ofBool b
  | .number literal => .ofInt ((Decimal.integer? literal).getD 0)
  | .string s => .ofString s
  | .array items => .array (itemData items)
  | .object members => .map (memberData members)
termination_by structural v => v

def itemData : List Json.Value → List Datum
  | [] => []
  | v :: vs => v.toDatum :: itemData vs
termination_by structural vs => vs

def memberData : List (String × Json.Value) → List (Datum × Datum)
  | [] => []
  | member :: members => memberDatum member :: memberData members
termination_by structural members => members

def memberDatum : String × Json.Value → Datum × Datum
  | (key, v) => (.ofString key, v.toDatum)
termination_by structural member => member

end

def isInteger (literal : List Char) : Bool :=
  match Decimal.integer? literal with
  | some i => literal == i.repr.toList
  | none => false

theorem isInteger_iff {literal : List Char} :
    isInteger literal = true ↔ ∃ i : Int, Decimal.inRange i = true ∧ literal = i.repr.toList := by
  unfold isInteger
  constructor
  · intro h
    split at h
    · rename_i i hread
      exact ⟨i, Decimal.inRange_of_integer? hread, beq_iff_eq.mp h⟩
    · cases h
  · rintro ⟨i, hrange, rfl⟩
    rw [Decimal.integer?_repr hrange]
    exact beq_self_eq_true _

mutual

/-- Values whose numbers are integers in range and whose sizes fit into the head of a data item. -/
def plain : Json.Value → Bool
  | .number literal => isInteger literal
  | .string s => (Utf8.encode s).length < numberLimit
  | .array items => items.length < numberLimit && plainItems items
  | .object members => members.length < numberLimit && plainMembers members
  | _ => true
termination_by structural v => v

def plainItems : List Json.Value → Bool
  | [] => true
  | v :: vs => v.plain && plainItems vs
termination_by structural vs => vs

def plainMembers : List (String × Json.Value) → Bool
  | [] => true
  | member :: members => plainMember member && plainMembers members
termination_by structural members => members

def plainMember : String × Json.Value → Bool
  | (key, v) => (Utf8.encode key).length < numberLimit && v.plain
termination_by structural member => member

end

mutual

def lengths : Json.Value → List Nat
  | .array items => items.length :: itemLengths items
  | .object members => members.length :: memberLengths members
  | _ => []
termination_by structural v => v

def itemLengths : List Json.Value → List Nat
  | [] => []
  | v :: vs => v.lengths ++ itemLengths vs
termination_by structural vs => vs

def memberLengths : List (String × Json.Value) → List Nat
  | [] => []
  | member :: members => lengthsOfMember member ++ memberLengths members
termination_by structural members => members

def lengthsOfMember : String × Json.Value → List Nat
  | (_, v) => v.lengths
termination_by structural member => member

end

theorem length_itemData (vs : List Json.Value) : (itemData vs).length = vs.length := by
  induction vs with
  | nil => rfl
  | cons v vs ih => rw [itemData, List.length_cons, List.length_cons, ih]

theorem length_memberData (members : List (String × Json.Value)) :
    (memberData members).length = members.length := by
  induction members with
  | nil => rfl
  | cons member members ih => rw [memberData, List.length_cons, List.length_cons, ih]

mutual

/-- The numbers of a plain value are spelled as integers. -/
theorem spelled_tokens : (v : Json.Value) → v.plain = true → ∀ t ∈ v.tokens, t.Spelled
  | .null, _ => by simp [tokens, Token.Spelled]
  | .bool _, _ => by simp [tokens, Token.Spelled]
  | .string _, _ => by simp [tokens, Token.Spelled]
  | .number literal, h => by
    obtain ⟨i, -, hi⟩ := isInteger_iff.mp h
    rw [tokens, List.forall_mem_singleton]
    exact ⟨i, hi⟩
  | .array items, h => by
    rw [plain, Bool.and_eq_true] at h
    rw [tokens, List.forall_mem_cons]
    exact ⟨trivial, spelled_itemTokens items h.2⟩
  | .object members, h => by
    rw [plain, Bool.and_eq_true] at h
    rw [tokens, List.forall_mem_cons]
    exact ⟨trivial, spelled_memberTokens members h.2⟩
termination_by structural v => v

theorem spelled_itemTokens : (vs : List Json.Value) → plainItems vs = true →
    ∀ t ∈ itemTokens vs, t.Spelled
  | [], _ => by simp [itemTokens, Token.Spelled]
  | v :: vs, h => by
    rw [plainItems, Bool.and_eq_true] at h
    rw [itemTokens, List.forall_mem_append]
    exact ⟨spelled_tokens v h.1, spelled_moreItems vs h.2⟩
termination_by structural vs => vs

theorem spelled_moreItems : (vs : List Json.Value) → plainItems vs = true →
    ∀ t ∈ moreItems vs, t.Spelled
  | [], _ => by simp [moreItems, Token.Spelled]
  | v :: vs, h => by
    rw [plainItems, Bool.and_eq_true] at h
    rw [moreItems, List.forall_mem_cons, List.forall_mem_append]
    exact ⟨trivial, spelled_tokens v h.1, spelled_moreItems vs h.2⟩
termination_by structural vs => vs

theorem spelled_memberTokens : (members : List (String × Json.Value)) →
    plainMembers members = true → ∀ t ∈ memberTokens members, t.Spelled
  | [], _ => by simp [memberTokens, Token.Spelled]
  | member :: members, h => by
    rw [plainMembers, Bool.and_eq_true] at h
    rw [memberTokens, List.forall_mem_append]
    exact ⟨spelled_oneMember member h.1, spelled_moreMembers members h.2⟩
termination_by structural members => members

theorem spelled_moreMembers : (members : List (String × Json.Value)) →
    plainMembers members = true → ∀ t ∈ moreMembers members, t.Spelled
  | [], _ => by simp [moreMembers, Token.Spelled]
  | member :: members, h => by
    rw [plainMembers, Bool.and_eq_true] at h
    rw [moreMembers, List.forall_mem_cons, List.forall_mem_append]
    exact ⟨trivial, spelled_oneMember member h.1, spelled_moreMembers members h.2⟩
termination_by structural members => members

theorem spelled_oneMember : (member : String × Json.Value) → plainMember member = true →
    ∀ t ∈ oneMember member, t.Spelled
  | (key, v), h => by
    rw [plainMember, Bool.and_eq_true] at h
    rw [oneMember, List.forall_mem_cons, List.forall_mem_cons]
    exact ⟨trivial, trivial, spelled_tokens v h.2⟩
termination_by structural member => member

end

mutual

/-- The transcription of a plain value can be written. -/
theorem usual_toDatum : (v : Json.Value) → v.plain = true → v.toDatum.usual = true
  | .null, _ => rfl
  | .bool b, _ => Datum.usual_ofBool b
  | .string _, h => Datum.usual_ofString (of_decide_eq_true h)
  | .number literal, h => by
    obtain ⟨i, hrange, rfl⟩ := isInteger_iff.mp h
    rw [toDatum, Decimal.integer?_repr hrange]
    exact Datum.usual_ofInt hrange
  | .array items, h => by
    rw [plain, Bool.and_eq_true] at h
    rw [toDatum, Datum.usual, length_itemData, Bool.and_eq_true]
    exact ⟨h.1, usual_itemData items h.2⟩
  | .object members, h => by
    rw [plain, Bool.and_eq_true] at h
    rw [toDatum, Datum.usual, length_memberData, Bool.and_eq_true]
    exact ⟨h.1, usual_memberData members h.2⟩
termination_by structural v => v

theorem usual_itemData : (vs : List Json.Value) → plainItems vs = true →
    Cbor.usualItems (itemData vs) = true
  | [], _ => rfl
  | v :: vs, h => by
    rw [plainItems, Bool.and_eq_true] at h
    rw [itemData, Cbor.usualItems, usual_toDatum v h.1, usual_itemData vs h.2]
    rfl
termination_by structural vs => vs

theorem usual_memberData : (members : List (String × Json.Value)) → plainMembers members = true →
    Cbor.usualEntries (memberData members) = true
  | [], _ => rfl
  | member :: members, h => by
    rw [plainMembers, Bool.and_eq_true] at h
    rw [memberData, Cbor.usualEntries, usual_memberDatum member h.1, usual_memberData members h.2]
    rfl
termination_by structural members => members

theorem usual_memberDatum : (member : String × Json.Value) → plainMember member = true →
    Cbor.usualEntry (memberDatum member) = true
  | (key, v), h => by
    rw [plainMember, Bool.and_eq_true] at h
    rw [memberDatum, Cbor.usualEntry, Datum.usual_ofString (of_decide_eq_true h.1),
      usual_toDatum v h.2]
    rfl
termination_by structural member => member

end

theorem room_iff (room depth : Nat) : 0 < room ∧ depth ≤ room - 1 ↔ depth + 1 ≤ room := by omega

mutual

/-- A transcription fits exactly if the value nests no deeper than there is room for and its arrays
and objects are no longer than allowed. -/
theorem fits_toDatum : (v : Json.Value) → ∀ (room : Nat),
    v.toDatum.fits room = true ↔ v.depth ≤ room ∧ ∀ n ∈ v.lengths, n ≤ maxCount
  | .null, _ => by simp [toDatum, depth, lengths, Datum.null, Datum.fits]
  | .bool _, _ => by simp [toDatum, depth, lengths, Datum.ofBool, Datum.fits]
  | .number _, _ => by simp [toDatum, depth, lengths, Datum.fits_ofInt]
  | .string _, _ => by simp [toDatum, depth, lengths, Datum.fits_ofString]
  | .array items, room => by
    rw [toDatum, Datum.fits, length_itemData, Bool.and_eq_true, Bool.and_eq_true, decide_eq_true_eq,
      decide_eq_true_eq, fit_itemData items, depth, lengths, List.forall_mem_cons, ← room_iff]
    tauto
  | .object members, room => by
    rw [toDatum, Datum.fits, length_memberData, Bool.and_eq_true, Bool.and_eq_true,
      decide_eq_true_eq, decide_eq_true_eq, fit_memberData members, depth, lengths,
      List.forall_mem_cons, ← room_iff]
    tauto
termination_by structural v => v

theorem fit_itemData : (vs : List Json.Value) → ∀ (room : Nat),
    Cbor.fitItems room (itemData vs) = true ↔
      itemsDepth vs ≤ room ∧ ∀ n ∈ itemLengths vs, n ≤ maxCount
  | [], _ => by simp [itemData, Cbor.fitItems, itemsDepth, itemLengths]
  | v :: vs, room => by
    rw [itemData, Cbor.fitItems, Bool.and_eq_true, fits_toDatum v, fit_itemData vs, itemsDepth,
      itemLengths, List.forall_mem_append, Nat.max_le]
    tauto
termination_by structural vs => vs

theorem fit_memberData : (members : List (String × Json.Value)) → ∀ (room : Nat),
    Cbor.fitEntries room (memberData members) = true ↔
      membersDepth members ≤ room ∧ ∀ n ∈ memberLengths members, n ≤ maxCount
  | [], _ => by simp [memberData, Cbor.fitEntries, membersDepth, memberLengths]
  | member :: members, room => by
    rw [memberData, Cbor.fitEntries, Bool.and_eq_true, fit_memberDatum member,
      fit_memberData members, membersDepth, memberLengths, List.forall_mem_append,
      Nat.max_le]
    tauto
termination_by structural members => members

theorem fit_memberDatum : (member : String × Json.Value) → ∀ (room : Nat),
    Cbor.fitEntry room (memberDatum member) = true ↔
      memberDepth member ≤ room ∧ ∀ n ∈ lengthsOfMember member, n ≤ maxCount
  | (key, v), room => by
    rw [memberDatum, Cbor.fitEntry, Datum.fits_ofString, Bool.true_and, fits_toDatum v, memberDepth,
      lengthsOfMember]
termination_by structural member => member

end

/-- A plain value is read back from its text, if it does not nest too deep. -/
theorem parse?_render_of_plain {v : Json.Value} (h : v.plain = true) (hdepth : v.depth ≤ maxDepth) :
    parse? v.render = some v := parse?_render (spelled_tokens v h) hdepth

/-- The bytes of a plain value's transcription are read back if the value fits, and refused
otherwise. -/
theorem parse?_encode_toDatum {v : Json.Value} (h : v.plain = true) :
    Cbor.parse? v.toDatum.encode =
      if v.depth ≤ Cbor.maxDepth ∧ ∀ n ∈ v.lengths, n ≤ maxCount then some v.toDatum else none := by
  rw [Cbor.parse?_encode (usual_toDatum v h)]
  exact if_congr (fits_toDatum v _) rfl rfl

end Json.Value
end SlotBoard
