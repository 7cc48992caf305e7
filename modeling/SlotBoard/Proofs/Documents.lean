import SlotBoard.Document.Decode
import SlotBoard.Proofs.Transcription

/-!
One document in two notations. A value that describes a node gives every field at most once, under its
own name and with a value of its sort. The two readers of nodes have different rules for keys, for
nulls and for repeated fields, but they agree on such a value: while its members are read, the fields
still to come are blank in the node and new to the binary reader. So the two notations of a document
make the same unit or fail with the same fault, unless the document nests too deep or holds too long a
list for the binary reader.
-/
namespace SlotBoard

open Node (Field Fault)

namespace Json.Value

/-- The values of a text, an integer, and words. -/
def isText : Json.Value → Bool
  | .null | .string _ => true
  | _ => false

def isNumber : Json.Value → Bool
  | .null | .number _ => true
  | _ => false

def isWords : Json.Value → Bool
  | .array items => items.all isText
  | v => v.isText

mutual

def isNode : Json.Value → Bool
  | .null => true
  | .object members => decide (members.map Prod.fst).Nodup && areFields members
  | _ => false
termination_by structural v => v

def areFields : List (String × Json.Value) → Bool
  | [] => true
  | member :: members => isField member && areFields members
termination_by structural members => members

def isField : String × Json.Value → Bool
  | (key, v) =>
    match Field.find? (· == ·) key with
    | none => false
    | some (.text _) => v.isText
    | some (.int _) => v.isNumber
    | some (.words _) => v.isWords
    | some (.child _) => v.isNode
    | some (.list _) => v.isNodeList
termination_by structural member => member

def isNodeList : Json.Value → Bool
  | .null => true
  | .array items => areNodes items
  | _ => false
termination_by structural v => v

def areNodes : List Json.Value → Bool
  | [] => true
  | v :: vs => v.isNode && areNodes vs
termination_by structural vs => vs

end

end Json.Value

namespace Node

namespace Field

theorem label_of_find? {key : String} {f : Field} (h : find? (· == ·) key = some f) :
    key = f.label := by
  have hsame := List.find?_some h
  exact beq_iff_eq.mp hsame

end Field

theorem field?_label (f : Field) : field? f.label = some f := by
  rcases f with f | f | f | f | f <;> cases f <;> decide +kernel

theorem keyField_label (f : Field) : keyField (.name f.label) = some f := by
  rcases f with f | f | f | f | f <;> cases f <;> decide +kernel

def Blank (n : Node) : Field → Prop
  | .text f => n.getText f = ""
  | .int f => n.getInt f = 0
  | .words f => n.getWords f = []
  | .child f => n.getChild f = none
  | .list f => n.getList f = [] ∧ n.spare f = []

theorem blank_empty (f : Field) : ({} : Node).Blank f := by
  rcases f with f | f | f | f | f <;> cases f <;> first | rfl | exact ⟨rfl, rfl⟩

theorem spare_setList (n : Node) (nodes : List (Option Node)) (f : ListField) :
    (n.setList nodes f).spare = n.spare := by
  cases f <;> rfl

theorem setSpare_nil {n : Node} {f : ListField} (h : n.spare f = []) : n.setSpare [] f = n := by
  have hspare : (fun g => if g = f then [] else n.spare g) = n.spare := by
    funext g
    split_ifs with hg
    · rw [hg, h]
    · rfl
  rw [setSpare, hspare]
  cases n
  rfl

/-- A field together with a value for it. -/
inductive Entry where
  | text (f : TextField) (s : String)
  | int (f : IntField) (i : Int)
  | words (f : WordsField) (ws : List String)
  | child (f : ChildField) (child : Option Node)
  | list (f : ListField) (nodes : List (Option Node))

def Entry.field : Entry → Field
  | text f _ => .text f
  | int f _ => .int f
  | words f _ => .words f
  | child f _ => .child f
  | list f _ => .list f

def put (n : Node) : Entry → Node
  | .text f s => n.setText s f
  | .int f i => n.setInt i f
  | .words f ws => n.setWords ws f
  | .child f child => n.setChild child f
  | .list f nodes => n.setList nodes f

/-- A blank field stays blank when another one is given a value. -/
theorem Blank.put {n : Node} {g : Field} (h : n.Blank g) (entry : Entry) (hg : g ≠ entry.field) :
    (n.put entry).Blank g := by
  rcases entry with ⟨f, _⟩ | ⟨f, _⟩ | ⟨f, _⟩ | ⟨f, _⟩ | ⟨f, _⟩ <;>
    rcases g with g | g | g | g | g <;> cases f <;> cases g <;> first | exact h | contradiction

def Agrees {α : Type} (read : α × List Fault) (given : Option α) : Prop :=
  read.2 = [] ∧ given = some read.1

section Leaves

variable {v : Json.Value}

theorem exists_word (h : v.isText = true) :
    ∃ w, word? v = some w ∧ readText "" v = (w, []) ∧ v.toDatum.text? = some w := by
  cases v with
  | null => exact ⟨"", rfl, rfl, rfl⟩
  | string s => exact ⟨s, rfl, rfl, Cbor.Datum.text?_ofString s⟩
  | bool | number | array | object => cases h

theorem readText_agrees (h : v.isText = true) : Agrees (readText "" v) v.toDatum.text? := by
  obtain ⟨w, -, hread, htext⟩ := exists_word h
  rw [hread]
  exact ⟨rfl, htext⟩

theorem readInt_agrees (h : v.isNumber = true) (hplain : v.plain = true) :
    Agrees (readInt 0 v) v.toDatum.integer? := by
  cases v with
  | null => exact ⟨rfl, rfl⟩
  | number literal =>
    obtain ⟨i, hrange, rfl⟩ := Json.Value.isInteger_iff.mp hplain
    have hread := Decimal.integer?_repr hrange
    rw [readInt, Json.Value.toDatum, hread]
    exact ⟨rfl, Cbor.Datum.integer?_ofInt hrange⟩
  | bool | string | array | object => cases h

/-- The words of a list are the same in both notations. -/
theorem mapM_word? {items : List Json.Value} (h : items.all Json.Value.isText = true) :
    ∃ ws, items.mapM word? = some ws ∧ (Json.Value.itemData items).mapM Cbor.Datum.text? = some ws := by
  induction items with
  | nil => exact ⟨[], rfl, rfl⟩
  | cons v items ih =>
    rw [List.all_cons, Bool.and_eq_true] at h
    obtain ⟨ws, hwords, htexts⟩ := ih h.2
    obtain ⟨w, hw, -, htext⟩ := exists_word h.1
    refine ⟨w :: ws, ?_, ?_⟩
    · simp [List.mapM_cons, hw, hwords]
    · simp [Json.Value.itemData, List.mapM_cons, htext, htexts]

theorem readWords_agrees (h : v.isWords = true) : Agrees (readWords [] v) v.toDatum.words? := by
  cases v with
  | null => exact ⟨rfl, rfl⟩
  | string s =>
    refine ⟨rfl, ?_⟩
    rw [Json.Value.toDatum, Cbor.Datum.words?, Cbor.Datum.text?_ofString]
    rfl
  | array items =>
    obtain ⟨ws, hwords, htexts⟩ := mapM_word? h
    rw [readWords, hwords]
    exact ⟨rfl, htexts⟩
  | bool | number | object => cases h

end Leaves

/-- The fields that members are named for: all of them are blank and none has been seen. -/
def Fresh (n : Node) (seen : List Field) (members : List (String × Json.Value)) : Prop :=
  ∀ f : Field, f.label ∈ members.map Prod.fst → n.Blank f ∧ f ∉ seen

/-- What a member that is named for the field `f` does: both readers give that field the same value,
and leave the others as they are. -/
structure MemberAgrees (n : Node) (seen : List Field) (f : Field) (member : String × Json.Value) :
    Prop where
  faults : (readMember n member).2 = []
  same : ofEntry? seen n (Json.Value.memberDatum member) = some (f :: seen, (readMember n member).1)
  blank : ∀ g, g ≠ f → n.Blank g → (readMember n member).1.Blank g

theorem MemberAgrees.of_agrees {α : Type} {n : Node} {seen : List Field} {f : Field}
    {member : String × Json.Value} {read : α × List Fault} {given : Option α} (entry : α → Entry)
    (hfield : ∀ a, (entry a).field = f) (h : Agrees read given)
    (hread : readMember n member = (n.put (entry read.1), read.2))
    (hentry : ofEntry? seen n (Json.Value.memberDatum member) =
      given.bind fun a => some (f :: seen, n.put (entry a))) : MemberAgrees n seen f member := by
  obtain ⟨hfaults, hgiven⟩ := h
  refine ⟨?_, ?_, ?_⟩
  · rw [hread]
    exact hfaults
  · rw [hentry, hgiven, hread]
    rfl
  · intro g hg hblank
    rw [hread]
    exact hblank.put _ (hfield _ ▸ hg)

open Json.Value (isField areFields areNodes plainMember plainMembers plainItems memberDatum memberData
  itemData)

mutual

/-- A child reads alike in both notations. -/
theorem readChild_agrees : (v : Json.Value) → v.isNode = true → v.plain = true →
    Agrees (readChild none v) (asChild? v.toDatum (ofDatum? v.toDatum))
  | .null, _, _ => ⟨rfl, rfl⟩
  | .object members, h, hplain => by
    rw [Json.Value.isNode, Bool.and_eq_true, decide_eq_true_eq] at h
    rw [Json.Value.plain, Bool.and_eq_true] at hplain
    obtain ⟨hfaults, hgiven⟩ := readMembers_agrees members h.2 hplain.2 h.1 {} []
      fun f _ => ⟨blank_empty f, List.not_mem_nil⟩
    refine ⟨hfaults, ?_⟩
    rw [Json.Value.toDatum, ofDatum?, hgiven]
    rfl
  | .bool _, h, _ | .number _, h, _ | .string _, h, _ | .array _, h, _ => by cases h
termination_by structural v => v

theorem readMembers_agrees : (members : List (String × Json.Value)) → areFields members = true →
    plainMembers members = true → (members.map Prod.fst).Nodup → ∀ (n : Node) (seen : List Field),
    Fresh n seen members → Agrees (readMembers n members) (ofEntries? seen n (memberData members))
  | [], _, _, _, _, _, _ => ⟨rfl, rfl⟩
  | member :: members, h, hplain, hdistinct, n, seen, hfresh => by
    rw [areFields, Bool.and_eq_true] at h
    rw [plainMembers, Bool.and_eq_true] at hplain
    rw [List.map_cons, List.nodup_cons] at hdistinct
    obtain ⟨f, hlabel, hmember⟩ := readMember_agrees member h.1 hplain.1 n seen
      fun f hf => hfresh f (by rw [hf]; exact List.mem_cons_self)
    -- the fields still to come are other ones, so they are as fresh as before
    have hrest : Fresh (readMember n member).1 (f :: seen) members := by
      intro g hg
      have hne : g ≠ f := fun heq => hdistinct.1 (hlabel ▸ heq ▸ hg)
      obtain ⟨hblank, hunseen⟩ := hfresh g (List.mem_cons_of_mem _ hg)
      exact ⟨hmember.blank g hne hblank, by simp [hne, hunseen]⟩
    obtain ⟨hfaults, hgiven⟩ := readMembers_agrees members h.2 hplain.2 hdistinct.2 _ _ hrest
    refine ⟨?_, ?_⟩
    · simp only [readMembers, hmember.faults, hfaults, List.append_nil]
    · simp only [memberData, ofEntries?, hmember.same, Option.bind_eq_bind, Option.bind_some, hgiven,
        readMembers]
termination_by structural members => members

theorem readMember_agrees : (member : String × Json.Value) → isField member = true →
    plainMember member = true → ∀ (n : Node) (seen : List Field),
    (∀ f : Field, f.label = member.1 → n.Blank f ∧ f ∉ seen) →
    ∃ f : Field, f.label = member.1 ∧ MemberAgrees n seen f member
  | (key, v), h, hplain, n, seen, hfresh => by
    rw [plainMember, Bool.and_eq_true] at hplain
    rw [isField] at h
    cases hfind : Field.find? (· == ·) key with
    | none =>
      rw [hfind] at h
      cases h
    | some f =>
      obtain rfl := Field.label_of_find? hfind
      obtain ⟨hblank, hunseen⟩ := hfresh f rfl
      have hseen : seen.contains f = false := by simpa using hunseen
      have hread := readMember.eq_def n (f.label, v)
      have hentry := ofEntry?.eq_def seen n (memberDatum (f.label, v))
      simp only [field?_label] at hread
      simp only [memberDatum, Cbor.key?_ofString, Option.bind_eq_bind, Option.bind_some,
        keyField_label, hseen] at hentry
      rw [hfind] at h
      refine ⟨f, rfl, ?_⟩
      -- the one reader goes on from what the field holds, which is the empty value that a null stands
      -- for with the other
      cases f with
      | text f =>
        have hempty : n.getText f = "" := hblank
        have hagrees := readText_agrees h
        rw [← hempty] at hagrees
        exact .of_agrees (.text f) (fun _ => rfl) hagrees hread hentry
      | int f =>
        have hempty : n.getInt f = 0 := hblank
        have hagrees := readInt_agrees h hplain.2
        rw [← hempty] at hagrees
        exact .of_agrees (.int f) (fun _ => rfl) hagrees hread hentry
      | words f =>
        have hempty : n.getWords f = [] := hblank
        have hagrees := readWords_agrees h
        rw [← hempty] at hagrees
        exact .of_agrees (.words f) (fun _ => rfl) hagrees hread hentry
      | child f =>
        have hempty : n.getChild f = none := hblank
        have hagrees := readChild_agrees v h hplain.2
        rw [← hempty] at hagrees
        exact .of_agrees (.child f) (fun _ => rfl) hagrees hread hentry
      | list f =>
        obtain ⟨hempty, hspare⟩ : n.getList f = [] ∧ n.spare f = [] := hblank
        obtain ⟨nodes, faults, hnodes, hagrees⟩ := readChildren_agrees v h hplain.2
        simp only [hempty, hspare, hnodes] at hread
        rw [setSpare_nil (by rw [spare_setList, hspare])] at hread
        exact .of_agrees (.list f) (fun _ => rfl) hagrees hread hentry
termination_by structural member => member

theorem readChildren_agrees : (v : Json.Value) → v.isNodeList = true → v.plain = true →
    ∃ nodes faults, readChildren [] [] v = ((nodes, []), faults) ∧
      Agrees (nodes, faults) (childrenOfDatum? v.toDatum)
  | .null, _, _ => ⟨[], [], rfl, rfl, rfl⟩
  | .array items, h, hplain => by
    rw [Json.Value.plain, Bool.and_eq_true] at hplain
    refine ⟨_, _, ?_, readElements_agrees items h hplain.2⟩
    simp [readChildren]
  | .bool _, h, _ | .number _, h, _ | .string _, h, _ | .object _, h, _ => by cases h
termination_by structural v => v

theorem readElements_agrees : (vs : List Json.Value) → areNodes vs = true → plainItems vs = true →
    Agrees (readElements [] vs) (elementsOfDatum? (itemData vs))
  | [], _, _ => ⟨rfl, rfl⟩
  | v :: vs, h, hplain => by
    rw [areNodes, Bool.and_eq_true] at h
    rw [plainItems, Bool.and_eq_true] at hplain
    obtain ⟨hfaults, hgiven⟩ := readChild_agrees v h.1 hplain.1
    obtain ⟨hmore, hrest⟩ := readElements_agrees vs h.2 hplain.2
    refine ⟨?_, ?_⟩
    · simp only [readElements, List.head?_nil, Option.getD_none, List.tail_nil, hfaults, hmore,
        List.append_nil]
    · simp only [itemData, elementsOfDatum?, hgiven, hrest, Option.bind_eq_bind, Option.bind_some]
      rfl
termination_by structural vs => vs

end

/-- The root of a document reads alike in both notations. -/
theorem ofJson_agrees {v : Json.Value} (h : v.isNode = true) (hplain : v.plain = true) :
    Agrees (ofJson v) (ofDatum? v.toDatum) := by
  cases v with
  | null => exact ⟨rfl, rfl⟩
  | object members =>
    rw [Json.Value.isNode, Bool.and_eq_true, decide_eq_true_eq] at h
    rw [Json.Value.plain, Bool.and_eq_true] at hplain
    exact readMembers_agrees members h.2 hplain.2 h.1 {} []
      fun f _ => ⟨blank_empty f, List.not_mem_nil⟩
  | bool | number | string | array => cases h

theorem decodeJson_render {v : Json.Value} (h : v.isNode = true) (hplain : v.plain = true)
    (hdepth : v.depth ≤ Json.maxDepth) : decodeJson v.render = .ok (ofJson v).1 := by
  have hfaults : (ofJson v).2 = [] := (ofJson_agrees h hplain).1
  simp only [decodeJson, Json.Value.parse?_render_of_plain hplain hdepth, hfaults]
  rfl

theorem decodeCbor_encode {v : Json.Value} (h : v.isNode = true) (hplain : v.plain = true) :
    decodeCbor v.toDatum.encode =
      if v.depth ≤ Cbor.maxDepth ∧ ∀ n ∈ v.lengths, n ≤ Cbor.maxCount then .ok (ofJson v).1
      else .error .binary := by
  rw [decodeCbor, Json.Value.parse?_encode_toDatum hplain]
  by_cases hfits : v.depth ≤ Cbor.maxDepth ∧ ∀ n ∈ v.lengths, n ≤ Cbor.maxCount
  · rw [if_pos hfits, if_pos hfits, Option.bind_some, (ofJson_agrees h hplain).2]
  · rw [if_neg hfits, if_neg hfits]
    rfl

end Node

section Notations

variable {v : Json.Value} (h : v.isNode = true) (hplain : v.plain = true) (name : String)
include h hplain

/-- A document in JSON is as good as the unit that its tree makes. -/
theorem SourceUnit.decode_render (hdepth : v.depth ≤ Json.maxDepth) :
    decode .json name v.render = ((Node.ofJson v).1.toUnit name).mapError .shape := by
  rw [decode, Node.decode, Node.decodeJson_render h hplain hdepth]
  rfl

/-- A document in data items is as good as the unit that its tree makes, or refused for its size. -/
theorem SourceUnit.decode_encode :
    decode .cbor name v.toDatum.encode =
      if v.depth ≤ Cbor.maxDepth ∧ ∀ n ∈ v.lengths, n ≤ Cbor.maxCount then
        ((Node.ofJson v).1.toUnit name).mapError .shape
      else .error .binary := by
  rw [decode, Node.decode, Node.decodeCbor_encode h hplain]
  split <;> rfl

end Notations

theorem mapError_shape_ne_binary {α : Type} (r : Except ShapeError α) :
    r.mapError .shape ≠ .error DocumentError.binary := by
  cases r <;> simp [Except.mapError]

/-- Negations of an identifier, one inside the other: in a document, as a node and as an
expression. -/
def negationChain : Nat → Json.Value
  | 0 => .object [("kind", .string "ID"), ("name", .string "x")]
  | k + 1 => .object [("kind", .string "UnaryOp"), ("op", .string "!"), ("expr", negationChain k)]

def negationNode : Nat → Node
  | 0 => { kind := "ID", name := "x" }
  | k + 1 => { kind := "UnaryOp", op := "!", expr := some (negationNode k) }

def negation : Nat → Expr
  | 0 => .ident { line := 0, column := 0 } "x"
  | k + 1 => .unary { line := 0, column := 0 } "!" (negation k)

theorem readChild_negationChain (k : Nat) :
    Node.readChild none (negationChain k) = (some (negationNode k), []) := by
  have hkind : Node.field? "kind" = some (.text .kind) := Node.field?_label (.text .kind)
  have hname : Node.field? "name" = some (.text .name) := Node.field?_label (.text .name)
  have hop : Node.field? "op" = some (.text .op) := Node.field?_label (.text .op)
  have hexpr : Node.field? "expr" = some (.child .expr) := Node.field?_label (.child .expr)
  induction k with
  | zero =>
    simp [negationChain, negationNode, Node.readChild, Node.readMembers, Node.readMember, hkind,
      hname, Node.readText, Node.setText]
  | succ k ih =>
    simp [negationChain, negationNode, Node.readChild, Node.readMembers, Node.readMember, hkind, hop,
      hexpr, Node.readText, Node.setText, Node.getChild, Node.setChild, ih]

theorem toExpr_negationNode (k : Nat) : (negationNode k).toExpr = .ok (negation k) := by
  induction k with
  | zero => rfl
  | succ k ih =>
    rw [negationNode]
    unfold Node.toExpr
    simp only [ih]
    rfl

def negationDocument (k : Nat) : Json.Value :=
  .object [("kind", .string "FileAST"), ("ext", .array [
    .object [("kind", .string "Decl"), ("name", .string "y"), ("init", negationChain k)]])]

theorem ofJson_negationDocument (k : Nat) : (Node.ofJson (negationDocument k)).1 =
    { kind := "FileAST",
      ext := [some { kind := "Decl", name := "y", init := some (negationNode k) }] } := by
  have hkind : Node.field? "kind" = some (.text .kind) := Node.field?_label (.text .kind)
  have hname : Node.field? "name" = some (.text .name) := Node.field?_label (.text .name)
  have hinit : Node.field? "init" = some (.child .init) := Node.field?_label (.child .init)
  have hext : Node.field? "ext" = some (.list .ext) := Node.field?_label (.list .ext)
  simp [negationDocument, Node.ofJson, Node.readChild, Node.readChildren, Node.readElements,
    Node.readMembers, Node.readMember, hkind, hname, hinit, hext, Node.readText, Node.setText,
    Node.getChild, Node.setChild, Node.getList, Node.setList, Node.setSpare, readChild_negationChain]

def negationUnit (k : Nat) : SourceUnit where
  name := "demo"
  decls := [.decl { pos := {}, name := "y", type := [], quals := [], storage := [],
                    init := some (negation k) }]

theorem toUnit_negationDocument (k : Nat) :
    (Node.ofJson (negationDocument k)).1.toUnit "demo" = .ok (negationUnit k) := by
  have hinit : Node.toExpr? (some (negationNode k)) = .ok (some (negation k)) := by
    rw [Node.toExpr?, toExpr_negationNode]
    rfl
  rw [ofJson_negationDocument, Node.toUnit, if_neg (by simp)]
  simp only [List.mapM_cons, List.mapM_nil, Node.toTopLevel, Node.toDecl, hinit]
  rfl

/-- Every document makes the same unit in both notations, or fails with the same fault of its tree,
except for those that nest too deep or hold too long a list for the binary reader, which refuses
them. -/
theorem notations_agree_iff (v : Json.Value) (h : v.isNode = true) (hplain : v.plain = true)
    (hdepth : v.depth ≤ Json.maxDepth) (name : String) :
    SourceUnit.decode .json name v.render = ((Node.ofJson v).1.toUnit name).mapError .shape ∧
      (SourceUnit.decode .cbor name v.toDatum.encode = SourceUnit.decode .json name v.render ↔
        v.depth ≤ Cbor.maxDepth ∧ ∀ n ∈ v.lengths, n ≤ Cbor.maxCount) := by
  rw [SourceUnit.decode_render h hplain name hdepth, SourceUnit.decode_encode h hplain name]
  refine ⟨rfl, ?_, fun hfits => if_pos hfits⟩
  intro hsame
  by_contra hfits
  rw [if_neg hfits] at hsame
  exact mapError_shape_ne_binary _ hsame.symm

/-- Twenty-eight negations nest as deep as the binary reader allows, and both notations give them. -/
theorem negations_read_alike :
    ((negationDocument 28).isNode = true ∧ (negationDocument 28).plain = true ∧
      (negationDocument 28).depth ≤ Json.maxDepth) ∧
    SourceUnit.decode .json "demo" (negationDocument 28).render = .ok (negationUnit 28) ∧
    SourceUnit.decode .cbor "demo" (negationDocument 28).toDatum.encode = .ok (negationUnit 28) := by
  have hnode : (negationDocument 28).isNode = true := by decide +kernel
  have hplain : (negationDocument 28).plain = true := by decide +kernel
  have hdepth : (negationDocument 28).depth ≤ Json.maxDepth := by decide +kernel
  obtain ⟨hjson, hcbor⟩ := notations_agree_iff (negationDocument 28) hnode hplain hdepth "demo"
  rw [toUnit_negationDocument] at hjson
  refine ⟨⟨hnode, hplain, hdepth⟩, hjson, ?_⟩
  exact (hcbor.mpr ⟨by decide +kernel, by decide +kernel⟩).trans hjson

/-- One negation more nests too deep for the binary reader, and the JSON reader still takes it. -/
theorem deep_negation_splits_notations :
    SourceUnit.decode .json "demo" (negationDocument 29).render = .ok (negationUnit 29) ∧
      SourceUnit.decode .cbor "demo" (negationDocument 29).toDatum.encode = .error .binary := by
  have hnode : (negationDocument 29).isNode = true := by decide +kernel
  have hplain : (negationDocument 29).plain = true := by decide +kernel
  have hdepth : (negationDocument 29).depth = 33 := by decide +kernel
  refine ⟨?_, ?_⟩
  · rw [SourceUnit.decode_render hnode hplain "demo" (by rw [hdepth]; decide),
      toUnit_negationDocument]
    rfl
  · rw [SourceUnit.decode_encode hnode hplain "demo", if_neg]
    rintro ⟨hle, -⟩
    rw [hdepth] at hle
    exact absurd hle (by decide)

end SlotBoard
