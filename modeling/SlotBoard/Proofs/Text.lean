import SlotBoard.Proofs.Construction
import SlotBoard.Proofs.Forms
import SlotBoard.Proofs.Snapshot

/-!
The text of a module and its snapshot tell the same. Each part of the text tells where it ends and
which part it is: a value is a row of words, an item has its parentheses level, and slots, boards and
modules are series of such parts. So two modules of one text have one snapshot, as long as the names
in them are words and no opcode holds a parenthesis; an opcode that does can spell a second item. The
other way the snapshot names all that the text shows, since a slot of a built board stands at its
address.
-/
namespace SlotBoard

variable {α κ : Type}

theorem flagText_inj {a b : Bool} (h : flagText a = flagText b) : a = b := by
  cases a <;> cases b <;> first | rfl | exact absurd h (by decide)

theorem flags_eq {f g : Flags} (hpublic : f.isPublic = g.isPublic)
    (hconstant : f.globalConstant = g.globalConstant) (hparam : f.methodParam = g.methodParam)
    (hmember : f.isMember = g.isMember) (hprivate : f.privateMethod = g.privateMethod)
    (hvolatile : f.isVolatile = g.isVolatile) : f = g := by
  cases f
  cases g
  simp_all

theorem isWord_flagText (b : Bool) : isWord (flagText b) = true := by cases b <;> decide

namespace Value

def words : Value → List String
  | var v => [
    "VAR", v.kind.token, v.name,
    ":public", flagText v.flags.isPublic,
    ":global_constant", flagText v.flags.globalConstant,
    ":method_param", flagText v.flags.methodParam,
    ":original", v.source,
    ":method", if v.owner = "" then "null" else v.owner,
    ":private_method", flagText v.flags.privateMethod,
    ":volatile", flagText v.flags.isVolatile,
    ":member", flagText v.flags.isMember]
  | const c => ["CONSTANT", c.kind.token, c.name, c.literal]
  | unset => ["UNKNOWN", "<nil>"]

theorem text_eq (v : Value) : v.text = "(" ++ " ".intercalate v.words ++ ")" := by
  unfold text words
  cases v with
  | var v =>
    unfold Variable.text
    simp only [String.intercalate_cons_cons, String.intercalate_singleton, String.append_assoc,
      show "(VAR " = "(" ++ ("VAR" ++ " ") from rfl,
      show " :public " = " " ++ (":public" ++ " ") from rfl,
      show " :global_constant " = " " ++ (":global_constant" ++ " ") from rfl,
      show " :method_param " = " " ++ (":method_param" ++ " ") from rfl,
      show " :original " = " " ++ (":original" ++ " ") from rfl,
      show " :method " = " " ++ (":method" ++ " ") from rfl,
      show " :private_method " = " " ++ (":private_method" ++ " ") from rfl,
      show " :volatile " = " " ++ (":volatile" ++ " ") from rfl,
      show " :member " = " " ++ (":member" ++ " ") from rfl, -String.reduceAppend]
  | const c =>
    simp only [String.intercalate_cons_cons, String.intercalate_singleton, String.append_assoc,
      show "(CONSTANT " = "(" ++ ("CONSTANT" ++ " ") from rfl, -String.reduceAppend]
  | unset => rfl

theorem toList_text (v : Value) : v.text.toList = form v.words := by
  rw [text_eq, String.toList_append, String.toList_append, toList_intercalate_blank]
  rfl

/-- A value whose text can be read. -/
structure Readable (v : Value) : Prop where
  words : ∀ w ∈ v.words, isWord w = true
  owner : ∀ x, v = .var x → x.owner ≠ "null"

theorem exists_words_eq (v : Value) : ∃ w ws, v.words = w :: ws := by
  cases v <;> exact ⟨_, _, rfl⟩

theorem Readable.isWord_name {v : Value} (h : v.Readable) : isWord v.name = true := by
  cases v with
  | var v => exact h.words v.name (by simp [Value.words])
  | const c => exact h.words c.name (by simp [Value.words])
  | unset => rfl

/-- The words of a value say all that its record says. -/
theorem record_eq {v w : Value} (hv : v.Readable) (hw : w.Readable) (h : v.words = w.words) :
    Snapshot.ValueRecord.ofValue v = .ofValue w := by
  cases v with
  | var v =>
    cases w with
    | var w =>
      simp only [words, List.cons.injEq, true_and, and_true] at h
      obtain ⟨hkind, hname, hpublic, hconstant, hparam, hsource, hmethod, hprivate, hvolatile,
        hmember⟩ := h
      have howner : v.owner = w.owner := by
        have hvnull := hv.owner v rfl
        have hwnull := hw.owner w rfl
        split at hmethod <;> split at hmethod <;> simp_all
      have hflags := flags_eq (flagText_inj hpublic) (flagText_inj hconstant) (flagText_inj hparam)
        (flagText_inj hmember) (flagText_inj hprivate) (flagText_inj hvolatile)
      simp only [Snapshot.ValueRecord.ofValue, Snapshot.ValueRecord.ofVariable, hkind, hname,
        hsource, howner, hflags]
    | const | unset => simp [words] at h
  | const c =>
    cases w with
    | const d =>
      simp only [words, List.cons.injEq, true_and, and_true] at h
      simp only [Snapshot.ValueRecord.ofValue, h]
    | var | unset => simp [words] at h
  | unset =>
    cases w with
    | unset => rfl
    | var | const => simp [words] at h

theorem tells : Tells Readable (fun v => v.text.toList) Snapshot.ValueRecord.ofValue := by
  intro v w r s hv hw h
  simp only [toList_text] at h
  obtain ⟨v₁, vs, hvs⟩ := v.exists_words_eq
  obtain ⟨w₁, ws, hws⟩ := w.exists_words_eq
  have hvwords := hv.words
  have hwwords := hw.words
  rw [hvs] at h hvwords
  rw [hws] at h hwwords
  obtain ⟨hwords, hrest⟩ := form_inj hvwords hwwords h
  exact ⟨record_eq hv hw (by rw [hvs, hws, hwords]), hrest⟩

end Value

namespace Operation

def front : Operation → String
  | assign target source => "SET " ++ target.name ++ " (" ++ ("ASSIGN " ++ source.name) ++ ") "
  | binary opcode left right result =>
    "SET " ++ result.name ++ " (" ++ " ".intercalate [opcode.token, left.name, right.name] ++ ") "
  | call callee args result =>
    "SET " ++ result.name ++ " (" ++ " ".intercalate ("CALL" :: callee :: args.map Value.name) ++
      ") "
  | ret none => "RETURN "
  | ret (some value) => "RETURN " ++ value.name ++ " "
  | jumpIfTrue cond => "JT " ++ cond.name ++ " "
  | jump => "JP "
  | select key cases => "SELECT " ++ key.name ++ " (" ++ " ".intercalate (cases.map Value.name) ++ ") "
  | entry => "METHOD_ENTRY "
  | exit => "METHOD_EXIT "

def callees : Operation → List String
  | call callee _ _ => [callee]
  | _ => []

def opcodes : Operation → List Opcode
  | binary opcode _ _ _ => [opcode]
  | _ => []

theorem level_front {x : Operation} (hoperands : ∀ v ∈ x.reads ++ x.writes, isWord v.name = true)
    (hcallees : ∀ callee ∈ x.callees, isWord callee = true)
    (hopcodes : ∀ opcode ∈ x.opcodes, unbracketed opcode.token = true) : Level x.front.toList := by
  have hnames : ∀ v ∈ x.reads ++ x.writes, unbracketed v.name = true :=
    fun v hv => unbracketed_of_isWord (hoperands v hv)
  unfold front
  cases x with
  | assign target source =>
    simp only [reads, writes, List.cons_append, List.nil_append, List.forall_mem_cons] at hnames
    obtain ⟨hsource, htarget, -⟩ := hnames
    exact .clause (unbracketed_append rfl htarget) (unbracketed_append rfl hsource)
  | binary opcode left right result =>
    simp only [reads, writes, List.cons_append, List.nil_append, List.forall_mem_cons] at hnames
    obtain ⟨hleft, hright, hresult, -⟩ := hnames
    refine .clause (unbracketed_append rfl hresult) (unbracketed_intercalate ?_)
    simpa [hleft, hright] using hopcodes opcode List.mem_cons_self
  | call callee args result =>
    simp only [reads, writes, List.forall_mem_append, List.forall_mem_singleton] at hnames
    refine .clause (unbracketed_append rfl hnames.2) (unbracketed_intercalate ?_)
    have hcallee := unbracketed_of_isWord (hcallees callee List.mem_cons_self)
    rw [List.forall_mem_cons, List.forall_mem_cons, List.forall_mem_map]
    exact ⟨rfl, hcallee, hnames.1⟩
  | ret value =>
    cases value with
    | none => exact .of_unbracketed rfl
    | some value =>
      have hvalue := hnames value List.mem_cons_self
      exact .of_unbracketed (unbracketed_append (unbracketed_append rfl hvalue) rfl)
  | jumpIfTrue cond =>
    have hcond := hnames cond List.mem_cons_self
    exact .of_unbracketed (unbracketed_append (unbracketed_append rfl hcond) rfl)
  | select key cases =>
    simp only [reads, writes, List.append_nil, List.forall_mem_cons] at hnames
    refine .clause (unbracketed_append rfl hnames.1) (unbracketed_intercalate ?_)
    exact List.forall_mem_map.mpr hnames.2
  | jump | entry | exit => exact .of_unbracketed rfl

end Operation

namespace Item

def Readable (item : Item) : Prop := Level item.operation.front.toList

def numbers (item : Item) : String := " ".intercalate (item.next.map fun n => toString n)

def inner (item : Item) : List Char :=
  (item.operation.front ++ ":next ").toList ++ '(' :: (item.numbers.toList ++ [')'])

theorem toList_text (item : Item) : item.text.toList = '(' :: (item.inner ++ [')']) := by
  obtain ⟨operation, next⟩ := item
  unfold text inner numbers nextText Operation.front
  cases operation with
  | ret value => cases value <;> simp
  | _ => simp

theorem unbracketed_numbers (item : Item) : unbracketed item.numbers = true := by
  refine unbracketed_intercalate fun w hw => ?_
  obtain ⟨n, -, rfl⟩ := List.mem_map.mp hw
  exact unbracketed_of_isWord (isWord_intRepr n)

theorem level_inner {item : Item} (h : item.Readable) : Level item.inner := by
  rw [inner, String.toList_append]
  have hnext : Level ":next ".toList := .of_unbracketed (by decide)
  exact (h.append hnext).append (.group (.of_unbracketed item.unbracketed_numbers) .nil)

theorem next_eq {a b : Item} (h : a.inner = b.inner) : a.next = b.next := by
  have hlast : ∀ item : Item, '(' ∉ item.numbers.toList ++ [')'] := by
    intro item hmem
    rcases List.mem_append.mp hmem with hmem | hmem
    · have hplain := List.all_eq_true.mp item.unbracketed_numbers '(' hmem
      simp at hplain
    · simp at hmem
  have hnumbers := List.append_cancel_right (last_group_inj (hlast a) (hlast b) h)
  exact numbers_inj (String.toList_inj.mp hnumbers)

theorem tells : Tells Readable (fun item => item.text.toList) Snapshot.ItemRecord.ofItem := by
  intro a b r s ha hb h
  simp only [toList_text, List.cons_append, List.append_assoc, List.nil_append, List.cons.injEq,
    true_and] at h
  obtain ⟨hinner, hrest⟩ := (level_inner ha).inj (level_inner hb) h
  have htext : a.text = b.text := by
    rw [← String.toList_inj, toList_text, toList_text, hinner]
  refine ⟨?_, hrest⟩
  rw [Snapshot.ItemRecord.ofItem, Snapshot.ItemRecord.ofItem, htext, next_eq hinner]

end Item

/-- The lines of a form, up to the parenthesis that closes it. -/
theorem Tells.indented {P : α → Prop} {text : α → String} {key : α → κ}
    (h : Tells P (fun a => (text a).toList) key) {as bs : List α} (has : ∀ a ∈ as, P a)
    (hbs : ∀ b ∈ bs, P b) {r s : List Char}
    (heq : (SlotBoard.indented (as.map text)).toList ++ ("  )\n".toList ++ r) =
      (SlotBoard.indented (bs.map text)).toList ++ ("  )\n".toList ++ s)) :
    as.map key = bs.map key ∧ r = s := by
  have hlines : ∀ cs : List α, (SlotBoard.indented (cs.map text)).toList =
      cs.flatMap fun a => "    ".toList ++ ((text a).toList ++ "\n".toList) := by
    intro cs
    simp [SlotBoard.indented, String.toList_join, List.flatMap_map]
  rw [hlines, hlines] at heq
  refine (h.frame _ _).series (fun a r s hstop => ?_) has hbs heq
  simp at hstop

namespace Slot

def Readable (slot : Slot) : Prop := ∀ item ∈ slot.items, item.Readable

theorem toList_text (slot : Slot) :
    slot.text.toList = "(SLOT ".toList ++ (slot.address.toInt.repr.toList ++
      (slot.items.flatMap (fun item => " ".toList ++ (item.text.toList ++ [])) ++ ")".toList)) := by
  unfold text
  simp [String.toList_join, List.flatMap_map]

theorem tells : Tells Readable (fun slot => slot.text.toList)
    fun slot => slot.items.map Snapshot.ItemRecord.ofItem := by
  intro a b r s ha hb h
  have hbroken : ∀ (slot : Slot) (t : List Char), startsBroken (slot.items.flatMap
      (fun item => " ".toList ++ (item.text.toList ++ [])) ++ (")".toList ++ t)) = true := by
    intro slot t
    cases slot.items <;> rfl
  simp only [toList_text, List.append_assoc] at h
  obtain ⟨-, hitems⟩ := word_inj (isWord_intRepr _) (isWord_intRepr _) (hbroken a r) (hbroken b s)
    (List.append_cancel_left h)
  refine (Item.tells.frame _ _).series (fun item r s hstop => ?_) ha hb hitems
  simp at hstop

end Slot

namespace Board

/-- A board whose text can be read. -/
structure Readable (b : Board) : Prop where
  name : isWord b.name = true
  kind : isWord b.kind.token = true
  values : ∀ v ∈ b.values, v.Readable
  slots : ∀ slot ∈ b.slots, slot.Readable

theorem toList_text (b : Board) :
    b.text.toList = " (BOARD ".toList ++ (b.kind.token.toList ++ (" ".toList ++ (b.name.toList ++
      (" \n  (VARIABLES\n".toList ++ ((indented (b.values.map Value.text)).toList ++
      ("  )\n".toList ++ ("  (SEQUENCER ".toList ++ (b.name.toList ++ ("\n".toList ++
      ((indented (b.slots.map Slot.text)).toList ++
      ("  )\n".toList ++ " ) \n".toList))))))))))) := by
  unfold text
  simp

theorem tells : Tells Readable (fun b => b.text.toList) Snapshot.BoardRecord.ofBoard := by
  intro a b r s ha hb h
  simp only [toList_text, List.append_assoc] at h
  obtain ⟨hkind, h⟩ := word_inj ha.kind hb.kind rfl rfl (List.append_cancel_left h)
  obtain ⟨hname, h⟩ := word_inj ha.name hb.name rfl rfl (List.append_cancel_left h)
  obtain ⟨hvalues, h⟩ := Value.tells.indented ha.values hb.values (List.append_cancel_left h)
  rw [hname] at h
  have hsequencer := List.append_cancel_left (List.append_cancel_left (List.append_cancel_left h))
  obtain ⟨hslots, h⟩ := Slot.tells.indented ha.slots hb.slots hsequencer
  refine ⟨?_, List.append_cancel_left h⟩
  simp only [Snapshot.BoardRecord.ofBoard, hkind, hname, hvalues, hslots]

end Board

namespace Module

/-- A module whose text can be read. -/
structure Readable (m : Module) : Prop where
  name : isWord m.name = true
  globals : ∀ v ∈ m.globals, (Value.var v).Readable
  boards : ∀ b ∈ m.boards, b.Readable

theorem toList_text (m : Module) :
    m.text.toList = "(MODULE ".toList ++ (m.name.toList ++ ("\n  (VARIABLES\n".toList ++
      ((indented ((m.globals.map Value.var).map Value.text)).toList ++ ("  )\n".toList ++
      (m.boards.flatMap (fun b => b.text.toList) ++ (")\n".toList ++ [])))))) := by
  have hglobals : (m.globals.map Value.var).map Value.text = m.globals.map Variable.text := by
    rw [List.map_map]
    rfl
  rw [hglobals]
  unfold text
  simp [String.toList_join, List.flatMap_map]

/-- A text that can be read says all that the snapshot says. -/
theorem snapshot_eq_of_text_eq {m n : Module} (hm : m.Readable) (hn : n.Readable)
    (h : m.text = n.text) : Snapshot.ofModule m = Snapshot.ofModule n := by
  have hlist := String.toList_inj.mpr h
  simp only [toList_text] at hlist
  obtain ⟨hname, hlist⟩ := word_inj hm.name hn.name rfl rfl (List.append_cancel_left hlist)
  obtain ⟨hglobals, hlist⟩ := Value.tells.indented (List.forall_mem_map.mpr hm.globals)
    (List.forall_mem_map.mpr hn.globals) (List.append_cancel_left hlist)
  have hstop : ∀ (b : Board) (r s : List Char), b.text.toList ++ r ≠ ")\n".toList ++ s := by
    intro b r s hstop
    rw [Board.toList_text] at hstop
    simp at hstop
  obtain ⟨hboards, -⟩ := Board.tells.series hstop hm.boards hn.boards hlist
  have hrecords : m.globals.map Snapshot.ValueRecord.ofVariable =
      n.globals.map Snapshot.ValueRecord.ofVariable := by
    rw [List.map_map, List.map_map] at hglobals
    exact hglobals
  rw [Snapshot.ofModule, Snapshot.ofModule, hname, hboards, hrecords]

end Module

/-- Lists that agree in one respect agree in another one, if this follows at each place. -/
theorem map_eq_map_of_map_eq {β γ : Type} {f : α → β} {g : α → γ} {as bs : List α}
    (h : as.map f = bs.map f)
    (hplace : ∀ (i : Nat) (a b : α), as[i]? = some a → bs[i]? = some b → f a = f b → g a = g b) :
    as.map g = bs.map g := by
  refine List.ext_getElem? fun i => ?_
  have hi := congrArg (·[i]?) h
  simp only [List.getElem?_map] at hi ⊢
  cases ha : as[i]? with
  | none =>
    rw [ha] at hi
    cases hb : bs[i]? with
    | none => rfl
    | some b =>
      rw [hb] at hi
      cases hi
  | some a =>
    rw [ha] at hi
    cases hb : bs[i]? with
    | none =>
      rw [hb] at hi
      cases hi
    | some b =>
      rw [hb] at hi
      exact congrArg some (hplace i a b ha hb (Option.some.inj hi))

theorem Value.text_eq_of_record_eq {v w : Value}
    (h : Snapshot.ValueRecord.ofValue v = .ofValue w) : v.text = w.text := by
  have hwords : v.words = w.words := by
    cases v <;> cases w <;>
      simp_all [Snapshot.ValueRecord.ofValue, Snapshot.ValueRecord.ofVariable, words]
  rw [text_eq, text_eq, hwords]

theorem Slot.text_eq_of_records_eq {s t : Slot} (haddress : s.address = t.address)
    (h : s.items.map Snapshot.ItemRecord.ofItem = t.items.map Snapshot.ItemRecord.ofItem) :
    s.text = t.text := by
  have hitems : (s.items.map fun item => " " ++ item.text) = t.items.map fun item => " " ++ item.text :=
    map_eq_map_of_map_eq h fun _ a b _ _ heq => by
      rw [show a.text = b.text from congrArg Snapshot.ItemRecord.text heq]
  unfold text
  rw [haddress, hitems]

theorem Board.text_eq_of_record_eq {b c : Board}
    (hb : ∀ (i : Nat) (slot : Slot), b.slots[i]? = some slot → slot.address = .index i)
    (hc : ∀ (i : Nat) (slot : Slot), c.slots[i]? = some slot → slot.address = .index i)
    (h : Snapshot.BoardRecord.ofBoard b = .ofBoard c) : b.text = c.text := by
  simp only [Snapshot.BoardRecord.ofBoard, Snapshot.BoardRecord.mk.injEq] at h
  obtain ⟨hname, hkind, hvalues, hslots⟩ := h
  have hvalueTexts : b.values.map Value.text = c.values.map Value.text :=
    map_eq_map_of_map_eq hvalues fun _ _ _ _ _ => Value.text_eq_of_record_eq
  have hslotTexts : b.slots.map Slot.text = c.slots.map Slot.text :=
    map_eq_map_of_map_eq hslots fun i s t hs ht =>
      Slot.text_eq_of_records_eq ((hb i s hs).trans (hc i t ht).symm)
  unfold text
  rw [hname, hkind, hvalueTexts, hslotTexts]

/-- A snapshot says all that the text says, as long as addresses are positions. -/
theorem Module.text_eq_of_snapshot_eq {m n : Module} (hm : m.Addressed) (hn : n.Addressed)
    (h : Snapshot.ofModule m = Snapshot.ofModule n) : m.text = n.text := by
  simp only [Snapshot.ofModule, Snapshot.mk.injEq, true_and] at h
  obtain ⟨hname, hglobals, hboards⟩ := h
  have hglobalTexts : m.globals.map Variable.text = n.globals.map Variable.text :=
    map_eq_map_of_map_eq hglobals fun _ v w _ _ heq =>
      Value.text_eq_of_record_eq (v := .var v) (w := .var w) heq
  have hboardTexts : m.boards.map Board.text = n.boards.map Board.text :=
    map_eq_map_of_map_eq hboards fun _ b c hb hc =>
      Board.text_eq_of_record_eq (hm b (List.mem_of_getElem? hb)) (hn c (List.mem_of_getElem? hc))
  unfold text
  rw [hname, hglobalTexts, hboardTexts]

def Value.spellings : Value → List String
  | var v => [v.kind.token, v.name, v.source]
  | const c => [c.kind.token, c.literal]
  | unset => []

def Board.spellings (b : Board) : List String :=
  b.name :: b.kind.token ::
    (b.values.flatMap Value.spellings ++ b.operations.flatMap Operation.callees)

theorem isWord_stamp {stem owner : String} (hstem : isWord stem = true) (howner : isWord owner = true)
    (n : Nat) : isWord (stamp stem owner n) = true := by
  have hstamp : stamp stem owner n = stem ++ "_" ++ owner ++ "_" ++ n.repr := rfl
  simp only [hstamp, isWord_append, hstem, howner, isWord_natRepr]
  rfl

theorem Value.readable {v : Value} {owner : String} (hv : v.MadeFor owner)
    (hwords : ∀ s ∈ v.spellings, isWord s = true) (howner : isWord owner = true)
    (hnull : owner ≠ "null") : v.Readable := by
  cases v with
  | var v =>
    obtain rfl : v.owner = owner := hv
    simp only [spellings, List.forall_mem_cons] at hwords
    obtain ⟨hkind, hname, hsource, -⟩ := hwords
    have hmethod : isWord (if v.owner = "" then "null" else v.owner) = true := by
      split
      · rfl
      · exact howner
    refine ⟨?_, fun x hx => by cases hx; exact hnull⟩
    simp only [words, List.forall_mem_cons]
    exact ⟨rfl, hkind, hname, rfl, isWord_flagText _, rfl, isWord_flagText _, rfl, isWord_flagText _,
      rfl, hsource, rfl, hmethod, rfl, isWord_flagText _, rfl, isWord_flagText _, rfl,
      isWord_flagText _, List.forall_mem_nil _⟩
  | const c =>
    obtain ⟨n, hname⟩ := hv
    simp only [spellings, List.forall_mem_cons] at hwords
    obtain ⟨hkind, hliteral, -⟩ := hwords
    refine ⟨?_, fun x hx => by cases hx⟩
    simp only [words, List.forall_mem_cons]
    exact ⟨rfl, hkind, hname ▸ isWord_stamp rfl howner n, hliteral, List.forall_mem_nil _⟩
  | unset => exact ⟨by decide, fun x hx => by cases hx⟩

namespace Module

/-- The texts a module was made with, opcodes left out: the names of the module, its boards, its
variables and their sources, the functions called, kinds and literals. -/
def spellings (m : Module) : List String :=
  m.name :: ((m.globals.map Value.var).flatMap Value.spellings ++ m.boards.flatMap Board.spellings)

def opcodes (m : Module) : List Opcode :=
  m.boards.flatMap fun b => b.operations.flatMap Operation.opcodes

/-- Whatever a module was made with is a word, and no board has the name that stands for no board. -/
structure Legible (m : Module) : Prop where
  words : ∀ s ∈ m.spellings, isWord s = true
  boards : ∀ b ∈ m.boards, b.name ≠ "null"

variable {m : Module}

theorem Legible.board (h : m.Legible) {b : Board} (hb : b ∈ m.boards) :
    ∀ s ∈ b.spellings, isWord s = true := fun s hs =>
  h.words s (List.mem_cons_of_mem _ (List.mem_append_right _ (List.mem_flatMap_of_mem hb hs)))

theorem Legible.global (h : m.Legible) {v : Variable} (hv : v ∈ m.globals) :
    ∀ s ∈ (Value.var v).spellings, isWord s = true := fun s hs =>
  h.words s (List.mem_cons_of_mem _ (List.mem_append_left _
    (List.mem_flatMap_of_mem (List.mem_map_of_mem hv) hs)))

theorem Legible.readable_value (h : m.Legible) (hm : m.Built) {b : Board} (hb : b ∈ m.boards)
    {v : Value} (hv : v ∈ b.values) : v.Readable := by
  have hwords := h.board hb
  simp only [Board.spellings, List.forall_mem_cons, List.forall_mem_append] at hwords
  exact Value.readable (hm.values b hb v hv)
    (fun s hs => hwords.2.2.1 s (List.mem_flatMap_of_mem hv hs)) hwords.1 (h.boards b hb)

theorem Legible.readable_global (h : m.Legible) (hm : m.Built) {v : Variable} (hv : v ∈ m.globals) :
    (Value.var v).Readable := by
  have hmade : (Value.var v).MadeFor "" := hm.globals v hv
  exact Value.readable hmade (h.global hv) rfl (by decide)

theorem Legible.readable_operand (h : m.Legible) (hm : m.Built) {v : Value} (hv : v ∈ m.values) :
    v.Readable := by
  rcases List.mem_append.mp hv with hglobal | hboard
  · obtain ⟨g, hg, rfl⟩ := List.mem_map.mp hglobal
    exact h.readable_global hm hg
  · obtain ⟨b, hb, hv⟩ := List.mem_flatMap.mp hboard
    exact h.readable_value hm hb hv

/-- A module that was built from words has a text that can be read, if its opcodes have no
parentheses. -/
theorem Legible.readable (h : m.Legible) (hm : m.Built)
    (hopcodes : ∀ opcode ∈ m.opcodes, unbracketed opcode.token = true) : m.Readable where
  name := h.words m.name List.mem_cons_self
  globals v hv := h.readable_global hm hv
  boards b hb := by
    have hwords := h.board hb
    simp only [Board.spellings, List.forall_mem_cons, List.forall_mem_append] at hwords
    obtain ⟨hname, hkind, -, hcallees⟩ := hwords
    refine ⟨hname, hkind, fun v hv => h.readable_value hm hb hv, fun slot hslot item hitem => ?_⟩
    have hmem : item.operation ∈ b.operations :=
      List.mem_flatMap_of_mem hslot (List.mem_map_of_mem hitem)
    obtain ⟨i, hi⟩ := List.getElem?_of_mem hslot
    have hoperands := (hm.slots b hb i slot hi).operands item hitem
    refine Operation.level_front (fun v hv => (h.readable_operand hm (hoperands hv)).isWord_name)
      (fun callee hcallee => hcallees callee (List.mem_flatMap_of_mem hmem hcallee))
      fun opcode hopcode => hopcodes opcode ?_
    exact List.mem_flatMap_of_mem hb (List.mem_flatMap_of_mem hmem hopcode)

end Module

/-- Of modules that are built step by step, no slot being relabelled, those with equal snapshots have
equal texts. Conversely, those with equal texts have equal snapshots if what they are made with are
words, no board is named null, and opcodes have no parentheses. -/
theorem text_and_snapshot_tell_same (m n : Module) (hm : m.Scripted) (hn : n.Scripted) :
    ((Snapshot.ofModule m).WordSized → (Snapshot.ofModule n).WordSized →
      m.snapshotBytes = n.snapshotBytes → m.text = n.text) ∧
    (m.Legible → n.Legible →
      (∀ opcode ∈ m.opcodes ++ n.opcodes, unbracketed opcode.token = true) →
      m.text = n.text → m.snapshotBytes = n.snapshotBytes) := by
  refine ⟨fun hmsized hnsized hbytes => ?_, fun hmwords hnwords hopcodes htext => ?_⟩
  · exact Module.text_eq_of_snapshot_eq hm.built.addressed hn.built.addressed
      (Snapshot.encode_inj hmsized hnsized hbytes)
  · rw [List.forall_mem_append] at hopcodes
    have hsame := Module.snapshot_eq_of_text_eq (hmwords.readable hm.built hopcodes.1)
      (hnwords.readable hn.built hopcodes.2) htext
    rw [Module.snapshotBytes, Module.snapshotBytes, hsame]

def addition (opcode : Opcode) : ItemPlan := .binary opcode "x_f_0" "x_f_0" "x_f_0"

/-- A number that is drawn for nothing makes another module of the same text and snapshot. -/
theorem unused_number_keeps_text_and_snapshot :
    let m := madeBy [.newConstant .int "7", .emit (addition .add), .append 0 (.jump (-3))]
    let n := madeBy [.newConstant .int "7", .emit (addition .add), .append 0 (.jump (-3)), .uniqueId]
    m ≠ n ∧ m.text = n.text ∧ m.snapshotBytes = n.snapshotBytes := by
  intro m n
  have hm : m.Scripted := scripted_madeBy (by simp)
  have hn : n.Scripted := scripted_madeBy (by simp)
  have hsame := text_and_snapshot_tell_same m n hm hn
  have hmsized : (Snapshot.ofModule m).WordSized :=
    ⟨by decide +kernel, by decide +kernel, by decide +kernel⟩
  have hnsized : (Snapshot.ofModule n).WordSized :=
    ⟨by decide +kernel, by decide +kernel, by decide +kernel⟩
  have hmwords : m.Legible := ⟨by decide +kernel, by decide +kernel⟩
  have hnwords : n.Legible := ⟨by decide +kernel, by decide +kernel⟩
  have hbytes := hsame.2 hmwords hnwords (by decide +kernel) (by decide +kernel)
  exact ⟨by decide +kernel, hsame.1 hmsized hnsized hbytes, hbytes⟩

/-- An opcode that holds the end of one item and the beginning of the next. -/
def spanningOpcode : Opcode := ⟨"ADD x_f_0 x_f_0) :next (1)) (SET x_f_0 (ADD"⟩

/-- Words alone are not enough: with parentheses in its opcode, one item can have the text of two. -/
theorem spanning_opcode_reads_as_two_items :
    let m := madeBy [.emit (addition spanningOpcode)]
    let n := madeBy [.emit (addition .add), .append 0 (addition .add)]
    m.Scripted ∧ n.Scripted ∧ m.Legible ∧ n.Legible ∧
      (∀ s ∈ m.spellings ++ n.spellings, s ≠ "") ∧ m.text = n.text ∧
      m.snapshotBytes ≠ n.snapshotBytes := by
  intro m n
  have hm : m.Scripted := scripted_madeBy (by simp)
  have hn : n.Scripted := scripted_madeBy (by simp)
  have hmwords : m.Legible := ⟨by decide +kernel, by decide +kernel⟩
  have hnwords : n.Legible := ⟨by decide +kernel, by decide +kernel⟩
  exact ⟨hm, hn, hmwords, hnwords, by decide +kernel, by decide +kernel, by decide +kernel⟩

end SlotBoard
