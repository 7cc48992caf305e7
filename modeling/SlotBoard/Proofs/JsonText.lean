import SlotBoard.Json.Value
import SlotBoard.Proofs.JsonToken

/-!
JSON values and their texts. The tokens of a value have the machine put the value where it belongs,
also in the middle of other arrays and objects, as long as there is room for its depth. So a value
whose numbers are integers is read back from its text, if it does not nest too deep.
-/
namespace SlotBoard.Json

namespace Value

mutual

def tokens : Value → List Token
  | .null => [.null]
  | .bool b => [.bool b]
  | .number literal => [.number literal]
  | .string s => [.string s]
  | .array items => .beginArray :: itemTokens items
  | .object members => .beginObject :: memberTokens members
termination_by structural v => v

def itemTokens : List Value → List Token
  | [] => [.endArray]
  | v :: vs => v.tokens ++ moreItems vs
termination_by structural vs => vs

def moreItems : List Value → List Token
  | [] => [.endArray]
  | v :: vs => .comma :: (v.tokens ++ moreItems vs)
termination_by structural vs => vs

def memberTokens : List (String × Value) → List Token
  | [] => [.endObject]
  | member :: members => oneMember member ++ moreMembers members
termination_by structural members => members

def moreMembers : List (String × Value) → List Token
  | [] => [.endObject]
  | member :: members => .comma :: (oneMember member ++ moreMembers members)
termination_by structural members => members

def oneMember : String × Value → List Token
  | (key, v) => .string key :: .colon :: v.tokens
termination_by structural member => member

end

mutual

def depth : Value → Nat
  | .array items => itemsDepth items + 1
  | .object members => membersDepth members + 1
  | _ => 0
termination_by structural v => v

def itemsDepth : List Value → Nat
  | [] => 0
  | v :: vs => max v.depth (itemsDepth vs)
termination_by structural vs => vs

def membersDepth : List (String × Value) → Nat
  | [] => 0
  | member :: members => max (memberDepth member) (membersDepth members)
termination_by structural members => members

def memberDepth : String × Value → Nat
  | (_, v) => v.depth
termination_by structural member => member

end

def render (v : Value) : Bytes := v.tokens.flatMap Token.spell

open Token (Writable mayFollow)

mutual

/-- A value can be written if its numbers are integers, and then what may follow a number. -/
theorem writable_tokens : (v : Value) → (∀ t ∈ v.tokens, t.Spelled) → ∀ {ts : List Token},
    mayFollow ts = true → Writable ts → Writable (v.tokens ++ ts)
  | .null, _, _, _, hts => .cons rfl hts
  | .bool _, _, _, _, hts => .cons rfl hts
  | .string _, _, _, _, hts => .cons rfl hts
  | .number _, h, _, hfollow, hts => ⟨h _ List.mem_cons_self, fun _ => hfollow, hts⟩
  | .array items, h, _, _, hts =>
    .cons rfl (writable_itemTokens items (List.forall_mem_cons.mp h).2 hts)
  | .object members, h, _, _, hts =>
    .cons rfl (writable_memberTokens members (List.forall_mem_cons.mp h).2 hts)
termination_by structural v => v

theorem writable_itemTokens : (vs : List Value) → (∀ t ∈ itemTokens vs, t.Spelled) →
    ∀ {ts : List Token}, Writable ts → Writable (itemTokens vs ++ ts)
  | [], _, _, hts => .cons rfl hts
  | v :: vs, h, ts, hts => by
    rw [itemTokens, List.forall_mem_append] at h
    obtain ⟨hfollow, hmore⟩ := writable_moreItems vs h.2 hts
    rw [itemTokens, List.append_assoc]
    exact writable_tokens v h.1 hfollow hmore
termination_by structural vs => vs

theorem writable_moreItems : (vs : List Value) → (∀ t ∈ moreItems vs, t.Spelled) →
    ∀ {ts : List Token}, Writable ts →
      mayFollow (moreItems vs ++ ts) = true ∧ Writable (moreItems vs ++ ts)
  | [], _, _, hts => ⟨rfl, .cons rfl hts⟩
  | v :: vs, h, ts, hts => by
    rw [moreItems, List.forall_mem_cons, List.forall_mem_append] at h
    obtain ⟨hfollow, hmore⟩ := writable_moreItems vs h.2.2 hts
    rw [moreItems, List.cons_append, List.append_assoc]
    exact ⟨rfl, .cons rfl (writable_tokens v h.2.1 hfollow hmore)⟩
termination_by structural vs => vs

theorem writable_memberTokens : (members : List (String × Value)) →
    (∀ t ∈ memberTokens members, t.Spelled) → ∀ {ts : List Token}, Writable ts →
    Writable (memberTokens members ++ ts)
  | [], _, _, hts => .cons rfl hts
  | member :: members, h, ts, hts => by
    rw [memberTokens, List.forall_mem_append] at h
    obtain ⟨hfollow, hmore⟩ := writable_moreMembers members h.2 hts
    rw [memberTokens, List.append_assoc]
    exact writable_oneMember member h.1 hfollow hmore
termination_by structural members => members

theorem writable_moreMembers : (members : List (String × Value)) →
    (∀ t ∈ moreMembers members, t.Spelled) → ∀ {ts : List Token}, Writable ts →
      mayFollow (moreMembers members ++ ts) = true ∧ Writable (moreMembers members ++ ts)
  | [], _, _, hts => ⟨rfl, .cons rfl hts⟩
  | member :: members, h, ts, hts => by
    rw [moreMembers, List.forall_mem_cons, List.forall_mem_append] at h
    obtain ⟨hfollow, hmore⟩ := writable_moreMembers members h.2.2 hts
    rw [moreMembers, List.cons_append, List.append_assoc]
    exact ⟨rfl, .cons rfl (writable_oneMember member h.2.1 hfollow hmore)⟩
termination_by structural members => members

theorem writable_oneMember : (member : String × Value) → (∀ t ∈ oneMember member, t.Spelled) →
    ∀ {ts : List Token}, mayFollow ts = true → Writable ts → Writable (oneMember member ++ ts)
  | (key, v), h, ts, hfollow, hts => by
    rw [oneMember, List.forall_mem_cons, List.forall_mem_cons] at h
    exact .cons rfl (.cons rfl (writable_tokens v h.2.2 hfollow hts))
termination_by structural member => member

end

end Value

namespace Machine

def after (s : Step) (ts : List Token) : Option Value :=
  match s with
  | .fail => none
  | .done v => some v
  | .advance m => m.run ts

theorem run_cons (m : Machine) (t : Token) (ts : List Token) :
    m.run (t :: ts) = after (m.step t) ts := rfl

open Json.Value (itemTokens moreItems memberTokens moreMembers oneMember itemsDepth membersDepth memberDepth)

mutual

/-- The tokens of a value have the machine put the value where it belongs, if there is room for its
depth. -/
theorem run_tokens : (v : Value) → ∀ (stack : List Frame) (depth : Nat) (first : Bool)
    (ts : List Token), depth + v.depth ≤ maxDepth →
    run ⟨stack, depth, .value first⟩ (v.tokens ++ ts) = after (supply stack depth v) ts
  | .null, _, _, first, _, _ => by cases first <;> rfl
  | .bool _, _, _, first, _, _ => by cases first <;> rfl
  | .number _, _, _, first, _, _ => by cases first <;> rfl
  | .string _, _, _, first, _, _ => by cases first <;> rfl
  | .array items, stack, depth, first, ts, h => by
    rw [Value.depth] at h
    have hstep : step ⟨stack, depth, .value first⟩ .beginArray =
        .advance ⟨.array [] :: stack, depth + 1, .value true⟩ := by
      have hroom : depth < maxDepth := by omega
      cases first <;> simp [step, beginValue, enter, hroom]
    rw [Value.tokens, List.cons_append, run_cons, hstep, after,
      run_itemTokens items stack (depth + 1) ts (by omega), Nat.add_sub_cancel]
  | .object members, stack, depth, first, ts, h => by
    rw [Value.depth] at h
    have hstep : step ⟨stack, depth, .value first⟩ .beginObject =
        .advance ⟨stack, depth + 1, .key []⟩ := by
      have hroom : depth < maxDepth := by omega
      cases first <;> simp [step, beginValue, enter, hroom]
    rw [Value.tokens, List.cons_append, run_cons, hstep, after,
      run_memberTokens members stack (depth + 1) ts (by omega), Nat.add_sub_cancel]
termination_by structural v => v

theorem run_itemTokens : (vs : List Value) → ∀ (stack : List Frame) (depth : Nat)
    (ts : List Token), depth + itemsDepth vs ≤ maxDepth →
    run ⟨.array [] :: stack, depth, .value true⟩ (itemTokens vs ++ ts) =
      after (supply stack (depth - 1) (.array vs)) ts
  | [], _, _, _, _ => rfl
  | v :: vs, stack, depth, ts, h => by
    rw [itemsDepth] at h
    rw [itemTokens, List.append_assoc, run_tokens v _ depth true _ (by omega), supply, after,
      run_moreItems vs [v] stack depth ts (by omega)]
    rfl
termination_by structural vs => vs

theorem run_moreItems : (vs : List Value) → ∀ (items : List Value) (stack : List Frame) (depth : Nat)
    (ts : List Token), depth + itemsDepth vs ≤ maxDepth →
    run ⟨.array items :: stack, depth, .separator⟩ (moreItems vs ++ ts) =
      after (supply stack (depth - 1) (.array (items.reverse ++ vs))) ts
  | [], items, _, _, _, _ => by
    rw [List.append_nil]
    rfl
  | v :: vs, items, stack, depth, ts, h => by
    rw [itemsDepth] at h
    have hstep : step ⟨.array items :: stack, depth, .separator⟩ .comma =
      .advance ⟨.array items :: stack, depth, .value false⟩ := rfl
    rw [moreItems, List.cons_append, run_cons, hstep, after, List.append_assoc,
      run_tokens v _ depth false _ (by omega), supply, after,
      run_moreItems vs (v :: items) stack depth ts (by omega), List.reverse_cons, List.append_assoc]
    rfl
termination_by structural vs => vs

theorem run_memberTokens : (members : List (String × Value)) → ∀ (stack : List Frame) (depth : Nat)
    (ts : List Token), depth + membersDepth members ≤ maxDepth →
    run ⟨stack, depth, .key []⟩ (memberTokens members ++ ts) =
      after (supply stack (depth - 1) (.object members)) ts
  | [], _, _, _, _ => rfl
  | member :: members, stack, depth, ts, h => by
    rw [membersDepth] at h
    rw [memberTokens, List.append_assoc, run_oneMember member [] stack depth _ (by omega),
      run_moreMembers members [member] member.1 stack depth ts (by omega)]
    rfl
termination_by structural members => members

theorem run_moreMembers : (members : List (String × Value)) → ∀ (before : List (String × Value))
    (key : String) (stack : List Frame) (depth : Nat) (ts : List Token),
    depth + membersDepth members ≤ maxDepth →
    run ⟨.object before key :: stack, depth, .separator⟩ (moreMembers members ++ ts) =
      after (supply stack (depth - 1) (.object (before.reverse ++ members))) ts
  | [], before, _, _, _, _, _ => by
    rw [List.append_nil]
    rfl
  | member :: members, before, key, stack, depth, ts, h => by
    rw [membersDepth] at h
    have hstep : step ⟨.object before key :: stack, depth, .separator⟩ .comma =
      .advance ⟨stack, depth, .key before⟩ := rfl
    rw [moreMembers, List.cons_append, run_cons, hstep, after, List.append_assoc,
      run_oneMember member before stack depth _ (by omega),
      run_moreMembers members (member :: before) member.1 stack depth ts (by omega),
      List.reverse_cons, List.append_assoc]
    rfl
termination_by structural members => members

theorem run_oneMember : (member : String × Value) → ∀ (before : List (String × Value))
    (stack : List Frame) (depth : Nat) (ts : List Token), depth + memberDepth member ≤ maxDepth →
    run ⟨stack, depth, .key before⟩ (oneMember member ++ ts) =
      run ⟨.object (member :: before) member.1 :: stack, depth, .separator⟩ ts
  | (key, v), before, stack, depth, ts, h => by
    rw [memberDepth] at h
    have hkey : step ⟨stack, depth, .key before⟩ (.string key) =
      .advance ⟨stack, depth, .colon before key⟩ := rfl
    have hcolon : step ⟨stack, depth, .colon before key⟩ .colon =
      .advance ⟨.object before key :: stack, depth, .value false⟩ := rfl
    rw [oneMember, List.cons_append, run_cons, hkey, after, List.cons_append, run_cons, hcolon, after,
      run_tokens v _ depth false ts (by omega), supply, after]
termination_by structural member => member

end

end Machine

/-- A value is read back from its text, if its numbers are integers and it does not nest too deep. -/
theorem parse?_render {v : Value} (h : ∀ t ∈ v.tokens, t.Spelled) (hdepth : v.depth ≤ maxDepth) :
    parse? v.render = some v := by
  have hwritable : Token.Writable (v.tokens ++ []) := Value.writable_tokens v h rfl trivial
  rw [List.append_nil] at hwritable
  have hrun := Machine.run_tokens v [] 0 false [] (by omega)
  rw [List.append_nil] at hrun
  rw [parse?, Value.render, Token.all_spell hwritable, Machine.start, hrun]
  rfl

end SlotBoard.Json
