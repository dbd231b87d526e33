import Brainfuck.Plain
import Brainfuck.Proofs.Block

/-!
# Partners of brackets

`Plain.closing?` and `Plain.opening?` look for the partner of a bracket by
counting, forwards and backwards. The text of a block is `Neutral` for both
searches: brackets inside it cancel out, so a search passes over it and only
its length counts. Hence the partner of a loop's bracket is where the block
structure says (`closing?_bracket`, `opening?_bracket`), and a `[` inside a
block always has a partner (`exists_partner_of_opening`).
-/

namespace Brainfuck

namespace Plain

/-- A search for a partner passes over the text, at any depth. -/
def Neutral (near far : UInt8) (text : List UInt8) : Prop :=
  ∀ depth rest,
    partner near far depth (text ++ rest) = (partner near far depth rest).map (· + text.length)

variable {near far : UInt8}

theorem partner_far_zero (rest : List UInt8) : partner near far 0 (far :: rest) = some 0 := by
  simp [partner]

theorem partner_far_succ (depth : Nat) (rest : List UInt8) :
    partner near far (depth + 1) (far :: rest) = (partner near far depth rest).map (· + 1) := by
  simp [partner]

theorem partner_near (hne : near ≠ far) (depth : Nat) (rest : List UInt8) :
    partner near far depth (near :: rest) =
      (partner near far (depth + 1) rest).map (· + 1) := by
  cases depth <;> simp [partner, hne]

theorem partner_other {b : UInt8} (hnear : b ≠ near) (hfar : b ≠ far) (depth : Nat)
    (rest : List UInt8) :
    partner near far depth (b :: rest) = (partner near far depth rest).map (· + 1) := by
  cases depth <;> simp [partner, hnear, hfar]

private theorem map_add_add (o : Option Nat) (i j : Nat) :
    (o.map (· + i)).map (· + j) = o.map (· + (i + j)) := by
  cases o <;> simp [Nat.add_assoc]

theorem Neutral.nil : Neutral near far [] := by
  intro depth rest
  simp

theorem Neutral.append {front back : List UInt8} (hfront : Neutral near far front)
    (hback : Neutral near far back) : Neutral near far (front ++ back) := by
  intro depth rest
  rw [List.append_assoc, hfront, hback, map_add_add, List.length_append, Nat.add_comm]

/-- Bytes that are no brackets do not count. -/
theorem Neutral.replicate {b : UInt8} (hnear : b ≠ near) (hfar : b ≠ far) (n : Nat) :
    Neutral near far (List.replicate n b) := by
  intro depth rest
  induction n with
  | zero => simp
  | succ n ih =>
    rw [List.replicate_succ, List.cons_append, partner_other hnear hfar, ih, map_add_add,
      List.length_cons]

/-- A pair of brackets around a neutral text cancels out. -/
theorem Neutral.enclose {text : List UInt8} (hne : near ≠ far) (h : Neutral near far text) :
    Neutral near far (near :: text ++ [far]) := by
  intro depth rest
  rw [List.append_assoc, List.cons_append, partner_near hne, h, List.singleton_append,
    partner_far_succ, map_add_add, map_add_add]
  simp [Nat.add_comm, Nat.add_left_comm]

/-- A text in which no search ends makes no difference behind another one. -/
theorem partner_append_eq_none_iff {text : List UInt8}
    (h : ∀ depth, partner near far depth text = none) (depth : Nat) (front : List UInt8) :
    partner near far depth (front ++ text) = none ↔ partner near far depth front = none := by
  induction front generalizing depth with
  | nil => simp [h depth, partner]
  | cons b front ih =>
    rw [List.cons_append]
    by_cases hfar : b = far
    · subst hfar
      cases depth with
      | zero => rw [partner_far_zero, partner_far_zero]
      | succ depth => rw [partner_far_succ, partner_far_succ, Option.map_eq_none_iff, ih,
          Option.map_eq_none_iff]
    · by_cases hnear : b = near
      · subst hnear
        rw [partner_near hfar, partner_near hfar, Option.map_eq_none_iff, ih,
          Option.map_eq_none_iff]
      · rw [partner_other hnear hfar, partner_other hnear hfar, Option.map_eq_none_iff, ih,
          Option.map_eq_none_iff]

/-- A search that passes over a text does not end in it. -/
theorem Neutral.partner_eq_none {text : List UInt8} (h : Neutral near far text) (depth : Nat) :
    partner near far depth text = none := by
  have hsearch := h depth []
  rw [List.append_nil] at hsearch
  rw [hsearch]
  rfl

end Plain

namespace Block

open Plain

theorem opening_ne_closing : Instr.opening.byte ≠ Instr.closing.byte := by decide

/-- A search forwards passes over a block. -/
theorem neutral_source (b : Block) :
    Neutral Instr.opening.byte Instr.closing.byte b.source := by
  induction b with
  | empty => exact .nil
  | act before a n ih =>
    exact ih.append (.replicate a.byte_ne_opening a.byte_ne_closing n)
  | loop before body ihBefore ihBody =>
    exact ihBefore.append (ihBody.enclose opening_ne_closing)

/-- A search backwards passes over a block. -/
theorem neutral_source_reverse (b : Block) :
    Neutral Instr.closing.byte Instr.opening.byte b.source.reverse := by
  induction b with
  | empty => exact .nil
  | act before a n ih =>
    rw [source, List.reverse_append, List.reverse_replicate]
    exact Neutral.append (.replicate a.byte_ne_closing a.byte_ne_opening n) ih
  | loop before body ihBefore ihBody =>
    -- backwards, a `]` is the near bracket
    have hreverse : (Op.bracket body.source).reverse =
        Instr.closing.byte :: body.source.reverse ++ [Instr.opening.byte] := by
      simp [Op.bracket]
    rw [source, List.reverse_append, hreverse]
    exact (ihBody.enclose opening_ne_closing.symm).append ihBefore

/-- Every `[` of a block has its partner in the block, whatever comes behind. -/
theorem exists_partner_of_opening (b : Block) {i : Nat}
    (h : b.source[i]? = some Instr.opening.byte) (rest : List UInt8) :
    ∃ k, partner Instr.opening.byte Instr.closing.byte 0
      (b.source.drop (i + 1) ++ rest) = some k := by
  induction b generalizing i rest with
  | empty => simp [source] at h
  | act before a n ih =>
    rw [source] at h ⊢
    by_cases hi : i < before.source.length
    · rw [List.getElem?_append_left hi] at h
      rw [List.drop_append_of_le_length hi, List.append_assoc]
      exact ih h _
    · rw [List.getElem?_append_right (Nat.le_of_not_lt hi)] at h
      exact absurd (List.eq_of_mem_replicate (List.mem_of_getElem? h)).symm a.byte_ne_opening
  | loop before body ihBefore ihBody =>
    rw [source] at h ⊢
    by_cases hi : i < before.source.length
    · rw [List.getElem?_append_left hi] at h
      rw [List.drop_append_of_le_length hi, List.append_assoc]
      exact ihBefore h _
    · obtain ⟨j, rfl⟩ := Nat.exists_eq_add_of_le (Nat.le_of_not_lt hi)
      rw [List.getElem?_append_right (Nat.le_add_right ..), Nat.add_sub_cancel_left] at h
      rw [Nat.add_assoc, List.drop_length_add_append, Op.bracket, List.cons_append,
        List.drop_succ_cons]
      cases j with
      | zero =>
        -- the bracket of this loop itself
        refine ⟨0 + body.source.length, ?_⟩
        rw [List.drop_zero, List.append_assoc, body.neutral_source, List.singleton_append,
          partner_far_zero, Option.map_some]
      | succ j =>
        rw [Op.bracket, List.cons_append, List.getElem?_cons_succ] at h
        by_cases hj : j < body.source.length
        · rw [List.getElem?_append_left hj] at h
          rw [List.drop_append_of_le_length hj, List.append_assoc]
          exact ihBody h _
        · rw [List.getElem?_append_right (Nat.le_of_not_lt hj)] at h
          have := List.mem_singleton.mp (List.mem_of_getElem? h)
          exact absurd this opening_ne_closing

end Block

namespace Plain

/-- The partner of a loop's `[` is behind the body. -/
theorem closing?_bracket (front back : List UInt8) (body : Block) :
    closing? (front ++ (Op.bracket body.source ++ back)) front.length =
      some (front.length + 1 + body.source.length) := by
  have behind : (front ++ (Op.bracket body.source ++ back)).drop (front.length + 1) =
      body.source ++ Instr.closing.byte :: back := by
    simp [Op.bracket, List.drop_append]
  -- the search passes over the body at depth 0 and finds the bracket
  rw [closing?, behind, body.neutral_source, partner_far_zero]
  simp

/-- The partner of a loop's `]` is in front of the body. -/
theorem opening?_bracket (front back : List UInt8) (body : Block) :
    opening? (front ++ (Op.bracket body.source ++ back))
        (front.length + 1 + body.source.length) = some front.length := by
  have before : (front ++ (Op.bracket body.source ++ back)).take
      (front.length + 1 + body.source.length) =
        front ++ Instr.opening.byte :: body.source := by
    rw [Nat.add_assoc, List.take_length_add_append]
    simp [Op.bracket, Nat.add_comm 1]
  rw [opening?, before, List.reverse_append, List.reverse_cons, List.append_assoc,
    body.neutral_source_reverse, List.singleton_append, partner_far_zero]
  simp

end Plain

end Brainfuck
