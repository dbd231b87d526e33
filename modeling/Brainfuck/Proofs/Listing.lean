import Brainfuck.Proofs.ShortWriter
import Mathlib

/-!
# Reading a listing

A listing is made for people, and still nothing of the array gets lost in it:
arrays with the same listing are equal. The text is taken apart step by step,
from the whole to its parts:

* **bytes** — the bytes of a listing are the characters of its lines in UTF-8,
  which can be decoded (`Code.eq_of_listing_eq`);
* **lines** — the only line break of a line is at its end, so the lines of two
  equal texts are equal one by one (`Code.eq_of_charsFrom_eq`);
* **operations** — a line is cut by its index, and what is left is a symbol and
  an argument in decimal (`Op.eq_of_render_eq`). `Op.ofParts` makes the
  operation from these again.

The main result is `print_determines_code`.
-/

namespace Brainfuck

/-! ## One operation -/

namespace Op

/-- The operation with this symbol and argument. Operations without argument
take any, and what is no other symbol is that of a trap. -/
def ofParts (symbol : Char) (argument : Int) : Op :=
  match symbol with
  | '>' => .run .right argument.toNat
  | '<' => .run .left argument.toNat
  | '+' => .run .inc argument.toNat
  | '-' => .run .dec argument.toNat
  | '.' => .run .write argument.toNat
  | ',' => .run .read argument.toNat
  | '[' => .jumpZero argument.toNat
  | ']' => .jumpNonzero argument.toNat
  | 's' => .clear
  | 'm' => .scan argument
  | 'd' => .transfer argument
  | _ => .trap

/-- Symbol and argument make an operation. -/
theorem ofParts_symbol_argument? (op : Op) : ofParts op.symbol (op.argument?.getD 0) = op := by
  cases op with
  | run a n => cases a <;> rfl
  | jumpZero target => rfl
  | jumpNonzero target => rfl
  | clear => rfl
  | scan stride => rfl
  | transfer offset => rfl
  | trap => rfl

/-- What is written behind the symbol. -/
def argumentText : Option Int → List Char
  | some n => ' ' :: n.repr.toList
  | none => []

theorem eq_of_argumentText_eq {x y : Option Int} (h : argumentText x = argumentText y) :
    x = y := by
  match x, y with
  | none, none => rfl
  | none, some k => cases h
  | some n, none => cases h
  | some n, some k =>
    have hrepr : n.repr = k.repr := String.toList_injective (List.cons.inj h).2
    -- no single module of Mathlib brings in this lemma, hence the import of all of it
    rw [Int.repr_inj.mp hrepr]

theorem toList_render (op : Op) : op.render.toList = op.symbol :: argumentText op.argument? := by
  unfold render
  cases op.argument? with
  | none => simp [argumentText]
  | some n => simp [argumentText, Int.toString_eq_repr]

/-- Operations that are shown alike are equal. -/
theorem eq_of_render_eq {op op' : Op} (h : op.render.toList = op'.render.toList) : op = op' := by
  rw [toList_render, toList_render] at h
  obtain ⟨hsymbol, hargument⟩ := List.cons.inj h
  rw [← ofParts_symbol_argument? op, ← ofParts_symbol_argument? op', hsymbol,
    eq_of_argumentText_eq hargument]

/-! ## One line -/

theorem isDigit_of_mem_repr {n : Nat} {c : Char} (h : c ∈ n.repr.toList) : c.isDigit = true := by
  rw [Nat.repr_eq_ofList_toDigits, String.toList_ofList] at h
  exact Nat.isDigit_of_mem_toDigits (by decide) (by decide) h

theorem newline_notMem_natRepr (n : Nat) : '\n' ∉ n.repr.toList := by
  intro h
  cases isDigit_of_mem_repr h

theorem newline_notMem_argumentText (x : Option Int) : '\n' ∉ argumentText x := by
  match x with
  | none => exact List.not_mem_nil
  | some n =>
    rw [argumentText, Int.repr_eq_if]
    split
    · simpa using newline_notMem_natRepr n.toNat
    · simpa using newline_notMem_natRepr (-n).toNat

/-- An operation is shown on one line. -/
theorem newline_notMem_render (op : Op) : '\n' ∉ op.render.toList := by
  have hsymbol : '\n' ≠ op.symbol := by
    cases op with
    | run a n => cases a <;> simp [symbol, Action.symbol]
    | _ => simp [symbol]
  rw [toList_render, List.mem_cons, not_or]
  exact ⟨hsymbol, newline_notMem_argumentText op.argument?⟩

end Op

/-- A text is cut in one way at the first place where a character stands. -/
theorem eq_and_eq_of_append_cons {c : Char} {front front' back back' : List Char}
    (hfront : c ∉ front) (hfront' : c ∉ front')
    (h : front ++ c :: back = front' ++ c :: back') : front = front' ∧ back = back' := by
  have cut (rest : List Char) {text : List Char} (hc : c ∉ text) :
      (text ++ c :: rest).takeWhile (· != c) = text := by
    rw [List.takeWhile_append_of_pos, List.takeWhile_cons_of_neg (by simp), List.append_nil]
    intro x hx
    simpa using ne_of_mem_of_not_mem hx hc
  have hsame : front = front' := by rw [← cut back hfront, h, cut back' hfront']
  subst hsame
  exact ⟨rfl, (List.cons.inj (List.append_cancel_left h)).2⟩

/-! ## All lines -/

namespace Code

/-- The characters of the lines of a list of operations, the first of which has
index `i`. -/
def charsFrom (i : Nat) : List Op → List Char
  | [] => []
  | op :: ops => (op.line i).toList ++ charsFrom (i + 1) ops

/-- A line is an index, the operation and a line break. -/
theorem charsFrom_cons (i : Nat) (op : Op) (ops : List Op) :
    charsFrom i (op :: ops) =
      (toString i ++ ": ").toList ++ (op.render.toList ++ '\n' :: charsFrom (i + 1) ops) := by
  simp [charsFrom, Op.line]

theorem charsFrom_cons_ne_nil (i : Nat) (op : Op) (ops : List Op) :
    charsFrom i (op :: ops) ≠ [] := by
  rw [charsFrom_cons]
  simp

/-- The bytes of a listing are its characters in UTF-8. -/
theorem flatten_linesFrom (i : Nat) (ops : List Op) :
    (linesFrom i ops).flatten = (charsFrom i ops).utf8Encode.data.toList := by
  induction ops generalizing i with
  | nil => rfl
  | cons op ops ih =>
    have hlines : linesFrom i (op :: ops) = op.lineBytes i :: linesFrom (i + 1) ops := by
      simp [linesFrom]
    rw [hlines, List.flatten_cons, ih, charsFrom, List.utf8Encode_append, String.utf8Encode_toList,
      ByteArray.data_append, Array.toList_append]
    rfl

/-- Lists of operations with the same lines are equal. -/
theorem eq_of_charsFrom_eq {i : Nat} {ops ops' : List Op} (h : charsFrom i ops = charsFrom i ops') :
    ops = ops' := by
  induction ops generalizing i ops' with
  | nil =>
    cases ops' with
    | nil => rfl
    | cons op' ops' => exact absurd h.symm (charsFrom_cons_ne_nil i op' ops')
  | cons op ops ih =>
    cases ops' with
    | nil => exact absurd h (charsFrom_cons_ne_nil i op ops)
    | cons op' ops' =>
      -- the index is the same on both sides, and then comes the operation up to the break
      rw [charsFrom_cons, charsFrom_cons] at h
      obtain ⟨hop, hops⟩ := eq_and_eq_of_append_cons op.newline_notMem_render
        op'.newline_notMem_render (List.append_cancel_left h)
      rw [Op.eq_of_render_eq hop, ih hops]

/-- Arrays with the same listing are equal. -/
theorem eq_of_listing_eq {code code' : Code} (h : code.listing = code'.listing) : code = code' := by
  rw [listing, listing, flatten_linesFrom, flatten_linesFrom] at h
  have hbytes : (charsFrom 0 code.toList).utf8Encode = (charsFrom 0 code'.toList).utf8Encode :=
    ByteArray.ext (Array.toList_inj.mp h)
  have hdecoded := congrArg ByteArray.utf8Decode? hbytes
  rw [List.utf8Decode?_utf8Encode, List.utf8Decode?_utf8Encode] at hdecoded
  have hchars : charsFrom 0 code.toList = charsFrom 0 code'.toList :=
    congrArg Array.toList (Option.some.inj hdecoded)
  exact Array.toList_inj.mp (eq_of_charsFrom_eq hchars)

/-- A writer that never fails gets the listing. -/
theorem exists_print_of_reliable (code : Code) {c : Console} (free : c.writer.Reliable) :
    ∃ d, code.print c = .done () d ∧ d.output = c.output ++ code.listing := by
  obtain ⟨d, houtput, hdone, -⟩ := code.exists_print c free.2 (.inl free.1)
  have hfits := Writer.takes_of_room_eq_none free.1 code.listing.length
  refine ⟨d, (hdone hfits).1, ?_⟩
  rw [houtput, hfits, List.take_length]

end Code

/-- **A listing determines its array.** Two arrays of any operations are printed to
writers that never fail. Both prints succeed, and the texts that come out are the
same exactly if the arrays are equal. -/
theorem print_determines_code (code code' : Code) {c c' : Console}
    (free : c.writer.Reliable) (free' : c'.writer.Reliable) :
    ∃ d d' text text', code.print c = .done () d ∧ d.output = c.output ++ text ∧
      code'.print c' = .done () d' ∧ d'.output = c'.output ++ text' ∧
      (text = text' ↔ code = code') := by
  obtain ⟨d, hd, houtput⟩ := code.exists_print_of_reliable free
  obtain ⟨d', hd', houtput'⟩ := code'.exists_print_of_reliable free'
  refine ⟨d, d', code.listing, code'.listing, hd, houtput, hd', houtput', ?_, ?_⟩
  · exact Code.eq_of_listing_eq
  · rintro rfl
    rfl

/-- Arguments of which one is the beginning of the other, printed behind an earlier
output and at the start. -/
theorem print_determines_code_cut :
    Writer.Reliable {} ∧
    ∃ d d' text text',
      Code.print #[.scan (-1), .run .inc 12] { calls := [.wrote [48]] } = .done () d ∧
      d.output = [48] ++ text ∧ Code.print #[.scan (-1), .run .inc 1] {} = .done () d' ∧
      d'.output = text' ∧ text ≠ text' := by
  have free : Writer.Reliable {} := ⟨rfl, rfl⟩
  obtain ⟨d, d', text, text', hd, houtput, hd', houtput', hiff⟩ :=
    @print_determines_code #[.scan (-1), .run .inc 12] #[.scan (-1), .run .inc 1]
      { calls := [.wrote [48]] } {} free free
  refine ⟨free, d, d', text, text', hd, houtput, hd', houtput', ?_⟩
  intro hsame
  exact absurd (hiff.mp hsame) (by decide)

end Brainfuck
