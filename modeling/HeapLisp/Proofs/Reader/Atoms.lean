import HeapLisp.Proofs.Reader.Layout
import HeapLisp.Proofs.Reader.RoundTrip

namespace HeapLisp

namespace Numeral

variable {name text : Bytes} {i j : Int} {m n radix : Nat}

/-- The digits of the radices up to sixteen are the decimal ones and the letters up to f, in either
case. -/
theorem digit_eq_some_iff (b : UInt8) (d : Nat) (hd : d < 16) : digit b = some d ↔
    (Bytes.ofString "0123456789abcdef")[d]? = some b ∨
    (Bytes.ofString "0123456789ABCDEF")[d]? = some b := by
  have hall : ∀ n < 256, ∀ d < 16, digit (UInt8.ofNat n) = some d ↔
      (Bytes.ofString "0123456789abcdef")[d]? = some (UInt8.ofNat n) ∨
        (Bytes.ofString "0123456789ABCDEF")[d]? = some (UInt8.ofNat n) := by
    decide +kernel
  have hb := hall b.toNat b.toNat_lt d hd
  rwa [UInt8.ofNat_toNat] at hb

theorem IsDigits.unique {digits : Bytes} {ds es : List Nat} (h : IsDigits radix digits ds)
    (h' : IsDigits radix digits es) :
    ds = es := by
  induction h generalizing es with
  | nil =>
    cases h'
    rfl
  | cons hd _ ih =>
    cases h' with
    | cons he hes =>
      have hde := Option.some.inj (hd.1.symm.trans he.1)
      rw [hde, ih hes]

theorem Counts.unique (h : Counts text m) (h' : Counts text n) : m = n := by
  generalize htext : text = text' at h'
  cases h with
  | @intro mark digits radix ds hm hne hd =>
    cases h' with
    | @intro mark' digits' radix' es hm' hne' hd' =>
      -- the mark is read off the text, and the digits are what follows it
      have hsplit : (radix, digits) = (radix', digits') := by
        rw [← radixOf_append hm hd, htext, radixOf_append hm' hd']
      obtain ⟨rfl, rfl⟩ := Prod.mk.inj hsplit
      rw [hd.unique hd']

theorem Counts.not_minus (h : Counts (Byte.minus :: text) n) : False := by
  obtain ⟨b, rest, htext, hb⟩ := h.exists_eq_cons
  cases htext
  cases hb

theorem Denotes.unique (h : Denotes name i) (h' : Denotes name j) : i = j := by
  cases h with
  | plain hm =>
    cases h' with
    | plain hn => rw [hm.unique hn]
    | negative => exact hm.not_minus.elim
  | negative hm =>
    cases h' with
    | plain hn => exact hn.not_minus.elim
    | negative hn => rw [hm.unique hn]

/-- The name begins with a decimal digit, or with a minus sign and one. -/
def BeginsNumeric (name : Bytes) : Prop :=
  ∃ b rest, Byte.isDigit b = true ∧ (name = b :: rest ∨ name = Byte.minus :: b :: rest)

theorem looksNumeric_iff : looksNumeric name = true ↔ BeginsNumeric name := by
  constructor
  · intro h
    unfold looksNumeric at h
    split at h
    · exact ⟨_, _, h, .inr rfl⟩
    · exact ⟨_, _, h, .inl rfl⟩
    · cases h
  · rintro ⟨b, rest, hb, rfl | rfl⟩
    · unfold looksNumeric
      split
      · rename_i heq
        cases heq
        cases hb
      · rename_i heq
        cases heq
        exact hb
      · rename_i heq
        cases heq
    · exact hb

/-- Text is refused as a number exactly if it denotes none of 64 bits. -/
theorem parse_eq_none_iff : parse name = none ↔ ∀ i, Denotes name i → i < -2 ^ 63 ∨
    2 ^ 63 - 1 < i := by
  constructor
  · intro h i hi
    by_contra hrange
    have hk : (Int64.ofInt i).toInt = i := Int64.toInt_ofInt_of_le (by omega) (by omega)
    have hparse : parse name = some (Int64.ofInt i) := parse_eq_some_iff.mpr (hk.symm ▸ hi)
    rw [h] at hparse
    cases hparse
  · intro h
    cases hparse : parse name with
    | none => rfl
    | some k =>
      have hk := h k.toInt (parse_eq_some_iff.mp hparse)
      have hlow := k.le_toInt
      have hhigh := k.toInt_lt
      omega

end Numeral

namespace Token

open Numeral

variable {b : UInt8} {name rest : Bytes} {line : Nat}

theorem atom_append (hne : name ≠ []) (hname : ∀ b ∈ name, endsAtom b = false) (hr : Stops rest) :
    atom (name ++ rest) line = ofAtom name ⟨rest, line⟩ := by
  obtain ⟨b, name, rfl⟩ := List.exists_cons_of_ne_nil hne
  have hplain : ∀ b ∈ name, (!endsAtom b) = true := by
    intro b hb
    rw [hname b (.tail _ hb)]
    rfl
  rw [List.cons_append, atom, List.takeWhile_append_of_pos hplain,
    List.dropWhile_append_of_pos hplain, hr.takeWhile, hr.dropWhile, List.append_nil]

/-- What does not begin with a mark is read as an atom. -/
theorem next_eq_atom (h : IsAtom name) (hr : Stops rest) :
    next ⟨name ++ rest, line⟩ = atom (name ++ rest) line := by
  rw [h.next hr, atom_append h.ne_nil h.plain hr]

theorem ofAtom_eq_num_iff {c : Cursor} {k : Int64} :
    ofAtom name c = .token (.num k) c ↔ Denotes name k.toInt := by
  rw [← parse_eq_some_iff]
  constructor
  · intro h
    unfold ofAtom at h
    split_ifs at h
    · split at h
      · cases h
        assumption
      · cases h
    · cases h
  · intro h
    have hlooks := (parse_eq_some_iff.mp h).looksNumeric
    rw [ofAtom, if_pos hlooks, h]

/-- The error of an atom that is no number. -/
def invalidNumber (name : Bytes) (line : Nat) : ReadError :=
  (ReadError.of (.invalidNumber (Utf8.scrub name))).atLine line

theorem ofAtom_eq_failed_iff {c : Cursor} :
    ofAtom name c = .failed (invalidNumber name c.line) c ↔
      BeginsNumeric name ∧ ∀ i, Denotes name i → i < -2 ^ 63 ∨ 2 ^ 63 - 1 < i := by
  rw [← looksNumeric_iff, ← parse_eq_none_iff]
  constructor
  · intro h
    unfold ofAtom at h
    split_ifs at h with hlooks
    · split at h
      · cases h
      · exact ⟨hlooks, ‹_›⟩
  · rintro ⟨hlooks, hparse⟩
    rw [ofAtom, if_pos hlooks, hparse, invalidNumber]

theorem ofAtom_eq_sym_iff {c : Cursor} : ofAtom name c = .token (.sym name) c ↔
    ¬BeginsNumeric name := by
  rw [← looksNumeric_iff]
  constructor
  · intro h hlooks
    rw [ofAtom, if_pos hlooks] at h
    split at h <;> cases h
  · intro hlooks
    rw [ofAtom, if_neg hlooks]

/-- Number syntax. Digits are the decimal ones and the letters up to f, in either case; a numeral
denotes one integer. An atom is a number exactly if it is a numeral of that number, is refused
exactly if it begins with a digit, or with a minus sign and a digit, and denotes no integer of 64
bits, and otherwise is a name. What is printed for a number is an atom of that number. -/
theorem atom_number_syntax :
    (∀ (b : UInt8) (d : Nat), d < 16 → (digit b = some d ↔
      (Bytes.ofString "0123456789abcdef")[d]? = some b ∨
      (Bytes.ofString "0123456789ABCDEF")[d]? = some b)) ∧
    (∀ name rest line, name ≠ [] → (∀ b ∈ name, endsAtom b = false) → Stops rest →
      (∀ i j, Denotes name i → Denotes name j → i = j) ∧
      (∀ k : Int64, atom (name ++ rest) line = .token (.num k) ⟨rest, line⟩ ↔
        Denotes name k.toInt) ∧
      (atom (name ++ rest) line = .failed (invalidNumber name line) ⟨rest, line⟩ ↔
        BeginsNumeric name ∧ ∀ i, Denotes name i → i < -2 ^ 63 ∨ 2 ^ 63 - 1 < i) ∧
      (atom (name ++ rest) line = .token (.sym name) ⟨rest, line⟩ ↔ ¬BeginsNumeric name) ∧
      ((∀ b ∈ name.head?, b ≠ Byte.quote ∧ b ≠ Byte.backquote ∧ b ≠ Byte.comma) →
        next ⟨name ++ rest, line⟩ = atom (name ++ rest) line)) ∧
    ∀ (s : Interp) (style : Style) (k : Int64) (rest : Bytes) (line : Nat), Stops rest →
      atom (s.render style (.num k) ++ rest) line = .token (.num k) ⟨rest, line⟩ := by
  refine ⟨digit_eq_some_iff, ?_, ?_⟩
  · intro name rest line hne hname hr
    rw [atom_append hne hname hr]
    refine ⟨fun i j => Denotes.unique, fun k => ofAtom_eq_num_iff, ofAtom_eq_failed_iff,
      ofAtom_eq_sym_iff, ?_⟩
    intro hhead
    rw [next_eq_atom ⟨hne, hname, hhead⟩ hr, atom_append hne hname hr]
  · intro s style k rest line hr
    have hprinted : s.render style (.num k) = ofInt k.toInt := by
      rw [Interp.render, Interp.render?, Printer.render, Printer.onto_num, Printer.put_some,
        List.append_nil, Option.getD_some]
    rw [hprinted, atom_append (isAtom_ofInt k.toInt).ne_nil (isAtom_ofInt k.toInt).plain hr,
      ofAtom_eq_num_iff]
    exact parse_eq_some_iff.mp (parse_ofInt k)

/-- The least number in hexadecimal digits before a parenthesis, and the same digits without the
minus sign, which denote no number of 64 bits. -/
theorem atom_number_syntax_least :
    atom (Bytes.ofString "-0x8000000000000000)") 1 = .token (.num (-0x8000000000000000))
      ⟨Bytes.ofString ")", 1⟩ ∧
    atom (Bytes.ofString "0x8000000000000000)") 1 =
      .failed (invalidNumber (Bytes.ofString "0x8000000000000000") 1) ⟨Bytes.ofString ")", 1⟩ ∧
    atom (Interp.render (.bare .standard .empty 0) .canonical (.num (-0x8000000000000000)) ++
      Bytes.ofString ")") 1 =
      .token (.num (-0x8000000000000000)) ⟨Bytes.ofString ")", 1⟩ := by
  obtain ⟨_, hatoms, hprinted⟩ := atom_number_syntax
  have hr : Stops (Bytes.ofString ")") := by
    rintro _ ⟨⟩
    rfl
  refine ⟨?_, ?_, hprinted _ _ _ _ 1 hr⟩
  · have hleast :=
      (hatoms (Bytes.ofString "-0x8000000000000000") (Bytes.ofString ")") 1 (by decide +kernel)
      (by decide +kernel) hr).2.1 (-0x8000000000000000)
    exact hleast.mpr (parse_eq_some_iff.mp (by decide +kernel))
  · have hrefused :=
      (hatoms (Bytes.ofString "0x8000000000000000") (Bytes.ofString ")") 1 (by decide +kernel)
      (by decide +kernel) hr).2.2.1
    exact hrefused.mpr ⟨looksNumeric_iff.mp (by decide +kernel),
      parse_eq_none_iff.mp (by decide +kernel)⟩

end Token

end HeapLisp
