import HeapLisp.Proofs.Reader.Numerals
import HeapLisp.Reader.Token
import Mathlib.Data.List.Basic

namespace HeapLisp.Token

variable {b : UInt8} {rest : Bytes} {line : Nat}

theorem endsAtom_eq_false_iff : endsAtom b = false ↔ Byte.isBlank b = false ∧ b ≠ Byte.openParen ∧
    b ≠ Byte.closeParen ∧
    b ≠ Byte.doubleQuote ∧ b ≠ Byte.semicolon := by
  simp [endsAtom, and_assoc]

theorem endsAtom_of_isDigit (h : Byte.isDigit b = true) : endsAtom b = false := by
  simp only [Byte.isDigit, Bool.and_eq_true, decide_eq_true_eq, UInt8.le_iff_toNat_le] at h
  simp only [endsAtom, Byte.isBlank, Bool.or_eq_false_iff, Bool.and_eq_false_iff,
    decide_eq_false_iff_not, beq_eq_false_iff_ne, ne_eq, UInt8.le_iff_toNat_le, ← UInt8.toNat_inj]
  simp only [Byte.space, Byte.openParen, Byte.closeParen, Byte.doubleQuote, Byte.semicolon,
    UInt8.toNat_ofNat] at h ⊢
  omega

/-- Nothing, or a byte that ends an atom before it. -/
def Stops (rest : Bytes) : Prop := ∀ b ∈ rest.head?, endsAtom b = true

theorem Stops.nil : Stops [] := by
  rintro _ ⟨⟩

theorem Stops.cons (h : endsAtom b = true) (rest : Bytes) : Stops (b :: rest) := by
  rintro _ ⟨⟩
  exact h

theorem Stops.takeWhile (h : Stops rest) : rest.takeWhile (!endsAtom ·) = [] := by
  cases rest with
  | nil => rfl
  | cons b rest => simp [h b rfl]

theorem Stops.dropWhile (h : Stops rest) : rest.dropWhile (!endsAtom ·) = rest := by
  cases rest with
  | nil => rfl
  | cons b rest => simp [h b rfl]

theorem next_of_not_blank (hb : Byte.isBlank b = false) (hs : b ≠ Byte.semicolon) :
    next ⟨b :: rest, line⟩ = start b rest line := by
  have hn : b ≠ Byte.newline := by
    rintro rfl
    cases hb
  have hskip : skipBlanks false (b :: rest) line = ⟨b :: rest, line⟩ := by
    simp [skipBlanks, hn, hb, hs]
  simp only [next, hskip]

theorem next_openParen (rest : Bytes) (line : Nat) :
    next ⟨Byte.openParen :: rest, line⟩ = .token .opening ⟨rest, line⟩ := rfl

theorem next_closeParen (rest : Bytes) (line : Nat) :
    next ⟨Byte.closeParen :: rest, line⟩ = .token .closing ⟨rest, line⟩ := rfl

theorem next_string {body : Bytes} (h : Byte.doubleQuote ∉ body) (rest : Bytes) (line : Nat) :
    next ⟨Byte.doubleQuote :: (body ++ Byte.doubleQuote :: rest), line⟩ =
      .token (.str body) ⟨rest, line + Bytes.lineBreaks body⟩ := by
  have hbody : ∀ b ∈ body, (b != Byte.doubleQuote) = true := by
    intro b hb
    rw [bne_iff_ne]
    rintro rfl
    exact h hb
  have htake : (body ++ Byte.doubleQuote :: rest).takeWhile (· != Byte.doubleQuote) = body := by
    rw [List.takeWhile_append_of_pos hbody]
    simp
  have hdrop : (body ++ Byte.doubleQuote :: rest).dropWhile (· != Byte.doubleQuote) =
      Byte.doubleQuote :: rest := by
    rw [List.dropWhile_append_of_pos hbody]
    simp
  rw [next_of_not_blank rfl (by decide)]
  unfold start
  simp only [htake, hdrop]
  rfl

/-- Bytes that are read together as one atom. -/
structure IsAtom (name : Bytes) : Prop where
  ne_nil : name ≠ []
  plain : ∀ b ∈ name, endsAtom b = false
  unmarked : ∀ b ∈ name.head?, b ≠ Byte.quote ∧ b ≠ Byte.backquote ∧ b ≠ Byte.comma

theorem IsAtom.next {name : Bytes} (h : IsAtom name) (hr : Stops rest) (line : Nat) :
    next ⟨name ++ rest, line⟩ = ofAtom name ⟨rest, line⟩ := by
  obtain ⟨b, tail, rfl⟩ := List.exists_cons_of_ne_nil h.ne_nil
  obtain ⟨hblank, hopen, hclose, hdouble, hsemi⟩ := endsAtom_eq_false_iff.mp (h.plain b (.head _))
  obtain ⟨hquote, hback, hcomma⟩ := h.unmarked b rfl
  have htail : ∀ b ∈ tail, (!endsAtom b) = true := by
    intro b hb
    rw [h.plain b (.tail _ hb)]
    rfl
  have htake : (tail ++ rest).takeWhile (!endsAtom ·) = tail := by
    rw [List.takeWhile_append_of_pos htail, hr.takeWhile, List.append_nil]
  have hdrop : (tail ++ rest).dropWhile (!endsAtom ·) = rest := by
    rw [List.dropWhile_append_of_pos htail, hr.dropWhile]
  rw [List.cons_append, next_of_not_blank hblank hsemi]
  simp [start, atom, hopen, hclose, hquote, hback, hcomma, hdouble, htake, hdrop]

theorem isAtom_ofInt (i : Int) : IsAtom (Numeral.ofInt i) := by
  have hdigit {n : Nat} {b : UInt8} (hb : b ∈ Numeral.decimal n) : endsAtom b = false :=
    endsAtom_of_isDigit (Numeral.isDigit_of_mem_decimal hb)
  cases i with
  | ofNat n =>
    obtain ⟨b, rest, hn, hb⟩ := Numeral.exists_decimal_eq n
    refine ⟨Numeral.decimal_ne_nil n, fun b hb => hdigit hb, ?_⟩
    rw [Numeral.ofInt, hn]
    rintro _ ⟨⟩
    refine ⟨?_, ?_, ?_⟩ <;> (rintro rfl; cases hb)
  | negSucc n =>
    refine ⟨List.cons_ne_nil _ _, fun b hb => ?_, ?_⟩
    · cases hb with
      | head => rfl
      | tail _ hb => exact hdigit hb
    · rintro _ ⟨⟩
      decide

theorem next_numeral (k : Int64) (hr : Stops rest) (line : Nat) :
    next ⟨Numeral.ofInt k.toInt ++ rest, line⟩ = .token (.num k) ⟨rest, line⟩ := by
  rw [(isAtom_ofInt _).next hr, ofAtom, if_pos (Numeral.looksNumeric_ofInt _), Numeral.parse_ofInt]

theorem next_name {name : Bytes} (h : IsAtom name) (hn : Numeral.looksNumeric name = false)
    (hr : Stops rest) (line : Nat) :
    next ⟨name ++ rest, line⟩ = .token (.sym name) ⟨rest, line⟩ := by
  rw [h.next hr, ofAtom, hn]
  rfl

/-- Reading the tokens one after the other leads from one place to the other. -/
inductive Lexes : Cursor → List Token → Cursor → Prop where
  | nil (c : Cursor) : Lexes c [] c
  | cons {c d e : Cursor} {t : Token} {ts : List Token} (h : next c = .token t d)
    (hs : Lexes d ts e) : Lexes c (t :: ts) e

theorem Lexes.append {c d e : Cursor} {ts us : List Token} (h : Lexes c ts d) (h' : Lexes d us e) :
    Lexes c (ts ++ us) e := by
  induction h with
  | nil => exact h'
  | cons hn _ ih => exact .cons hn (ih h')

/-- A blank before a token does not matter. -/
theorem lexes_space_iff {e : Cursor} {ts : List Token} (h : ts ≠ []) :
    Lexes ⟨Byte.space :: rest, line⟩ ts e ↔ Lexes ⟨rest, line⟩ ts e := by
  constructor
  · intro hl
    cases hl with
    | nil => contradiction
    | cons hn hs => exact .cons hn hs
  · intro hl
    cases hl with
    | nil => contradiction
    | cons hn hs => exact .cons hn hs

end HeapLisp.Token
