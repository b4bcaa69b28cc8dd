import HeapLisp.Numeral
import Mathlib.Data.Nat.Init

namespace HeapLisp.Numeral

variable {n limit : Nat}

theorem digit_of_lt : ∀ d < 10, digit (48 + d.toUInt8) = some d := by decide

theorem isDigit_of_lt : ∀ d < 10, Byte.isDigit (48 + d.toUInt8) = true := by decide

theorem isDigit_of_mem_decimal {b : UInt8} (h : b ∈ decimal n) : Byte.isDigit b = true := by
  induction n using Nat.strong_induction_on with
  | _ n ih =>
    rw [decimal] at h
    split at h
    · rw [List.mem_singleton.mp h]
      exact isDigit_of_lt n ‹_›
    · rcases List.mem_append.mp h with h | h
      · exact ih (n / 10) (by omega) h
      · rw [List.mem_singleton.mp h]
        exact isDigit_of_lt _ (by omega)

theorem decimal_ne_nil (n : Nat) : decimal n ≠ [] := by
  rw [decimal]
  split <;> simp

/-- Reading decimal digits builds up the number that they are the digits of. -/
theorem magnitude_decimal_append (h : n ≤ limit) (rest : Bytes) :
    magnitude limit 10 0 (decimal n ++ rest) = magnitude limit 10 n rest := by
  induction n using Nat.strong_induction_on generalizing rest with
  | _ n ih =>
    rw [decimal]
    split
    · have hd := digit_of_lt n ‹_›
      have hin : n < 10 ∧ n ≤ limit := by omega
      rw [List.singleton_append, magnitude, hd]
      simp only [Nat.zero_mul, Nat.zero_add, if_pos hin]
    · have hd := digit_of_lt (n % 10) (by omega)
      have hin : n % 10 < 10 ∧ n ≤ limit := by omega
      have hn : n / 10 * 10 + n % 10 = n := by omega
      rw [List.append_assoc, ih (n / 10) (by omega) (by omega), List.singleton_append,
        magnitude, hd]
      simp only [hn, if_pos hin]

/-- A decimal numeral has no radix mark, since the marks are no digits. -/
theorem radixOf_decimal (n : Nat) : radixOf (decimal n) = (10, decimal n) := by
  have hdigit (b : UInt8) (hb : Byte.isDigit b = false) : b ∉ decimal n := by
    intro hm
    rw [isDigit_of_mem_decimal hm] at hb
    cases hb
  unfold radixOf
  split
  · exact absurd (by simp [*]) (hdigit 120 rfl)
  · exact absurd (by simp [*]) (hdigit 98 rfl)
  · exact absurd (by simp [*]) (hdigit 111 rfl)
  · rfl

theorem unsigned_decimal (h : n ≤ limit) : unsigned limit (decimal n) = some n := by
  have hm := magnitude_decimal_append h []
  rw [List.append_nil, magnitude] at hm
  rw [unsigned, radixOf_decimal]
  split
  · rename_i heq
    exact absurd (Prod.mk.inj heq).2 (decimal_ne_nil n)
  · rename_i heq
    obtain ⟨rfl, rfl⟩ := Prod.mk.inj heq
    exact hm

theorem exists_decimal_eq (n : Nat) : ∃ b rest, decimal n = b :: rest ∧ Byte.isDigit b = true := by
  obtain ⟨b, rest, h⟩ := List.exists_cons_of_ne_nil (decimal_ne_nil n)
  exact ⟨b, rest, h, isDigit_of_mem_decimal (h ▸ List.mem_cons_self)⟩

theorem looksNumeric_ofInt (i : Int) : looksNumeric (ofInt i) = true := by
  cases i with
  | ofNat n =>
    obtain ⟨b, rest, h, hb⟩ := exists_decimal_eq n
    rw [ofInt, h]
    unfold looksNumeric
    split
    · rename_i heq
      cases heq
      cases hb
    · rename_i heq
      cases heq
      exact hb
    · rename_i heq
      cases heq
  | negSucc n =>
    obtain ⟨b, rest, h, hb⟩ := exists_decimal_eq (n + 1)
    rw [ofInt, h]
    exact hb

theorem parse_ofInt (k : Int64) : parse (ofInt k.toInt) = some k := by
  have hlow := k.le_toInt
  have hhigh := k.toInt_lt
  have hk : Int64.ofInt k.toInt = k := Int64.ofInt_toInt k
  generalize k.toInt = i at hlow hhigh hk
  cases i with
  | ofNat n =>
    have hn : n ≤ maxMagnitude - 1 := Int.ofNat_le.mp (Int.le_of_lt_add_one hhigh)
    obtain ⟨b, rest, h, hb⟩ := exists_decimal_eq n
    have hu := unsigned_decimal hn
    rw [ofInt, parse.eq_def]
    split
    · rename_i heq
      cases heq.symm.trans h
      cases hb
    · rw [hu]
      exact congrArg some hk
  | negSucc n =>
    have hn : n + 1 ≤ maxMagnitude := by
      unfold maxMagnitude
      omega
    rw [ofInt, Byte.minus, parse, unsigned_decimal hn]
    exact congrArg some hk

end HeapLisp.Numeral
