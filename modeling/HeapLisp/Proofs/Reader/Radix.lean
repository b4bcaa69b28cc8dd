import HeapLisp.Proofs.Reader.Numerals
import Mathlib.Data.Nat.Digits.Defs

namespace HeapLisp.Numeral

/-- The marks that choose a radix; without one it is ten. -/
inductive RadixMark : Bytes → Nat → Prop where
  | decimal : RadixMark [] 10
  | hexadecimal : RadixMark [48, 120] 16
  | binary : RadixMark [48, 98] 2
  | octal : RadixMark [48, 111] 8

/-- Bytes that are digits of the radix, and what they are worth one by one. -/
def IsDigits (radix : Nat) : Bytes → List Nat → Prop :=
  List.Forall₂ fun b d => digit b = some d ∧ d < radix

/-- An unsigned numeral and the number that it denotes. -/
inductive Counts : Bytes → Nat → Prop where
  | intro {mark digits : Bytes} {radix : Nat} {ds : List Nat} (hm : RadixMark mark radix)
    (hne : digits ≠ [])
    (hd : IsDigits radix digits ds) : Counts (mark ++ digits) (Nat.ofDigits radix ds.reverse)

/-- A numeral and the integer that it denotes. -/
inductive Denotes : Bytes → Int → Prop where
  | plain {text : Bytes} {n : Nat} (h : Counts text n) : Denotes text n
  | negative {text : Bytes} {n : Nat} (h : Counts text n) : Denotes (Byte.minus :: text) (-n)

variable {limit radix value n : Nat} {text digits mark : Bytes} {ds : List Nat}

/-- The value after a digit and the digits that follow it. -/
theorem ofDigits_reverse (radix value : Nat) (ds : List Nat) :
    ds.foldl (fun v d => v * radix + d) value = value * radix ^ ds.length +
      Nat.ofDigits radix ds.reverse := by
  induction ds generalizing value with
  | nil => simp
  | cons d ds ih =>
    rw [List.foldl_cons, ih, List.reverse_cons, Nat.ofDigits_append, Nat.ofDigits_singleton,
      List.length_reverse, List.length_cons]
    ring

theorem le_foldl (hr : 0 < radix) (value : Nat) (ds : List Nat) :
    value ≤ ds.foldl (fun v d => v * radix + d) value := by
  have hpow : 0 < radix ^ ds.length := Nat.pow_pos hr
  have hle : value * 1 ≤ value * radix ^ ds.length := Nat.mul_le_mul_left value hpow
  rw [ofDigits_reverse]
  omega

theorem isDigits_of_magnitude (hv : value ≤ limit) (h : magnitude limit radix value text = some n) :
    n ≤ limit ∧ ∃ ds, IsDigits radix text ds ∧ n = ds.foldl (fun v d => v * radix + d) value := by
  induction text generalizing value with
  | nil =>
    cases h
    exact ⟨hv, [], .nil, rfl⟩
  | cons b rest ih =>
    rw [magnitude] at h
    split at h
    · rename_i d hb
      split_ifs at h with hin
      obtain ⟨hn, ds, hds, heq⟩ := ih hin.2 h
      exact ⟨hn, d :: ds, .cons ⟨hb, hin.1⟩ hds, heq⟩
    · cases h

theorem magnitude_of_isDigits (hr : 0 < radix) (h : IsDigits radix text ds)
    (hle : ds.foldl (fun v d => v * radix + d) value ≤ limit) :
    magnitude limit radix value text = some (ds.foldl (fun v d => v * radix + d) value) := by
  induction h generalizing value with
  | nil => rfl
  | @cons b d rest ds hb _ ih =>
    have hin : d < radix ∧ value * radix + d ≤ limit :=
      ⟨hb.2, (le_foldl hr (value * radix + d) ds).trans hle⟩
    rw [magnitude, hb.1]
    simp only [if_pos hin]
    exact ih hle

theorem RadixMark.radix_pos (h : RadixMark mark radix) : 0 < radix := by
  cases h <;> decide

/-- The marks are no decimal digits, so digits alone are not taken for a mark. -/
theorem radixOf_append (hm : RadixMark mark radix) (hd : IsDigits radix digits ds) :
    radixOf (mark ++ digits) = (radix, digits) := by
  cases hm with
  | hexadecimal | binary | octal => rfl
  | decimal =>
    have hdigit : ∀ b ∈ digits, ∃ d, digit b = some d ∧ d < 10 := by
      intro b hb
      induction hd with
      | nil => cases hb
      | cons h _ ih =>
        cases hb with
        | head => exact ⟨_, h⟩
        | tail _ hb => exact ih hb
    have hnot (b : UInt8) (d : Nat) (hb : digit b = some d) (hd : 10 ≤ d) : b ∉ digits := by
      intro hm
      obtain ⟨d', hd', hlt⟩ := hdigit b hm
      rw [hb] at hd'
      cases hd'
      omega
    rw [List.nil_append]
    unfold radixOf
    split
    · exact absurd (by simp) (hnot 120 33 rfl (by decide))
    · exact absurd (by simp) (hnot 98 11 rfl (by decide))
    · exact absurd (by simp) (hnot 111 24 rfl (by decide))
    · rfl

/-- Every text is digits after a mark, if the digits may be any bytes. -/
theorem exists_radixMark (text : Bytes) : ∃ mark, RadixMark mark (radixOf text).1 ∧
    text = mark ++ (radixOf text).2 := by
  unfold radixOf
  split
  · exact ⟨_, .hexadecimal, rfl⟩
  · exact ⟨_, .binary, rfl⟩
  · exact ⟨_, .octal, rfl⟩
  · exact ⟨_, .decimal, rfl⟩

theorem unsigned_eq_some_iff : unsigned limit text = some n ↔ n ≤ limit ∧ Counts text n := by
  constructor
  · intro h
    obtain ⟨mark, hm, htext⟩ := exists_radixMark text
    rw [unsigned] at h
    split at h
    · cases h
    · rename_i radix digits hne heq
      rw [heq] at hm htext
      obtain ⟨hn, ds, hds, hval⟩ := isDigits_of_magnitude (Nat.zero_le limit) h
      rw [ofDigits_reverse, Nat.zero_mul, Nat.zero_add] at hval
      subst htext hval
      exact ⟨hn, .intro hm hne hds⟩
  · rintro ⟨hn, h⟩
    cases h with
    | @intro mark digits radix ds hm hne hd =>
      have hval := ofDigits_reverse radix 0 ds
      rw [Nat.zero_mul, Nat.zero_add] at hval
      have hmag := magnitude_of_isDigits hm.radix_pos hd (hval ▸ hn)
      rw [unsigned, radixOf_append hm hd]
      cases digits with
      | nil => contradiction
      | cons b rest => exact hval ▸ hmag

theorem isDigit_of_digit_lt {b : UInt8} {d : Nat} (h : digit b = some d) (hd : d < 10) :
    Byte.isDigit b = true := by
  unfold digit at h
  simp only [Byte.isDigit]
  split_ifs at h with h₁ h₂ h₃
  · exact h₁
  · cases h
    simp only [Bool.and_eq_true, decide_eq_true_eq, UInt8.le_iff_toNat_le, UInt8.toNat_ofNat] at h₂
    omega
  · cases h
    simp only [Bool.and_eq_true, decide_eq_true_eq, UInt8.le_iff_toNat_le, UInt8.toNat_ofNat] at h₃
    omega

/-- A mark or a decimal numeral begins with a digit. -/
theorem Counts.exists_eq_cons (h : Counts text n) :
    ∃ b rest, text = b :: rest ∧ Byte.isDigit b = true := by
  cases h with
  | intro hm hne hd =>
    cases hm with
    | hexadecimal | binary | octal => exact ⟨_, _, rfl, rfl⟩
    | decimal =>
      cases hd with
      | nil => contradiction
      | cons hb _ => exact ⟨_, _, rfl, isDigit_of_digit_lt hb.1 hb.2⟩

theorem Denotes.looksNumeric {i : Int} (h : Denotes text i) : looksNumeric text = true := by
  cases h with
  | plain h =>
    obtain ⟨b, rest, rfl, hb⟩ := h.exists_eq_cons
    unfold Numeral.looksNumeric
    split
    · rename_i heq
      cases heq
      cases hb
    · rename_i heq
      cases heq
      exact hb
    · rename_i heq
      cases heq
  | negative h =>
    obtain ⟨b, rest, rfl, hb⟩ := h.exists_eq_cons
    exact hb

theorem parse_negative (text : Bytes) :
    parse (Byte.minus :: text) = (unsigned maxMagnitude text).map fun n : Nat =>
      Int64.ofInt (-n) := by
  rw [Byte.minus, parse]
  cases unsigned maxMagnitude text <;> rfl

theorem parse_plain (h : ∀ body, text ≠ Byte.minus :: body) :
    parse text = (unsigned (maxMagnitude - 1) text).map Int64.ofNat := by
  rw [parse.eq_def]
  split
  · rename_i body
    exact absurd rfl (h body)
  · rfl

/-- Text is read as a number exactly if it is a numeral of that number. -/
theorem parse_eq_some_iff {k : Int64} : parse text = some k ↔ Denotes text k.toInt := by
  have hmax : maxMagnitude = 2 ^ 63 := rfl
  constructor
  · intro h
    by_cases hminus : ∃ body, text = Byte.minus :: body
    · obtain ⟨body, rfl⟩ := hminus
      rw [parse_negative] at h
      obtain ⟨n, hn, rfl⟩ := Option.map_eq_some_iff.mp h
      obtain ⟨hle, hc⟩ := unsigned_eq_some_iff.mp hn
      have hk : (Int64.ofInt (-n)).toInt = -n := Int64.toInt_ofInt_of_le (by omega) (by omega)
      rw [hk]
      exact .negative hc
    · rw [parse_plain (by simpa using hminus)] at h
      obtain ⟨n, hn, rfl⟩ := Option.map_eq_some_iff.mp h
      obtain ⟨hle, hc⟩ := unsigned_eq_some_iff.mp hn
      have hk : (Int64.ofNat n).toInt = n := Int64.toInt_ofNat_of_lt (by omega)
      rw [hk]
      exact .plain hc
  · intro h
    have hlow := k.le_toInt
    have hhigh := k.toInt_lt
    have hk : Int64.ofInt k.toInt = k := Int64.ofInt_toInt k
    generalize k.toInt = i at h hlow hhigh hk
    cases h with
    | @plain _ n hc =>
      have hfirst : ∀ body, text ≠ Byte.minus :: body := by
        intro body hbody
        obtain ⟨b, rest, htext, hb⟩ := hc.exists_eq_cons
        cases hbody.symm.trans htext
        cases hb
      rw [parse_plain hfirst, unsigned_eq_some_iff.mpr ⟨by omega, hc⟩]
      exact congrArg some hk
    | @negative _ n hc =>
      rw [parse_negative, unsigned_eq_some_iff.mpr ⟨by omega, hc⟩]
      exact congrArg some hk

end HeapLisp.Numeral
