import HeapLisp.Bytes.Utf8
import Mathlib.Data.List.Basic

namespace HeapLisp.Utf8

variable {a b : UInt8} {text x y : Bytes} {ranges : List (UInt8 × UInt8)}

/-- No byte behind a lead byte is an ASCII byte. -/
theorem le_of_mem_followers (h : followers b = some ranges) : ∀ range ∈ ranges, 0x80 ≤ range.1 := by
  unfold followers at h
  split_ifs at h <;> cases h <;> simp

/-- Bytes that lie in the ranges lie there whatever follows them. -/
theorem exists_of_matching (hascii : ∀ range ∈ ranges, 0x80 ≤ range.1)
    (h : matching ranges text = ranges.length) :
    ∃ tail rest, text = tail ++ rest ∧ tail.length = ranges.length ∧ (∀ t ∈ tail, 0x80 ≤ t) ∧
      ∀ more, matching ranges (tail ++ more) = ranges.length := by
  induction ranges generalizing text with
  | nil => exact ⟨[], text, rfl, rfl, by simp, fun more => by simp [matching]⟩
  | cons range ranges ih =>
    obtain ⟨lo, hi⟩ := range
    cases text with
    | nil => simp [matching] at h
    | cons t text =>
      rw [matching] at h
      by_cases hin : (lo ≤ t && t ≤ hi) = true
      · rw [if_pos hin, List.length_cons, Nat.add_right_cancel_iff] at h
        obtain ⟨tail, rest, rfl, hlen, htail, hmore⟩ := ih (fun r hr => hascii r (.tail _ hr)) h
        have hlo : 0x80 ≤ lo := hascii (lo, hi) (.head _)
        have ht : 0x80 ≤ t := by
          simp only [Bool.and_eq_true, decide_eq_true_eq] at hin
          exact UInt8.le_trans hlo hin.1
        refine ⟨t :: tail, rest, rfl, by simp [hlen], by simpa using ⟨ht, htail⟩, fun more => ?_⟩
        rw [List.cons_append, matching, if_pos hin, hmore, List.length_cons]
      · rw [if_neg hin] at h
        cases h

theorem exists_character (h : isValid (b :: text) = true) :
    ∃ tail rest, text = tail ++ rest ∧ (∀ t ∈ tail, 0x80 ≤ t) ∧
      ∀ more, isValid (b :: (tail ++ more)) = isValid more := by
  rw [isValid] at h
  split at h
  · cases h
  · rename_i ranges hb
    simp only [Bool.and_eq_true, beq_iff_eq] at h
    obtain ⟨tail, rest, htext, hlen, htail, hmore⟩ :=
      exists_of_matching (le_of_mem_followers hb) h.1
    refine ⟨tail, rest, htext, htail, fun more => ?_⟩
    rw [isValid, hb]
    simp [hmore, ← hlen]

theorem isValid_cons_of_ascii (ha : a < 0x80) (text : Bytes) :
    isValid (a :: text) = isValid text := by
  have hfollow : followers a = some [] := by rw [followers, if_pos ha]
  rw [isValid, hfollow]
  simp [matching]

theorem isValid_append_ascii (ha : a < 0x80) (h : isValid (x ++ a :: y) = true) :
    isValid x = true ∧ isValid y = true := by
  induction hlen : x.length using Nat.strongRecOn generalizing x with
  | _ n ih =>
    cases x with
    | nil =>
      rw [List.nil_append, isValid_cons_of_ascii ha] at h
      exact ⟨by simp [isValid], h⟩
    | cons b x =>
      rw [List.cons_append] at h
      obtain ⟨tail, rest, heq, htail, hmore⟩ := exists_character h
      -- the ASCII byte is not in the character, so the character ends before it
      have hsplit : ∃ x', x = tail ++ x' ∧ rest = x' ++ a :: y := by
        rcases List.append_eq_append_iff.mp heq with ⟨x', htail', hrest⟩ | ⟨x', hx, hrest⟩
        · cases x' with
          | nil => exact ⟨[], by simpa using htail'.symm, by simpa using hrest.symm⟩
          | cons t x' =>
            cases hrest
            have hta : 0x80 ≤ a := htail a (by simp [htail'])
            exact absurd ha (UInt8.not_lt.mpr hta)
        · exact ⟨x', hx, hrest⟩
      obtain ⟨x', rfl, rfl⟩ := hsplit
      rw [heq, hmore] at h
      obtain ⟨hx, hy⟩ :=
        ih x'.length (by simp only [List.length_cons, List.length_append] at hlen; omega) h rfl
      exact ⟨(hmore x').trans hx, hy⟩

end HeapLisp.Utf8
