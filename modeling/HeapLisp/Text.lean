import HeapLisp.Sequence

namespace HeapLisp.Text

/-- The byte at an index inside the text. -/
def elem? (text : ByteArray) (i : Nat) : Option UInt8 := text[i]?

/-- Whether two texts have the same bytes. -/
def same (x y : ByteArray) : Bool := @decide (x = y) (ByteArray.decEq x y)

/-- The part from `s` up to but not including `e`; refused unless `s ≤ e` and `e` is at most the
length. -/
def slice? (text : ByteArray) (s e : Nat) : Option ByteArray :=
  if s ≤ e ∧ e ≤ text.size then some (text.extract s e) else none

/-- Several texts, one after the other. -/
def cat (parts : List ByteArray) : ByteArray :=
  parts.foldl (· ++ ·) (.emptyWithCapacity (parts.foldl (· + ·.size) 0))

/-- The index of the first byte `b` from index `i` on. -/
def indexFrom (b : UInt8) (text : ByteArray) (i : Nat) : Option Nat :=
  if h : i < text.size then
    if text[i] = b then some i else indexFrom b text (i + 1)
  else none
termination_by text.size - i

/-- The index of the first byte `b`. -/
def indexOf? (b : UInt8) (text : ByteArray) : Option Nat := indexFrom b text 0

/-- Compares texts whose first `i` bytes are equal: the first differing byte decides by its
difference, and without one the difference of the lengths does. -/
def compareFrom (x y : ByteArray) (i : Nat) : Int :=
  if h : i < x.size ∧ i < y.size then
    if x[i] = y[i] then compareFrom x y (i + 1) else (x[i].toNat : Int) - y[i].toNat
  else (x.size : Int) - y.size
termination_by x.size - i

/-- Compares texts byte by byte. -/
def compare (x y : ByteArray) : Int := compareFrom x y 0

theorem same_iff {x y : ByteArray} : same x y = true ↔ x = y := by simp [same]

theorem elem?_eq (text : ByteArray) (i : Nat) : elem? text i = Sequence.elem? text.data i := by
  rw [elem?, Sequence.elem?]
  by_cases h : i < text.size
  · rw [getElem?_pos text i h, getElem?_pos text.data i (by simpa using h),
      ByteArray.getElem_eq_getElem_data]
  · rw [getElem?_neg text i h, getElem?_neg text.data i (by simpa using h)]

theorem exists_elem? {text : ByteArray} {i : Nat} (h : i < text.size) :
    ∃ b, elem? text i = some b :=
  ⟨text[i], getElem?_pos text i h⟩

theorem map_data_slice? (text : ByteArray) (s e : Nat) :
    (slice? text s e).map ByteArray.data = Sequence.slice? text.data s e := by
  simp only [slice?, Sequence.slice?, ByteArray.size_data]
  split <;> simp

theorem data_foldl_append (parts : List ByteArray) (before : ByteArray) :
    (parts.foldl (· ++ ·) before).data = (parts.map ByteArray.data).foldl (· ++ ·) before.data := by
  induction parts generalizing before with
  | nil => rfl
  | cons part parts ih => simp [ih]

theorem data_cat (parts : List ByteArray) :
    (cat parts).data = Sequence.cat (parts.map ByteArray.data) := by
  rw [cat, data_foldl_append, Sequence.cat, Array.emptyWithCapacity_eq]
  rfl

theorem ofPacked_drop {text : ByteArray} {i : Nat} (h : i < text.size) :
    (Bytes.ofPacked text).drop i = text[i] :: (Bytes.ofPacked text).drop (i + 1) := by
  rw [Bytes.ofPacked_eq, List.drop_eq_getElem_cons (by simpa using h)]
  simp [ByteArray.getElem_eq_getElem_data]

theorem ofPacked_drop_eq_nil {t : ByteArray} {i : Nat} (h : t.size ≤ i) :
    (Bytes.ofPacked t).drop i = [] := by
  rw [Bytes.ofPacked_eq]
  exact List.drop_eq_nil_of_le (by simpa using h)

@[simp] theorem length_ofPacked (text : ByteArray) : (Bytes.ofPacked text).length = text.size := by
  simp [Bytes.ofPacked_eq]

theorem indexFrom_eq (b : UInt8) (text : ByteArray) (i : Nat) :
    indexFrom b text i = (((Bytes.ofPacked text).drop i).findIdx? (· == b)).map (· + i) := by
  fun_induction indexFrom b text i with
  | case1 i h heq =>
    rw [ofPacked_drop h, List.findIdx?_cons]
    simp [heq]
  | case2 i h hne ih =>
    rw [ih, ofPacked_drop h, List.findIdx?_cons]
    simp [hne, Function.comp_def, Nat.add_comm, Nat.add_left_comm]
  | case3 i h => simp [ofPacked_drop_eq_nil (Nat.le_of_not_lt h)]

theorem indexOf?_eq (b : UInt8) (text : ByteArray) :
    indexOf? b text = (Bytes.ofPacked text).findIdx? (· == b) := by
  simp [indexOf?, indexFrom_eq]

theorem compareFrom_eq (x y : ByteArray) (i : Nat) (hx : i ≤ x.size) (hy : i ≤ y.size) :
    compareFrom x y i = Bytes.compare ((Bytes.ofPacked x).drop i) ((Bytes.ofPacked y).drop i) := by
  fun_induction compareFrom x y i with
  | case1 i h heq ih =>
    rw [ih h.1 h.2, ofPacked_drop h.1, ofPacked_drop h.2, Bytes.compare, if_pos heq]
  | case2 i h hne => rw [ofPacked_drop h.1, ofPacked_drop h.2, Bytes.compare, if_neg hne]
  | case3 i h =>
    rcases Nat.lt_or_ge i x.size with hlt | hge
    · rw [ofPacked_drop_eq_nil (t := y) (by omega), ofPacked_drop hlt]
      simp only [Bytes.compare, List.length_cons, List.length_drop, length_ofPacked]
      omega
    · rw [ofPacked_drop_eq_nil hge]
      simp only [Bytes.compare, List.length_drop, length_ofPacked]
      omega

theorem compare_eq (x y : ByteArray) :
    compare x y = Bytes.compare (Bytes.ofPacked x) (Bytes.ofPacked y) := by
  simpa [compare] using compareFrom_eq x y 0 (Nat.zero_le _) (Nat.zero_le _)

end HeapLisp.Text
