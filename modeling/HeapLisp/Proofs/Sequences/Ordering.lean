import HeapLisp.Proofs.Sequences.Contents

namespace HeapLisp

namespace Bytes

variable {a b c : Bytes}

theorem compare_nil (a : Bytes) : compare a [] = a.length := by
  cases a <;> rfl

/-- Comparing the other way round changes the sign. -/
theorem compare_swap (a b : Bytes) : compare b a = -compare a b := by
  fun_induction compare a b with
  | case1 b =>
    rw [compare_nil]
    omega
  | case2 a hne => rw [compare]
  | case3 x a b ih => rw [compare, if_pos rfl, ih]
  | case4 x a y b hne =>
    rw [compare, if_neg (Ne.symm hne)]
    omega

theorem compare_neg_iff (a b : Bytes) : compare a b < 0 ↔ a < b := by
  fun_induction compare a b with
  | case1 b =>
    cases b <;> simp
    omega
  | case2 a hne => simp
  | case3 x a b ih => simp [ih]
  | case4 x a y b hne =>
    simp [List.cons_lt_cons_iff, hne, UInt8.lt_iff_toNat_lt]

theorem compare_append (p a b : Bytes) : compare (p ++ a) (p ++ b) = compare a b := by
  induction p with
  | nil => rfl
  | cons x p ih => rw [List.cons_append, List.cons_append, compare, if_pos rfl, ih]

/-- The numbers do not get larger than the longer text or the largest byte. -/
theorem compare_le (a b : Bytes) : compare a b ≤ max a.length 255 := by
  fun_induction compare a b with
  | case1 b => omega
  | case2 a hne => omega
  | case3 x a b ih =>
    rw [List.length_cons]
    omega
  | case4 x a y b hne =>
    have hx := x.toNat_lt
    omega

/-- The number that comparing two texts gives. -/
def order (a b : Bytes) : Int64 := Int64.ofInt (compare a b)

theorem toInt_order (ha : a.length < 2 ^ 63) (hb : b.length < 2 ^ 63) :
    (order a b).toInt = compare a b := by
  have hle := compare_le a b
  have hge := compare_le b a
  rw [compare_swap a b] at hge
  exact Int64.toInt_ofInt_of_le (by omega) (by omega)

theorem order_neg_iff (ha : a.length < 2 ^ 63) (hb : b.length < 2 ^ 63) :
    order a b < 0 ↔ a < b := by
  rw [Int64.lt_iff_toInt_lt, toInt_order ha hb]
  exact compare_neg_iff a b

theorem order_swap (ha : a.length < 2 ^ 63) (hb : b.length < 2 ^ 63) :
    (order a b).toInt = -(order b a).toInt := by
  rw [toInt_order ha hb, toInt_order hb ha, compare_swap b a]

theorem order_le_iff (ha : a.length < 2 ^ 63) (hb : b.length < 2 ^ 63) : order a b ≤ 0 ↔ a ≤ b := by
  have hswap := order_swap ha hb
  rw [← List.not_lt, ← order_neg_iff hb ha, Int64.lt_iff_toInt_lt, Int64.le_iff_toInt_le,
    Int64.toInt_zero]
  omega

theorem order_eq_zero_iff (ha : a.length < 2 ^ 63) (hb : b.length < 2 ^ 63) :
    order a b = 0 ↔ a = b := by
  have hswap := order_swap ha hb
  constructor
  · intro h
    have hzero : order b a = 0 := by
      rw [← Int64.toInt_inj, Int64.toInt_zero]
      rw [h, Int64.toInt_zero] at hswap
      omega
    have hab : a ≤ b := (order_le_iff ha hb).mp (by rw [h]; decide)
    have hba : b ≤ a := (order_le_iff hb ha).mp (by rw [hzero]; decide)
    exact List.le_antisymm hab hba
  · rintro rfl
    rw [← Int64.toInt_inj, Int64.toInt_zero]
    omega

end Bytes

/-- The text of a string or a name is found. -/
theorem Eval.exists_finds_stringArg {s : Interp} {v : Value} {a : Bytes} (scope : Addr)
    (h : s.contents? v = some (.bytes a)) :
    ∃ text, Bytes.ofPacked text = a ∧ Finds s (stringArg scope v) text := by
  cases v with
  | num n => cases h
  | sym x =>
    obtain ⟨name, hx, hname⟩ := Option.map_eq_some_iff.mp h
    cases hname
    exact ⟨name, rfl, Finds.spelling hx⟩
  | ref b =>
    rw [Interp.contents?] at h
    split at h <;> cases h
    exact ⟨_, rfl, (Finds.fetch ‹_›).andThen (.pure s _)⟩

/-- Comparing texts orders them. Whatever the state, the program answers with the number of the two
texts. It changes its sign when the texts change places, is zero for equal texts only, and is
negative exactly if the first text comes before the second one in the lexicographic order of
unsigned bytes, where a proper prefix comes first. The order is transitive, and the same text put
before both makes no difference. -/
theorem Interp.compare_orders_texts {a b c : Bytes} (ha : a.length < 2 ^ 63)
    (hb : b.length < 2 ^ 63) (hc : c.length < 2 ^ 63) :
    (∀ (s : Interp) (scope : Addr) (v w : Value) (x y : Bytes), s.contents? v = some (.bytes x) →
      s.contents? w = some (.bytes y) →
      ∃ fuel, s.run fuel (Eval.runPrimitive scope .compare [v, w]) =
        .finished (.ok (.num (Bytes.order x y))) s) ∧
    (Bytes.order a b).toInt = -(Bytes.order b a).toInt ∧ (Bytes.order a b = 0 ↔ a = b) ∧
    (Bytes.order a b < 0 ↔ a < b) ∧
    (Bytes.order a b ≤ 0 → Bytes.order b c ≤ 0 → Bytes.order a c ≤ 0) ∧
    ∀ p, Bytes.order (p ++ a) (p ++ b) = Bytes.order a b := by
  refine ⟨?_, Bytes.order_swap ha hb, Bytes.order_eq_zero_iff ha hb,
    Bytes.order_neg_iff ha hb, ?_, ?_⟩
  · intro s scope v w _ _ hv hw
    obtain ⟨x, rfl, hx⟩ := Eval.exists_finds_stringArg scope hv
    obtain ⟨y, rfl, hy⟩ := Eval.exists_finds_stringArg scope hw
    rw [Bytes.order, ← Text.compare_eq]
    exact run_finished_iff.mpr (hx.bind.mpr (hy.bind.mpr (.done _ s)))
  · intro hab hbc
    rw [Bytes.order_le_iff ha hb] at hab
    rw [Bytes.order_le_iff hb hc] at hbc
    rw [Bytes.order_le_iff ha hc]
    exact List.le_trans hab hbc
  · intro p
    rw [Bytes.order, Bytes.compare_append, Bytes.order]

/-- A text comes before a longer one that begins with it, and bytes count without a sign. -/
theorem Interp.compare_orders_texts_prefix :
    let s₁ := ((bare ⟨1, 65536, false⟩ .empty 0).alloc (.str [97].toByteArray)).2
    let s := (s₁.alloc (.str [97, 0].toByteArray)).2
    (∃ fuel, s.run fuel (Eval.runPrimitive ⟨0⟩ .compare [.ref ⟨1⟩, .ref ⟨2⟩]) =
      .finished (.ok (.num (-1))) s) ∧
      Bytes.order [97] [200] ≤ 0 := by
  intro s₁ s
  have hshort : ([97] : Bytes).length < 2 ^ 63 := by decide
  have hlonger : ([97, 0] : Bytes).length < 2 ^ 63 := by decide
  have hlast : ([200] : Bytes).length < 2 ^ 63 := by decide
  obtain ⟨hrun, _, _, _, htrans, _⟩ := compare_orders_texts hshort hlonger hlast
  refine ⟨?_, htrans (by decide) (by decide)⟩
  exact hrun s ⟨0⟩ (.ref ⟨1⟩) (.ref ⟨2⟩) [97] [97, 0] (contents?_object rfl) (contents?_object rfl)

end HeapLisp
