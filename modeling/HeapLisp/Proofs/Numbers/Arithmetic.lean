import HeapLisp.Proofs.Sequences.Slicing
import Mathlib.Algebra.BigOperators.Group.List.Basic

namespace HeapLisp

namespace Arithmetic

/-- Wrapping around at every addition is the same as wrapping around once, at the end. -/
theorem foldl_add (n : Int64) (ns : List Int64) :
    ns.foldl (· + ·) n = Int64.ofInt ((n :: ns).map Int64.toInt).sum := by
  induction ns generalizing n with
  | nil => simp
  | cons k ns ih =>
    rw [List.foldl_cons, ih (n + k)]
    simp only [List.map_cons, List.sum_cons, Int64.ofInt_add, Int64.ofInt_toInt]
    exact Int64.add_assoc n k _

theorem foldl_mul (n : Int64) (ns : List Int64) :
    ns.foldl (· * ·) n = Int64.ofInt ((n :: ns).map Int64.toInt).prod := by
  induction ns generalizing n with
  | nil => simp
  | cons k ns ih =>
    rw [List.foldl_cons, ih (n * k)]
    simp only [List.map_cons, List.prod_cons, Int64.ofInt_mul, Int64.ofInt_toInt]
    exact Int64.mul_assoc n k _

theorem foldl_sub (n : Int64) (ns : List Int64) :
    ns.foldl (· - ·) n = Int64.ofInt (n.toInt - (ns.map Int64.toInt).sum) := by
  induction ns generalizing n with
  | nil => simp
  | cons k ns ih =>
    rw [List.foldl_cons, ih (n - k)]
    simp only [List.map_cons, List.sum_cons, Int64.ofInt_sub, Int64.ofInt_add, Int64.ofInt_toInt]
    exact Int64.sub_sub n k _

theorem foldl_max (n : Int64) (ns : List Int64) :
    ns.foldl max n ∈ n :: ns ∧ ∀ k ∈ n :: ns, k ≤ ns.foldl max n := by
  have hmax : Std.LawfulOrderLeftLeaningMax Int64 := by
    constructor
    · intro a b hba
      change (if a ≤ b then b else a) = a
      split
      · exact Int64.le_antisymm hba ‹_›
      · rfl
    · intro a b hba
      change (if a ≤ b then b else a) = b
      exact if_pos ((Int64.le_total a b).resolve_right hba)
  exact List.max?_eq_some_iff.mp List.max?_cons'

theorem foldl_min (n : Int64) (ns : List Int64) :
    ns.foldl min n ∈ n :: ns ∧ ∀ k ∈ n :: ns, ns.foldl min n ≤ k :=
  List.min?_eq_some_iff.mp List.min?_cons'

/-- Division toward zero, reduced to 64 bits. -/
theorem quotient_eq (a b : Int64) : quotient a b = Int64.ofInt (a.toInt.tdiv b.toInt) := by
  rw [quotient, ← Int64.toInt_inj, Int64.toInt_div, Int64.toInt_ofInt]

theorem toInt_remainder (a b : Int64) : (remainder a b).toInt = a.toInt.tmod b.toInt :=
  Int64.toInt_mod a b

theorem remainder_eq (a b : Int64) : remainder a b = Int64.ofInt (a.toInt.tmod b.toInt) := by
  rw [← toInt_remainder, Int64.ofInt_toInt]

/-- Only one quotient does not fit into 64 bits. -/
theorem toInt_quotient (a b : Int64) :
    (quotient a b).toInt =
      if a.toInt = -2 ^ 63 ∧ b.toInt = -1 then -2 ^ 63 else a.toInt.tdiv b.toInt := by
  have hleast : a.toInt = -2 ^ 63 ↔ a = Int64.minValue := Int64.toInt_inj (y := Int64.minValue)
  have hminus : b.toInt = -1 ↔ b = -1 := Int64.toInt_inj (y := -1)
  simp only [hleast, hminus, quotient]
  split
  · rename_i hab
    rw [hab.1, hab.2, Int64.minValue_div_neg_one]
    rfl
  · rename_i hab
    by_cases hb : b = -1
    · exact Int64.toInt_div_of_ne_left a b fun ha => hab ⟨ha, hb⟩
    · exact Int64.toInt_div_of_ne_right a b hb

/-- Quotient and remainder give the number back, even where the quotient wraps around. -/
theorem quotient_mul_add_remainder (a b : Int64) : quotient a b * b + remainder a b = a := by
  have hexact : Int64.ofInt (a.toInt.tdiv b.toInt * b.toInt + a.toInt.tmod b.toInt) = a := by
    rw [Int.tdiv_mul_add_tmod, Int64.ofInt_toInt]
  rw [Int64.ofInt_add, Int64.ofInt_mul, Int64.ofInt_toInt] at hexact
  rw [quotient_eq, remainder_eq, hexact]

end Arithmetic

namespace Eval

theorem mapM_asNum_nums (ns : List Int64) : (ns.map Value.num).mapM Value.asNum = .ok ns := by
  induction ns with
  | nil => rfl
  | cons n ns ih =>
    rw [List.map_cons, List.mapM_cons, ih]
    rfl

/-- Numbers are taken as they are. -/
@[simp] theorem numArgs_nums (scope : Addr) (ns : List Int64) :
    numArgs scope (ns.map Value.num) = .done ns := by
  rw [numArgs, mapM_asNum_nums]
  rfl

end Eval

namespace Interp

variable {s : Interp} {scope : Addr} {ns : List Int64}

/-- The evaluation comes to the value, and nothing changes. -/
def Answers (s : Interp) (x : Eval Value) (v : Value) : Prop :=
  ∃ fuel, s.run fuel x = .finished (.ok v) s

theorem answers_of_eq_done {x : Eval Value} {v : Value} (h : x = .done v) : s.Answers x v := by
  subst h
  exact run_finished_iff.mpr (.done v s)

theorem foldNums_answers (s : Interp) (scope : Addr) (n : Int64) (ns : List Int64)
    (f : Int64 → Int64 → Int64) :
    s.Answers (Eval.foldNums scope ((n :: ns).map .num) f) (.num (ns.foldl f n)) := by
  apply answers_of_eq_done
  rw [Eval.foldNums, Eval.numArgs_nums]
  rfl

theorem divideNums_answers (s : Interp) (scope : Addr) (n : Int64) (f : Int64 → Int64 → Int64)
    (h : 0 ∉ ns) :
    s.Answers (Eval.divideNums scope ((n :: ns).map .num) f) (.num (ns.foldl f n)) := by
  have hzero : ¬ns.contains 0 = true := by simpa using h
  apply answers_of_eq_done
  rw [Eval.divideNums, Eval.numArgs_nums]
  exact if_neg hzero

/-- A zero among the divisors is refused. -/
theorem divideNums_refuses (hs : s.HasScope scope) (n : Int64) (f : Int64 → Int64 → Int64)
    (h : 0 ∈ ns) :
    s.Refuses (Eval.divideNums scope ((n :: ns).map .num) f) .arithmetic := by
  have hzero : ns.contains 0 = true := by simpa using h
  have hraise : Eval.divideNums scope ((n :: ns).map .num) f = Eval.raise scope .divisionByZero
      (.num 0) := by
    rw [Eval.divideNums, Eval.numArgs_nums]
    exact if_pos hzero
  rw [hraise]
  exact refuses_of_raise (α := Value) .divisionByZero (.refl hs.intact) hs (Value.live_num _ 0) id

theorem divideNums_settles (hs : s.HasScope scope) (n : Int64) (ns : List Int64)
    (f : Int64 → Int64 → Int64) :
    s.Settles (Eval.divideNums scope ((n :: ns).map .num) f) (0 ∉ ns) .arithmetic := by
  refine .of_cases (fun hnone => ?_) fun hsome => divideNums_refuses hs n f (not_not.mp hsome)
  obtain ⟨fuel, hrun⟩ := divideNums_answers s scope n f hnone
  exact ⟨fuel, _, s, hrun⟩

/-- What arithmetic makes of one or more numbers, in exact integers. -/
structure ArithmeticLaws (scope : Addr) (s : Interp) (n : Int64) (ns : List Int64) : Prop where
  /-- The sum is the same in every order. -/
  add : ∀ ms : List Int64, ms.Perm (n :: ns) →
    s.Answers (Eval.runPrimitive scope .add (ms.map .num))
    (.num (Int64.ofInt ((n :: ns).map Int64.toInt).sum))
  /-- So is the product. -/
  mul : ∀ ms : List Int64, ms.Perm (n :: ns) →
    s.Answers (Eval.runPrimitive scope .mul (ms.map .num))
    (.num (Int64.ofInt ((n :: ns).map Int64.toInt).prod))
  sub : s.Answers (Eval.runPrimitive scope .sub ((n :: ns).map .num))
    (.num (Int64.ofInt (n.toInt - (ns.map Int64.toInt).sum)))
  max : ∃ m ∈ n :: ns, (∀ k ∈ n :: ns, k.toInt ≤ m.toInt) ∧
    s.Answers (Eval.runPrimitive scope .max ((n :: ns).map .num)) (.num m)
  min : ∃ m ∈ n :: ns, (∀ k ∈ n :: ns, m.toInt ≤ k.toInt) ∧
    s.Answers (Eval.runPrimitive scope .min ((n :: ns).map .num)) (.num m)
  /-- There is a quotient unless one of the divisors is zero. -/
  div_settles : s.Settles (Eval.runPrimitive scope .div ((n :: ns).map .num)) (0 ∉ ns) .arithmetic
  rem_settles : s.Settles (Eval.runPrimitive scope .rem ((n :: ns).map .num)) (0 ∉ ns) .arithmetic
  div : 0 ∉ ns → s.Answers (Eval.runPrimitive scope .div ((n :: ns).map .num))
    (.num (ns.foldl (fun a b => Int64.ofInt (a.toInt.tdiv b.toInt)) n))
  rem : 0 ∉ ns → s.Answers (Eval.runPrimitive scope .rem ((n :: ns).map .num))
    (.num (ns.foldl (fun a b => Int64.ofInt (a.toInt.tmod b.toInt)) n))

/-- Quotient and remainder of two numbers. The quotient of -2^63 by -1 is -2^63, and all others are
exact; the number is the product of quotient and divisor plus the remainder. -/
structure DivisionLaws (scope : Addr) (s : Interp) (a b q r : Int64) : Prop where
  div : s.Answers (Eval.runPrimitive scope .div [.num a, .num b]) (.num q)
  rem : s.Answers (Eval.runPrimitive scope .rem [.num a, .num b]) (.num r)
  quotient : q.toInt = if a.toInt = -2 ^ 63 ∧ b.toInt = -1 then -2 ^ 63 else a.toInt.tdiv b.toInt
  remainder : r.toInt = a.toInt.tmod b.toInt
  undone : ∃ p, s.Answers (Eval.runPrimitive scope .mul [.num q, .num b]) (.num p) ∧
    s.Answers (Eval.runPrimitive scope .add [.num p, .num r]) (.num a)

theorem arithmeticLaws (hs : s.HasScope scope) (n : Int64) (ns : List Int64) :
    s.ArithmeticLaws scope n ns where
  add ms hms := by
    rw [← (hms.map Int64.toInt).sum_eq]
    cases ms with
    | nil => cases hms.symm.eq_nil
    | cons m ms =>
      rw [← Arithmetic.foldl_add]
      exact foldNums_answers s scope m ms _
  mul ms hms := by
    rw [← (hms.map Int64.toInt).prod_eq]
    cases ms with
    | nil => cases hms.symm.eq_nil
    | cons m ms =>
      rw [← Arithmetic.foldl_mul]
      exact foldNums_answers s scope m ms _
  sub := by
    rw [← Arithmetic.foldl_sub]
    exact foldNums_answers s scope n ns _
  max := by
    obtain ⟨hmem, hle⟩ := Arithmetic.foldl_max n ns
    exact ⟨_, hmem, fun k hk => Int64.le_iff_toInt_le.mp (hle k hk),
      foldNums_answers s scope n ns _⟩
  min := by
    obtain ⟨hmem, hle⟩ := Arithmetic.foldl_min n ns
    exact ⟨_, hmem, fun k hk => Int64.le_iff_toInt_le.mp (hle k hk),
      foldNums_answers s scope n ns _⟩
  div_settles := divideNums_settles hs n ns _
  rem_settles := divideNums_settles hs n ns _
  div hns := by
    simp only [← Arithmetic.quotient_eq]
    exact divideNums_answers s scope n _ hns
  rem hns := by
    simp only [← Arithmetic.remainder_eq]
    exact divideNums_answers s scope n _ hns

theorem divisionLaws (s : Interp) (scope : Addr) (a : Int64) {b : Int64} (hb : b ≠ 0) :
    s.DivisionLaws scope a b (Arithmetic.quotient a b) (Arithmetic.remainder a b) := by
  have hdivisor : 0 ∉ [b] := by simpa using hb.symm
  refine ⟨divideNums_answers s scope a _ hdivisor, divideNums_answers s scope a _ hdivisor,
    Arithmetic.toInt_quotient a b,
    Arithmetic.toInt_remainder a b, _, foldNums_answers s scope (Arithmetic.quotient a b) [b] _, ?_⟩
  have hsum := foldNums_answers s scope (Arithmetic.quotient a b * b)
    [Arithmetic.remainder a b] (· + ·)
  rwa [List.foldl_cons, List.foldl_nil, Arithmetic.quotient_mul_add_remainder] at hsum

/-- Arithmetic is modulo 2^64. For one or more numbers, sum, product and difference are the exact
ones reduced to 64 bits with a sign, and the greatest and the least one are found. Division toward
zero and its remainder are repeated from the left and fail for a zero divisor only. Quotient times
divisor plus remainder is the number again. -/
theorem arithmetic_is_modular (hs : s.HasScope scope) :
    (∀ n ns, s.ArithmeticLaws scope n ns) ∧
    ∀ a b : Int64, b ≠ 0 → ∃ q r, s.DivisionLaws scope a b q r :=
  ⟨arithmeticLaws hs, fun a _ hb => ⟨_, _, divisionLaws s scope a hb⟩⟩

/-- The sum wraps around in both orders, 1 cannot be divided by 5 and 0, and -2^63 divided by -1 is
itself. -/
theorem arithmetic_is_modular_least :
    let s := bare ⟨1, 65536, false⟩ .empty 0
    s.Answers (Eval.runPrimitive ⟨0⟩ .add [.num 1, .num 9223372036854775807])
      (.num (-9223372036854775808)) ∧
      s.Refuses (Eval.runPrimitive ⟨0⟩ .div [.num 1, .num 5, .num 0]) .arithmetic ∧
      ∃ q, q.toInt = -2 ^ 63 ∧
        s.Answers (Eval.runPrimitive ⟨0⟩ .div [.num (-9223372036854775808), .num (-1)])
          (.num q) := by
  intro s
  have hscope : s.HasScope ⟨0⟩ :=
    ⟨(bare_sound ⟨1, 65536, false⟩ .empty 0).intact, .inside none, rfl⟩
  obtain ⟨hlaws, hdivision⟩ := arithmetic_is_modular hscope
  refine ⟨?_, ?_, ?_⟩
  · exact (hlaws 9223372036854775807 [1]).add [1, 9223372036854775807] (.swap _ _ _)
  · exact (hlaws 1 [5, 0]).div_settles.refuses_iff.mpr (by decide)
  · obtain ⟨q, r, hq⟩ := hdivision (-9223372036854775808) (-1) (by decide)
    exact ⟨q, hq.quotient.trans (if_pos (by decide)), hq.div⟩

end Interp

end HeapLisp
