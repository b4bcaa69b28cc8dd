import HeapLisp.Sequence
import Mathlib.Data.List.Basic

namespace HeapLisp.Sequence

variable {α : Type} {old now : Array α} {start : Nat} {results : List (α × Int64)}
  {below above : List α} {item : α} {n : Int64}

theorem swap_self (xs : Array α) (i : Nat) : swap xs i i = xs := by
  unfold swap Array.swapIfInBounds
  split_ifs with h
  · simp [Array.swap]
  · rfl

/-- Exchanging two elements. -/
theorem toList_swap {xs : Array α} {first middle last : List α} {x y : α}
    (h : xs.toList = first ++ x :: (middle ++ y :: last)) :
    (swap xs first.length (first.length + (middle.length + 1))).toList = first ++ y ::
      (middle ++ x :: last) := by
  obtain rfl : xs = ⟨first ++ x :: (middle ++ y :: last)⟩ := Array.toList_inj.mp h
  simp [swap, Array.swapIfInBounds, Array.swap]

/-- The items that were compared as less than the pivot. -/
def less (results : List (α × Int64)) : List α := (results.filter (·.2 < 0)).map Prod.fst

/-- The other items that were compared. -/
def notLess (results : List (α × Int64)) : List α := (results.filter (0 ≤ ·.2)).map Prod.fst

/-- The state of a division at the pivot at `start`. After it stand the items that were compared,
those that are less first, and then the rest in its places. -/
structure Divides (old : Array α) (start : Nat) (results : List (α × Int64)) (below above : List α)
    (now : Array α) : Prop where
  items_eq : now.toList = old.toList.take (start + 1) ++
    (below ++ (above ++ old.toList.drop (start + 1 + results.length)))
  compared : results.map Prod.fst = (old.toList.drop (start + 1)).take results.length
  below_perm : below.Perm (less results)
  above_perm : above.Perm (notLess results)

/-- `new` has the elements of `old`, those outside the bounds in their places. -/
def Rearranged (start finish : Nat) (old new : Array α) : Prop :=
  new.toList.Perm old.toList ∧ ∀ i, i < start ∨ finish ≤ i → new[i]? = old[i]?

/-- The elements between the bounds are partitioned at `p`: there stands the first of them, before
it those that were compared as less, and after it the others. -/
structure Partitioned (start finish : Nat) (old : Array α) (results : List (α × Int64)) (p : Nat)
    (new : Array α) : Prop where
  rearranged : Rearranged start finish old new
  start_le : start ≤ p
  lt_finish : p < finish
  pivot : new[p]? = old[start]?
  less_perm : (new.extract start p).toList.Perm (less results)
  notLess_perm : (new.extract (p + 1) finish).toList.Perm (notLess results)

theorem Rearranged.of_parts {old new : Array α} {first middle middle' last : List α}
    (hold : old.toList = first ++ (middle ++ last)) (hnew : new.toList = first ++ (middle' ++ last))
    (hperm : middle'.Perm middle) :
    Rearranged first.length (first.length + middle.length) old new := by
  constructor
  · rw [hold, hnew]
    exact (hperm.append_right last).append_left first
  · intro i hi
    have hlength := hperm.length_eq
    rw [← Array.getElem?_toList, ← Array.getElem?_toList, hold, hnew]
    by_cases hlt : i < first.length
    · rw [List.getElem?_append_left hlt, List.getElem?_append_left hlt]
    · rw [List.getElem?_append_right (by omega), List.getElem?_append_right (by omega),
        List.getElem?_append_right (by omega), List.getElem?_append_right (by omega), hlength]

theorem Rearranged.widen {old new : Array α} {start start' finish finish' : Nat}
    (h : Rearranged start finish old new) (hstart : start' ≤ start) (hfinish : finish ≤ finish') :
    Rearranged start' finish' old new :=
  ⟨h.1, fun i hi => h.2 i (by omega)⟩

theorem less_append (results : List (α × Int64)) (item : α) (n : Int64) :
    less (results ++ [(item, n)]) = less results ++ if n < 0 then [item] else [] := by
  by_cases h : n < 0 <;> simp [less, h]

theorem notLess_append (results : List (α × Int64)) (item : α) (n : Int64) :
    notLess (results ++ [(item, n)]) = notLess results ++ if n < 0 then [] else [item] := by
  by_cases h : n < 0
  · simp [notLess, h]
  · simp [notLess, h, Int64.not_lt.mp h]

theorem less_append_notLess_perm (results : List (α × Int64)) :
    (less results ++ notLess results).Perm (results.map Prod.fst) := by
  rw [less, notLess, ← List.map_append]
  apply List.Perm.map
  have hperm := List.filter_append_perm (fun p : α × Int64 => decide (p.2 < 0)) results
  simpa [← decide_not, Int64.not_lt] using hperm

namespace Divides

theorem zero (old : Array α) (start : Nat) : Divides old start [] [] [] old where
  items_eq := by simp
  compared := rfl
  below_perm := .refl _
  above_perm := .refl _

theorem length_eq (h : Divides old start results below above now) :
    below.length + above.length = results.length := by
  have hperm :=
    ((h.below_perm.append h.above_perm).trans (less_append_notLess_perm results)).length_eq
  rwa [List.length_append, List.length_map] at hperm

/-- The next item is still in its place. -/
theorem items_next (h : Divides old start results below above now)
    (hitem : old[start + 1 + results.length]? = some item) :
    now.toList = (old.toList.take (start + 1) ++ (below ++ above)) ++
      item :: old.toList.drop (start + 1 + (results.length + 1)) := by
  have hdrop : old.toList.drop (start + 1 + results.length) = item :: old.toList.drop
      (start + 1 + (results.length + 1)) := by
    have hlist : old.toList[start + 1 + results.length]? = some item := by simpa using hitem
    obtain ⟨hlt, hget⟩ := List.getElem?_eq_some_iff.mp hlist
    rw [List.drop_eq_getElem_cons hlt, hget]
    rfl
  rw [h.items_eq, hdrop]
  simp

theorem length_take (hitem : old[start + 1 + results.length]? = some item) :
    (old.toList.take (start + 1)).length = start + 1 := by
  have hlt := (Array.getElem?_eq_some_iff.mp hitem).1
  rw [List.length_take, Array.length_toList]
  omega

theorem getElem?_next (h : Divides old start results below above now)
    (hitem : old[start + 1 + results.length]? = some item) :
    now[start + 1 + results.length]? = some item := by
  have hlength : (old.toList.take (start + 1) ++ (below ++ above)).length = start + 1 +
      results.length := by
    rw [List.length_append, List.length_append, h.length_eq, length_take hitem]
  rw [← Array.getElem?_toList, h.items_next hitem, ← hlength]
  simp

theorem compared_next (h : Divides old start results below above now)
    (hitem : old[start + 1 + results.length]? = some item) (n : Int64) :
    (results ++ [(item, n)]).map Prod.fst =
      (old.toList.drop (start + 1)).take (results ++ [(item, n)]).length := by
  have hlist : (old.toList.drop (start + 1))[results.length]? = some item := by simpa using hitem
  rw [List.map_append, h.compared, List.length_append, List.length_singleton,
    List.take_add_one, hlist]
  rfl

/-- An item that is not less than the pivot stays. -/
theorem later (h : Divides old start results below above now)
    (hitem : old[start + 1 + results.length]? = some item) (hn : ¬n < 0) :
    Divides old start (results ++ [(item, n)]) below (above ++ [item]) now where
  items_eq := by
    rw [h.items_next hitem]
    simp
  compared := h.compared_next hitem n
  below_perm := by
    rw [less_append, if_neg hn, List.append_nil]
    exact h.below_perm
  above_perm := by
    rw [notLess_append, if_neg hn]
    exact h.above_perm.append_right _

/-- An item that is less changes places with the first one that is not. -/
theorem earlier (h : Divides old start results below above now)
    (hitem : old[start + 1 + results.length]? = some item) (hn : n < 0) :
    ∃ above', Divides old start (results ++ [(item, n)]) (below ++ [item]) above'
      (swap now (start + below.length + 1) (start + 1 + results.length)) := by
  have hnow := h.items_next hitem
  have hlength := length_take hitem
  have hcount := h.length_eq
  have hbelow : (below ++ [item]).Perm (less (results ++ [(item, n)])) := by
    rw [less_append, if_pos hn]
    exact h.below_perm.append_right _
  have habove {above' : List α} (hperm : above'.Perm above) :
      above'.Perm (notLess (results ++ [(item, n)])) := by
    rw [notLess_append, if_pos hn, List.append_nil]
    exact hperm.trans h.above_perm
  cases above with
  | nil =>
    rw [List.length_nil, Nat.add_zero] at hcount
    have hsame : start + below.length + 1 = start + 1 + results.length := by omega
    refine ⟨[], ?_, h.compared_next hitem n, hbelow, habove (.refl _)⟩
    rw [hsame, swap_self, hnow]
    simp
  | cons x above =>
    refine ⟨above ++ [x], ?_, h.compared_next hitem n, hbelow,
      habove (List.perm_append_singleton x above)⟩
    have hsplit : now.toList = (old.toList.take (start + 1) ++ below) ++ x :: (above ++ item ::
        old.toList.drop (start + 1 + (results.length + 1))) := by
      rw [hnow]
      simp
    rw [List.length_cons] at hcount
    have hfirst : start + below.length + 1 = (old.toList.take (start + 1) ++ below).length := by
      rw [List.length_append, hlength]
      omega
    have hsecond : start + 1 + results.length = (old.toList.take (start + 1) ++ below).length +
        (above.length + 1) := by
      rw [List.length_append, hlength]
      omega
    rw [hfirst, hsecond, toList_swap hsplit]
    simp

theorem length_segment (hlen : start + 1 + results.length ≤ old.size) :
    ((old.toList.drop (start + 1)).take results.length).length = results.length := by
  have hsize : old.toList.length = old.size := Array.length_toList
  rw [List.length_take, List.length_drop]
  omega

theorem perm_segment (h : Divides old start results below above now) :
    (below ++ above).Perm ((old.toList.drop (start + 1)).take results.length) := by
  have hperm := (h.below_perm.append h.above_perm).trans (less_append_notLess_perm results)
  rwa [h.compared] at hperm

theorem drop_eq (old : Array α) (start : Nat) (results : List (α × Int64)) :
    old.toList.drop (start + 1) =
      (old.toList.drop (start + 1)).take results.length ++ old.toList.drop
        (start + 1 + results.length) := by
  have hsplit := List.take_append_drop results.length (old.toList.drop (start + 1))
  rw [List.drop_drop] at hsplit
  exact hsplit.symm

/-- Whenever a division stops, the elements after the pivot are rearranged. -/
theorem rearranged (h : Divides old start results below above now)
    (hlen : start + 1 + results.length ≤ old.size) :
    Rearranged (start + 1) (start + 1 + results.length) old now := by
  have hfirst : (old.toList.take (start + 1)).length = start + 1 := by
    rw [List.length_take, Array.length_toList]
    omega
  have hold : old.toList = old.toList.take (start + 1) ++
      ((old.toList.drop (start + 1)).take results.length ++ old.toList.drop
          (start + 1 + results.length)) := by
    rw [← drop_eq, List.take_append_drop]
  have hnow : now.toList = old.toList.take (start + 1) ++
      ((below ++ above) ++ old.toList.drop (start + 1 + results.length)) := by
    rw [h.items_eq, List.append_assoc]
  have hall := Rearranged.of_parts hold hnow h.perm_segment
  rwa [hfirst, length_segment hlen] at hall

theorem length_take_start (hlen : start + 1 + results.length ≤ old.size) :
    (old.toList.take start).length = start := by
  rw [List.length_take, Array.length_toList]
  omega

theorem take_pivot {pivot : α} (hpivot : old[start]? = some pivot) :
    old.toList.take (start + 1) = old.toList.take start ++ [pivot] := by
  rw [List.take_add_one, Array.getElem?_toList, hpivot]
  rfl

/-- At the end the pivot changes places with the last item that is less. -/
theorem exists_swapped (h : Divides old start results below above now) {pivot : α}
    (hpivot : old[start]? = some pivot) (hlen : start + 1 + results.length ≤ old.size) :
    ∃ below', below'.Perm below ∧ (swap now start (start + below.length)).toList =
      old.toList.take start ++
        ((below' ++ pivot :: above) ++ old.toList.drop (start + 1 + results.length)) := by
  have hnow := h.items_eq
  rw [take_pivot hpivot] at hnow
  rcases List.eq_nil_or_concat below with rfl | ⟨init, x, rfl⟩
  · refine ⟨[], .refl _, ?_⟩
    rw [List.length_nil, Nat.add_zero, swap_self, hnow]
    simp
  · refine ⟨x :: init, by simpa using (List.perm_append_singleton x init).symm, ?_⟩
    have hsplit : now.toList = old.toList.take start ++ pivot :: (init ++ x ::
        (above ++ old.toList.drop (start + 1 + results.length))) := by
      rw [hnow]
      simp
    have hswap := toList_swap hsplit
    rw [length_take_start hlen] at hswap
    rw [List.length_concat, hswap]
    simp

theorem partitioned (h : Divides old start results below above now) {pivot : α}
    (hpivot : old[start]? = some pivot) (hlen : start + 1 + results.length ≤ old.size) :
    Partitioned start (start + 1 + results.length) old results (start + below.length)
      (swap now start (start + below.length)) := by
  have hfirst := length_take_start hlen
  have htake := take_pivot hpivot
  obtain ⟨below', hbelow', hnew⟩ := h.exists_swapped hpivot hlen
  have hcount := h.length_eq
  have hold : old.toList = old.toList.take start ++
      ((pivot :: (old.toList.drop (start + 1)).take results.length) ++ old.toList.drop
          (start + 1 + results.length)) := by
    rw [List.cons_append, ← drop_eq, ← List.singleton_append, ← List.append_assoc, ← htake,
      List.take_append_drop]
  have hperm :
      (below' ++ pivot :: above).Perm
          (pivot :: (old.toList.drop (start + 1)).take results.length) :=
    List.perm_middle.trans (((hbelow'.append_right above).trans h.perm_segment).cons pivot)
  have hlength := hbelow'.length_eq
  have hall := Rearranged.of_parts hold hnew hperm
  rw [hfirst, List.length_cons, length_segment hlen] at hall
  refine ⟨by rwa [Nat.add_comm results.length 1,
    ← Nat.add_assoc] at hall, by omega, by omega, ?_, ?_, ?_⟩
  · rw [← Array.getElem?_toList, hnew, hpivot, ← hlength, ← hfirst]
    simp
  · rw [Array.toList_extract, List.extract_eq_take_drop, hnew, ← hlength, List.drop_left' hfirst,
      Nat.add_sub_cancel_left, List.append_assoc, List.take_left' rfl]
    exact hbelow'.trans h.below_perm
  · have hbefore : (old.toList.take start ++ (below' ++ [pivot])).length = start +
        below.length + 1 := by
      rw [List.length_append, List.length_append, List.length_singleton]
      omega
    have hsplit :
      old.toList.take start ++
        ((below' ++ pivot :: above) ++ old.toList.drop (start + 1 + results.length)) =
        (old.toList.take start ++ (below' ++ [pivot])) ++
            (above ++ old.toList.drop (start + 1 + results.length)) := by
      simp
    have hafter : start + 1 + results.length - (start + below.length + 1) = above.length := by omega
    rw [Array.toList_extract, List.extract_eq_take_drop, hnew, hsplit, List.drop_left' hbefore,
      hafter, List.take_left' rfl]
    exact h.above_perm

end Divides

end HeapLisp.Sequence
