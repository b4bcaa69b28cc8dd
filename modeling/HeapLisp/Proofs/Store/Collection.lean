import HeapLisp.Proofs.Store.Marking
import Mathlib.Data.Set.Card

namespace HeapLisp.Store

variable {α : Type}

theorem foldl_garbageIn (mark : Bool) (b : Nat) (slots : List (Slot α)) (o : Nat)
    (found : List Addr) :
    (slots.foldl (fun (o, found) slot =>
        (o + 1, if isGarbage mark slot then .ofPosition b o :: found else found)) (o, found)).2 =
      (((slots.zipIdx o).filter fun q => isGarbage mark q.1).map
        fun q => Addr.ofPosition b q.2).reverse ++ found := by
  induction slots generalizing o found with
  | nil => rfl
  | cons slot slots ih =>
    rw [List.foldl_cons, List.zipIdx_cons, ih]
    cases h : isGarbage mark slot <;> simp [h]

theorem garbageIn_eq (mark : Bool) (b : Nat) (bin : Bin α) (found : List Addr) :
    garbageIn mark b bin found = (addrsIn (isGarbage mark) b bin).reverse ++ found := by
  rw [garbageIn, ← Array.foldl_toList, foldl_garbageIn]
  rfl

theorem foldl_garbage (mark : Bool) (bins : List (Bin α)) (b : Nat) (found : List Addr) :
    (bins.foldl (fun (b, found) bin => (b + 1, garbageIn mark b bin found)) (b, found)).2 =
      ((bins.zipIdx b).flatMap fun q => addrsIn (isGarbage mark) q.2 q.1).reverse ++ found := by
  induction bins generalizing b found with
  | nil => rfl
  | cons bin bins ih =>
    rw [List.foldl_cons, List.zipIdx_cons, ih, garbageIn_eq]
    simp

theorem garbage_eq (mark : Bool) (bins : Array (Bin α)) :
    garbage mark bins = (addrsWith (isGarbage mark) bins).reverse := by
  rw [garbage, ← Array.foldl_toList, foldl_garbage, List.append_nil]
  rfl

theorem mem_garbage {mark : Bool} {bins : Array (Bin α)} (hbins : Packed (binSizes bins))
    {a : Addr} :
    a ∈ garbage mark bins ↔ ∃ slot, slotAt? bins a = some slot ∧ isGarbage mark slot = true := by
  rw [garbage_eq, List.mem_reverse, mem_addrsWith hbins]

theorem nodup_garbage {mark : Bool} {bins : Array (Bin α)} (hbins : Packed (binSizes bins)) :
    (garbage mark bins).Nodup := by
  rw [garbage_eq, List.nodup_reverse]
  exact nodup_addrsWith hbins

/-- Marking makes no slot and drops none. -/
theorem binSizes_markFrom (children : α → List Addr) (mark : Bool) (steps : Nat)
    (pending : List Addr) (bins : Array (Bin α)) :
    binSizes (markFrom children mark steps pending bins) = binSizes bins := by
  induction steps generalizing pending bins with
  | zero => rfl
  | succ steps ih =>
    rw [markFrom]
    split
    · rfl
    · rw [ih, setMark, binSizes_modifySlot]

/-- The bins after marking. -/
def marked (children : α → List Addr) (roots : List Addr) (st : Store α) : Array (Bin α) :=
  markFrom children (!st.mark) st.capacity roots st.bins

theorem markSteps_marked (children : α → List Addr) (roots : List Addr) (st : Store α) :
    Relation.ReflTransGen (MarkStep children (!st.mark)) ⟨roots, st.bins⟩
      ⟨[], st.marked children roots⟩ :=
  markSteps_markFrom children _ _ roots st.bins (card_unsettled_le _ _)

theorem bins_collect (children : α → List Addr) (roots : List Addr) (st : Store α) :
    (st.collect children roots).1.bins = (st.marked children roots).map (sweepBin (!st.mark)) := rfl

theorem slotAt?_collect (children : α → List Addr) (roots : List Addr) (st : Store α) (a : Addr) :
    slotAt? (st.collect children roots).1.bins a =
      (slotAt? (st.marked children roots) a).map (sweepSlot (!st.mark)) := by
  rw [bins_collect, slotAt?_eq_bind, slotAt?_eq_bind, Array.getElem?_map]
  cases (st.marked children roots)[a.bin]? with
  | none => rfl
  | some bin => exact Array.getElem?_map

/-- A collection makes no slot and drops none. -/
theorem binSizes_collect (children : α → List Addr) (roots : List Addr) (st : Store α) :
    binSizes (st.collect children roots).1.bins = binSizes st.bins := by
  rw [← binSizes_markFrom children (!st.mark) st.capacity roots st.bins, bins_collect]
  simp [binSizes, sweepBin, marked]

theorem free_collect (children : α → List Addr) (roots : List Addr) (st : Store α) :
    (st.collect children roots).1.free = garbage (!st.mark) (st.marked children roots) ++ st.free :=
  rfl

theorem freed_collect (children : α → List Addr) (roots : List Addr) (st : Store α) :
    (st.collect children roots).2 = (garbage (!st.mark) (st.marked children roots)).length := rfl

theorem item_sweepSlot {mark : Bool} {slot : Slot α} {x : α} :
    (sweepSlot mark slot).item = some x ↔ slot.item = some x ∧ slot.mark = mark := by
  unfold sweepSlot isGarbage
  cases hi : slot.item <;> cases slot.mark <;> cases mark <;> simp [hi]

namespace WellFormed

variable {children : α → List Addr} {st : Store α} {roots : List Addr}

theorem markInvariant (h : st.WellFormed) (children : α → List Addr) (roots : List Addr) :
    MarkInvariant children st roots (!st.mark) ⟨[], st.marked children roots⟩ :=
  (MarkInvariant.start h).run (markSteps_marked children roots st)

theorem packed_marked (h : st.WellFormed) (children : α → List Addr) (roots : List Addr) :
    Packed (binSizes (st.marked children roots)) := by
  rw [marked, binSizes_markFrom]
  exact h.packed

/-- What a collection leaves at an address. -/
theorem get?_collect (h : st.WellFormed) {a : Addr} {x : α} :
    (st.collect children roots).1.get? a = some x ↔ st.get? a = some x ∧
    Reachable children st roots a := by
  have hinv := h.markInvariant children roots
  rw [get?_eq_bind, slotAt?_collect]
  constructor
  · intro hx
    obtain ⟨slot, hs, hi⟩ := Option.bind_eq_some_iff.mp hx
    obtain ⟨old, ho, rfl⟩ := Option.map_eq_some_iff.mp hs
    obtain ⟨hio, hmo⟩ := item_sweepSlot.mp hi
    have hget : st.get? a = some x := by
      rw [hinv.get?_eq a, ho]
      exact hio
    exact ⟨hget, (hinv.settled_iff hget).mp (by simp [settled, ho, hmo])⟩
  · rintro ⟨hget, hr⟩
    have hset := (hinv.settled_iff hget).mpr hr
    rw [hinv.get?_eq a] at hget
    obtain ⟨old, ho, hio⟩ := Option.bind_eq_some_iff.mp hget
    simp only [settled, ho, beq_iff_eq] at hset
    rw [ho]
    exact item_sweepSlot.mpr ⟨hio, hset⟩

/-- The garbage found is what is there and cannot be reached. -/
theorem mem_garbage_iff (h : st.WellFormed) {a : Addr} :
    a ∈ garbage (!st.mark) (st.marked children roots) ↔
      st.contains a = true ∧ (st.collect children roots).1.contains a = false := by
  have hinv := h.markInvariant children roots
  have hg : (st.collect children roots).1.contains a = false ↔
      ∀ x, (st.collect children roots).1.get? a ≠ some x := by
    rw [contains, Option.isSome_eq_false_iff, Option.isNone_iff_eq_none,
      Option.eq_none_iff_forall_ne_some]
  rw [mem_garbage (h.packed_marked children roots), contains_iff, hg]
  constructor
  · rintro ⟨slot, hs, hgar⟩
    obtain ⟨hi, hm⟩ := Bool.and_eq_true_iff.mp hgar
    obtain ⟨x, hx⟩ := Option.isSome_iff_exists.mp hi
    have hget : st.get? a = some x := by
      rw [hinv.get?_eq a, hs]
      exact hx
    refine ⟨⟨x, hget⟩, fun y hy => ?_⟩
    have hset := (hinv.settled_iff hget).mpr (h.get?_collect.mp hy).2
    simp only [settled, hs, beq_iff_eq] at hset
    simp [hset] at hm
  · rintro ⟨⟨x, hget⟩, hno⟩
    have hnr : ¬Reachable children st roots a := fun hr => hno x (h.get?_collect.mpr ⟨hget, hr⟩)
    rw [← hinv.settled_iff hget] at hnr
    rw [hinv.get?_eq a] at hget
    obtain ⟨slot, hs, hi⟩ := Option.bind_eq_some_iff.mp hget
    refine ⟨slot, hs, ?_⟩
    simp only [settled, hs, beq_iff_eq] at hnr
    simp only [isGarbage, hi, Option.isSome_some, Bool.true_and, bne_iff_ne]
    exact hnr

/-- A slot is empty after a collection if it was garbage or empty before. -/
theorem slot_empty_collect (h : st.WellFormed) (a : Addr) :
    (∃ slot, slotAt? (st.collect children roots).1.bins a = some slot ∧ slot.item = none) ↔
      a ∈ garbage (!st.mark) (st.marked children roots) ∨
        ∃ slot, slotAt? st.bins a = some slot ∧ slot.item = none := by
  have hinv := (h.markInvariant children roots).item_eq a
  rw [slotAt?_collect, mem_garbage (h.packed_marked children roots)]
  dsimp only at hinv
  cases hm : slotAt? (st.marked children roots) a with
  | none =>
    rw [hm] at hinv
    cases hs : slotAt? st.bins a with
    | none => simp
    | some old => simp [hs] at hinv
  | some slot =>
    rw [hm] at hinv
    cases hs : slotAt? st.bins a with
    | none => simp [hs] at hinv
    | some old =>
      simp only [hs, Option.map_some, Option.some.injEq] at hinv
      simp only [Option.map_some, Option.some.injEq, exists_eq_left', ← hinv, sweepSlot]
      cases hg : isGarbage (!st.mark) slot <;> simp

theorem collect (h : st.WellFormed) (children : α → List Addr) (roots : List Addr) :
    (st.collect children roots).1.WellFormed where
  packed := by rw [binSizes_collect]; exact h.packed
  free_nodup := by
    rw [free_collect, List.nodup_append]
    refine ⟨nodup_garbage (h.packed_marked children roots), h.free_nodup, ?_⟩
    rintro a ha b hb rfl
    obtain ⟨x, hx⟩ := contains_iff.mp (h.mem_garbage_iff.mp ha).1
    obtain ⟨slot, hs, hi⟩ := (h.mem_free_iff a).mp hb
    simp [get?_eq_bind, hs, hi] at hx
  mem_free_iff a := by
    rw [free_collect, List.mem_append, h.slot_empty_collect, h.mem_free_iff]
  mark_eq a slot hs hi := by
    rw [slotAt?_collect] at hs
    obtain ⟨old, _, rfl⟩ := Option.map_eq_some_iff.mp hs
    obtain ⟨x, hx⟩ := Option.isSome_iff_exists.mp hi
    have hm := (item_sweepSlot.mp hx).2
    unfold sweepSlot
    split_ifs <;> exact hm

/-- What can be reached stays reachable. -/
theorem reachable_collect (h : st.WellFormed) {a : Addr} (ha : Reachable children st roots a) :
    Reachable children (st.collect children roots).1 roots a := by
  induction ha with
  | root hr hx => exact .root hr (h.get?_collect.mpr ⟨hx, .root hr hx⟩)
  | child ha hx hc hy ih =>
    exact .child ih (h.get?_collect.mpr ⟨hx, ha⟩) hc (h.get?_collect.mpr ⟨hy, .child ha hx hc hy⟩)

/-- The number that a collection answers is the number of slots that it empties. -/
theorem freed_eq_ncard (h : st.WellFormed) :
    (st.collect children roots).2 =
      {a : Addr | st.contains a = true ∧
        (st.collect children roots).1.contains a = false}.ncard := by
  have hset : {a : Addr | st.contains a = true ∧ (st.collect children roots).1.contains a = false} =
      ((garbage (!st.mark) (st.marked children roots)).toFinset : Set Addr) := by
    ext a
    rw [Set.mem_ofPred_eq, ← h.mem_garbage_iff, Finset.mem_coe, List.mem_toFinset]
  rw [hset, Set.ncard_coe_finset, freed_collect,
    List.toFinset_card_of_nodup (nodup_garbage (h.packed_marked children roots))]

theorem freed_collect_again (h : st.WellFormed) :
    ((st.collect children roots).1.collect children roots).2 = 0 := by
  rw [(h.collect children roots).freed_eq_ncard]
  convert Set.ncard_empty Addr
  rw [Set.eq_empty_iff_forall_notMem]
  rintro a ⟨ha, hno⟩
  obtain ⟨x, hx⟩ := contains_iff.mp ha
  have hr := h.reachable_collect (h.get?_collect.mp hx).2
  rw [contains, (h.collect children roots).get?_collect.mpr ⟨hx, hr⟩] at hno
  cases hno

end WellFormed

/-- A store that came about by insertions, changes of items and collections. -/
inductive Built (children : α → List Addr) : Store α → Prop where
  | empty : Built children Store.empty
  | insert {st : Store α} (h : Built children st) (x : α) : Built children (st.insert x)
  | modify {st : Store α} (h : Built children st) {a : Addr} (ha : st.contains a = true)
    (f : α → α) :
    Built children (st.modify a f)
  | collect {st : Store α} (h : Built children st) (roots : List Addr) :
    Built children (st.collect children roots).1

theorem Built.wellFormed {children : α → List Addr} {st : Store α} (h : Built children st) :
    st.WellFormed := by
  induction h with
  | empty => exact .empty
  | insert _ x ih => exact ih.insert x
  | modify _ _ f ih => exact ih.modify _ f
  | collect _ roots ih => exact ih.collect _ roots

/-- Collection is exact: marking ends in every order, what is left is what can be reached, the
answer counts the slots that were emptied, and the same collection again empties none. -/
theorem collect_exact {children : α → List Addr} {st : Store α} (h : Built children st)
    (roots : List Addr) :
    Acc (fun n m => MarkStep children (!st.mark) m n) ⟨roots, st.bins⟩ ∧
    (∃ bins, Relation.ReflTransGen (MarkStep children (!st.mark)) ⟨roots, st.bins⟩ ⟨[], bins⟩ ∧
      (st.collect children roots).1.bins = bins.map (sweepBin (!st.mark))) ∧
    (∀ a x, (st.collect children roots).1.get? a = some x ↔
      st.get? a = some x ∧ Reachable children st roots a) ∧
    (st.collect children roots).2 =
      {a : Addr | st.contains a = true ∧ (st.collect children roots).1.contains a = false}.ncard ∧
    ((st.collect children roots).1.collect children roots).2 = 0 := by
  have hw := h.wellFormed
  refine ⟨(wellFounded_markStep children _).apply _, ?_, fun a x => hw.get?_collect,
    hw.freed_eq_ncard, hw.freed_collect_again⟩
  exact ⟨st.marked children roots, markSteps_marked children roots st,
    bins_collect children roots st⟩

/-- Two cycles and an item that refers into one of them, collected from that one: its address is
given twice, and a dead one with it. -/
theorem collect_exact_cycles :
    let st :=
      ((((Store.empty.insert []).insert [⟨0⟩]).modify ⟨0⟩ fun _ => [⟨1⟩]).insert [⟨2⟩]).insert [⟨0⟩]
    let roots : List Addr := [⟨1⟩, ⟨1⟩, ⟨9⟩]
    (∀ a x, (st.collect id roots).1.get? a = some x ↔ st.get? a = some x ∧
      Reachable id st roots a) ∧
    (st.collect id roots).2 = 2 ∧ ((st.collect id roots).1.collect id roots).2 = 0 := by
  intro st roots
  have hb : Built id st :=
    .insert (.insert (.modify (.insert (.insert .empty _) _) (by decide) _) _) _
  obtain ⟨_, _, hget, _, hagain⟩ := collect_exact hb roots
  exact ⟨hget, by decide, hagain⟩

end HeapLisp.Store
