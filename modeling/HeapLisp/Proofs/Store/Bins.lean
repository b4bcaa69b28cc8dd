import HeapLisp.Proofs.Store.Collection
import Mathlib.Data.Finset.Range

namespace HeapLisp.Store

variable {α : Type} {children : α → List Addr} {st : Store α}

theorem length_addrsWith (p : Slot α → Bool) (bins : Array (Bin α)) :
    (addrsWith p bins).length = (bins.toList.map fun bin => bin.slots.countP p).sum := by
  have hfst : bins.toList = bins.toList.zipIdx.map Prod.fst := (List.zipIdx_map_fst _ _).symm
  rw [addrsWith, List.length_flatMap]
  conv_rhs => rw [hfst, List.map_map]
  congr 1
  apply List.map_congr_left
  intro q _
  exact length_addrsIn p q.2 q.1

/-- The slots of all bins, one bin after another. -/
def slots (st : Store α) : List (Slot α) := st.bins.toList.flatMap (·.slots.toList)

theorem length_slots (st : Store α) : st.slots.length = (binSizes st.bins).sum := by
  rw [slots, List.length_flatMap]
  rfl

/-- An index into packed bins splits into a bin and a place in it. -/
theorem getElem?_flatMap {bins : List (Bin α)} {b o : Nat} (ho : o < binSize)
    (h : Packed (bins.map (·.slots.size))) :
    (bins.flatMap (·.slots.toList))[b * binSize + o]? = bins[b]?.bind (·.slots[o]?) := by
  induction bins generalizing b with
  | nil => simp
  | cons bin bins ih =>
    obtain hnil | ⟨k, n, heq, hpos, hn⟩ := h
    · simp at hnil
    cases k with
    | zero =>
      -- The last bin: whatever lies beyond its slots is not there.
      obtain ⟨hsize, htail⟩ := List.cons.inj heq
      obtain rfl := List.map_eq_nil_iff.mp htail
      cases b with
      | zero => simp
      | succ b =>
        have hbeyond : bin.slots.size ≤ (b + 1) * binSize + o := by
          dsimp only at hsize
          rw [Addr.binSize_eq] at *
          omega
        simp [hbeyond]
    | succ k =>
      rw [List.replicate_succ, List.cons_append, List.map_cons] at heq
      obtain ⟨hsize, htail⟩ := List.cons.inj heq
      rw [List.flatMap_cons]
      cases b with
      | zero =>
        rw [List.getElem?_append_left (by simp [hsize, ho])]
        simp
      | succ b =>
        have hindex : (b + 1) * binSize + o - bin.slots.toList.length = b * binSize + o := by
          rw [Array.length_toList, hsize, Addr.binSize_eq]
          omega
        rw [List.getElem?_append_right (by
          rw [Array.length_toList, hsize, Addr.binSize_eq]
          omega), hindex, ih (.inr ⟨k, n, htail, hpos, hn⟩), List.getElem?_cons_succ]

/-- Slots are numbered one after another: what an address names is the slot of its number. -/
theorem slotAt?_eq_getElem? (h : Packed (binSizes st.bins)) (a : Addr) :
    slotAt? st.bins a = st.slots[a.index]? := by
  rw [slots, a.index_eq, getElem?_flatMap a.offset_lt h, slotAt?_eq_bind, Array.getElem?_toList]

theorem index_lt_iff (h : Packed (binSizes st.bins)) {a : Addr} :
    a.index < st.slots.length ↔ (slotAt? st.bins a).isSome := by
  rw [slotAt?_eq_getElem? h]
  simp

theorem index_lt_of_contains (h : Packed (binSizes st.bins)) {a : Addr}
    (ha : st.contains a = true) : a.index < st.slots.length := by
  rw [index_lt_iff h]
  rw [contains, get?_eq_bind] at ha
  cases hs : slotAt? st.bins a with
  | none => simp [hs] at ha
  | some slot => rfl

/-- All bins but the last are counted as full, and the last if it is. -/
theorem fullBins_cases (h : Packed (binSizes st.bins)) :
    st.stats.fullBins = st.stats.totalBins ∨ st.stats.fullBins + 1 = st.stats.totalBins := by
  have hfull : st.stats.fullBins = (binSizes st.bins).countP (binSize ≤ ·) := by
    have hspace : (fun bin : Bin α => !bin.hasSpace) =
        (fun n => decide (binSize ≤ n)) ∘ fun bin => bin.slots.size := by
      funext bin
      simp only [Bin.hasSpace, Function.comp_apply, ← decide_not, Nat.not_lt]
    rw [binSizes, List.countP_map, ← hspace, Array.countP_toList]
    rfl
  have htotal : st.stats.totalBins = (binSizes st.bins).length := by simp [stats, binSizes]
  rw [hfull, htotal]
  obtain hnil | ⟨k, n, heq, -⟩ := h
  · simp [hnil]
  · rw [heq, List.countP_append, List.countP_replicate]
    by_cases hn : binSize ≤ n <;> simp [hn]

theorem size_bin {b : Nat} {bin : Bin α} (h : Packed (binSizes st.bins))
    (hbin : st.bins[b]? = some bin) :
    (b + 1 < st.bins.size → bin.slots.size = binSize) ∧
      1 ≤ bin.slots.size ∧ bin.slots.size ≤ binSize := by
  have hget : (binSizes st.bins)[b]? = some bin.slots.size := by simp [binSizes, hbin]
  have hlen : (binSizes st.bins).length = st.bins.size := by simp [binSizes]
  obtain hnil | ⟨k, n, heq, hpos, hn⟩ := h
  · simp [hnil] at hget
  · rw [heq] at hget hlen
    rw [List.length_append, List.length_replicate, List.length_singleton] at hlen
    rw [List.getElem?_append, List.length_replicate] at hget
    split_ifs at hget with hb
    · rw [List.getElem?_replicate_of_lt hb, Option.some.injEq] at hget
      rw [← hget]
      exact ⟨fun _ => rfl, by decide, Nat.le_refl _⟩
    · have hlast : b - k = 0 := by
        have hlt := (List.getElem?_eq_some_iff.mp hget).1
        rw [List.length_singleton] at hlt
        omega
      rw [hlast, List.getElem?_cons_zero, Option.some.injEq] at hget
      rw [← hget]
      exact ⟨fun hlt => by omega, hpos, hn⟩

theorem pending_insert (st : Store α) (x : α) : (st.insert x).pending = st.pending + 1 := by
  unfold insert
  dsimp only
  split <;> rfl

theorem length_slots_of_makeSpace {init : Array (Bin α)} {last : Bin α}
    (hspace : makeSpace st.bins = init.push last) :
    st.slots.length = (binSizes init).sum + last.slots.size := by
  have hsum : (binSizes st.bins).sum = (binSizes (makeSpace st.bins)).sum := by
    unfold makeSpace
    split_ifs <;> simp [Bin.empty]
  rw [length_slots, hsum, hspace]
  simp

theorem length_slots_insert (h : st.WellFormed) (x : α) :
    (st.insert x).slots.length =
      if st.free = [] then st.slots.length + 1 else st.slots.length := by
  obtain ⟨a, free, slot, hf, -⟩ | ⟨init, last, hf, hspace, -⟩ := h.next_cases
  · rw [length_slots, length_slots]
    simp [insert, hf]
  · rw [length_slots_of_makeSpace hspace, length_slots, WellFormed.bins_insert_new hf hspace,
      if_pos hf]
    simp [Bin.insert, Nat.add_assoc]

namespace WellFormed

theorem mem_free_iff_empty (h : st.WellFormed) {a : Addr} :
    a ∈ st.free ↔ (slotAt? st.bins a).isSome ∧ st.contains a = false := by
  rw [h.mem_free_iff, contains, get?_eq_bind]
  cases slotAt? st.bins a <;> simp

theorem count_free (h : st.WellFormed) (a : Addr) :
    st.free.count a =
      if (slotAt? st.bins a).isSome ∧ st.contains a = false then 1 else 0 := by
  by_cases ha : a ∈ st.free
  · rw [if_pos (h.mem_free_iff_empty.mp ha)]
    exact List.count_eq_one_of_mem h.free_nodup ha
  · rw [if_neg (mt h.mem_free_iff_empty.mpr ha)]
    exact List.count_eq_zero_of_not_mem ha

theorem values_add_free (h : st.WellFormed) :
    st.stats.totalValues + st.stats.freeSlots = st.slots.length := by
  have hfree : st.free.Perm (addrsWith (·.item.isNone) st.bins) := by
    apply (List.perm_ext_iff_of_nodup h.free_nodup (nodup_addrsWith h.packed)).mpr
    intro a
    rw [h.mem_free_iff, mem_addrsWith h.packed]
    simp
  have hbin (bin : Bin α) :
      bin.slots.countP (·.item.isSome) + bin.slots.countP (·.item.isNone) = bin.slots.size := by
    rw [Array.size_eq_countP_add_countP (p := (·.item.isSome))]
    congr 2
    funext slot
    cases slot.item <;> rfl
  have hvalues : st.stats.totalValues =
      (st.bins.toList.map fun bin => bin.slots.countP (·.item.isSome)).sum := by
    rw [stats, ← Array.foldl_toList, List.sum_eq_foldl, List.foldl_map]
  show st.stats.totalValues + st.free.length = st.slots.length
  rw [hfree.length_eq, length_addrsWith, hvalues, length_slots, binSizes, ← List.sum_map_add]
  simp only [hbin]

/-- The next address has an empty slot, or is the number of the slots. -/
theorem index_next (h : st.WellFormed) :
    st.free = [] ∧ st.next.index = st.slots.length ∨
      st.free ≠ [] ∧ st.next.index < st.slots.length := by
  obtain ⟨a, free, slot, hf, hnext, hslot, -⟩ |
    ⟨init, last, hf, hspace, hlt, hnext, -, hpacked⟩ := h.next_cases
  · refine .inr ⟨by simp [hf], ?_⟩
    rw [index_lt_iff h.packed, hnext, hslot]
    rfl
  · refine .inl ⟨hf, ?_⟩
    -- All bins before the last one are full.
    obtain hnil | ⟨k, n, heq, -⟩ := hpacked
    · simp at hnil
    have hinit := (List.append_inj' heq rfl).1
    have hk : init.size = k := by simpa [binSizes] using congrArg List.length hinit
    rw [hnext, Addr.index_ofPosition hlt, length_slots_of_makeSpace hspace, hinit,
      List.sum_replicate_nat, hk]

end WellFormed

/-- A store with its past: `given` are the addresses that insertions took, the last one first, and
`since` is the number of insertions after the last collection. -/
inductive Kept (children : α → List Addr) :
    (given : List Addr) → (since : Nat) → Store α → Prop where
  | empty : Kept children [] 0 Store.empty
  | insert {st : Store α} {given : List Addr} {since : Nat} (h : Kept children given since st)
    (x : α) : Kept children (st.next :: given) (since + 1) (st.insert x)
  | modify {st : Store α} {given : List Addr} {since : Nat} (h : Kept children given since st)
    {a : Addr} (ha : st.contains a = true) (f : α → α) : Kept children given since (st.modify a f)
  | collect {st : Store α} {given : List Addr} {since : Nat} (h : Kept children given since st)
    (roots : List Addr) : Kept children given 0 (st.collect children roots).1

namespace Kept

variable {given : List Addr} {since : Nat}

theorem built (h : Kept children given since st) : Built children st := by
  induction h with
  | empty => exact .empty
  | insert _ x ih => exact ih.insert x
  | modify _ ha f ih => exact ih.modify ha f
  | collect _ roots ih => exact ih.collect roots

theorem pending_eq (h : Kept children given since st) : st.pending = since := by
  induction h with
  | empty => rfl
  | insert _ x ih => rw [pending_insert, ih]
  | modify _ _ _ ih => exact ih
  | collect => rfl

/-- A slot exists if an insertion took its address. -/
theorem mem_given_iff (h : Kept children given since st) {a : Addr} :
    a ∈ given ↔ a.index < st.slots.length := by
  induction h with
  | empty => simp [Store.empty, slots]
  | insert h x ih =>
    rw [List.mem_cons, ih, Addr.eq_iff, length_slots_insert h.built.wellFormed]
    cases h.built.wellFormed.index_next with
    | inl hnew =>
      rw [if_pos hnew.1, hnew.2]
      omega
    | inr hfreed =>
      rw [if_neg hfreed.1]
      omega
  | modify _ _ _ ih => rw [ih, length_slots, length_slots, Store.modify, binSizes_modifySlot]
  | collect _ roots ih => rw [ih, length_slots, length_slots, binSizes_collect]

/-- There are as many slots as addresses that insertions took. -/
theorem card_given (h : Kept children given since st) :
    given.toFinset.card = st.slots.length := by
  have hset : given.toFinset =
      (Finset.range st.slots.length).map ⟨Addr.mk, fun _ _ h => Addr.mk.inj h⟩ := by
    ext a
    rw [List.mem_toFinset, h.mem_given_iff, Finset.mem_map]
    constructor
    · intro ha
      exact ⟨a.index, Finset.mem_range.mpr ha, rfl⟩
    · intro ha
      obtain ⟨i, hi, rfl⟩ := ha
      exact Finset.mem_range.mp hi
  rw [hset, Finset.card_map, Finset.card_range]

end Kept

/-- No slot is given twice, and the counts are exact. The free list has each empty slot once and no
occupied one. An insertion stores its item where none was and changes no other slot. Every bin but
the last is full, and an address, which has 32 bits, tells its position. The counts are those of the
slots made, of the bins, and of the insertions since the last collection. -/
theorem slots_and_counts_exact {given : List Addr} {since : Nat}
    (h : Kept children given since st) (hsize : st.slots.length < 2 ^ 32) :
    (∀ a, st.free.count a =
      if (slotAt? st.bins a).isSome ∧ st.contains a = false then 1 else 0) ∧
    (∀ x, st.contains st.next = false ∧ st.next.index < 2 ^ 32 ∧
      (st.insert x).get? st.next = some x ∧
      ∀ a, a ≠ st.next → slotAt? (st.insert x).bins a = slotAt? st.bins a) ∧
    (∀ b bin, st.bins[b]? = some bin →
      (b + 1 < st.bins.size → bin.slots.size = binSize) ∧
      1 ≤ bin.slots.size ∧ bin.slots.size ≤ binSize) ∧
    (∀ b bin o slot, st.bins[b]? = some bin → bin.slots[o]? = some slot →
      (Addr.ofPosition b o).bin = b ∧ (Addr.ofPosition b o).offset = o ∧
      (Addr.ofPosition b o).index < 2 ^ 32 ∧
      st.slots[(Addr.ofPosition b o).index]? = some slot) ∧
    st.stats.totalValues + st.stats.freeSlots = given.toFinset.card ∧
    st.stats.totalBins = st.bins.size ∧
    st.stats.capacity = binSize * st.stats.totalBins ∧
    (st.stats.fullBins = st.stats.totalBins ∨ st.stats.fullBins + 1 = st.stats.totalBins) ∧
    st.pending = since := by
  have hw := h.built.wellFormed
  have hnext : st.next.index < 2 ^ 32 := by
    have hcases := hw.index_next
    omega
  refine ⟨hw.count_free, fun x => ⟨?_, hnext, ?_, fun a ha => ?_⟩, fun b bin => size_bin hw.packed,
    fun b bin o slot hbin hslot => ?_, ?_, rfl, Nat.mul_comm _ _, fullBins_cases hw.packed,
    h.pending_eq⟩
  · rw [contains, hw.get?_next]
    rfl
  · exact hw.get?_insert_next x
  · rw [hw.slotAt?_insert, if_neg ha]
  · have ho : o < binSize :=
      Nat.lt_of_lt_of_le (Array.getElem?_eq_some_iff.mp hslot).1 (size_bin hw.packed hbin).2.2
    have hat : slotAt? st.bins (.ofPosition b o) = some slot := by
      rw [slotAt?_ofPosition ho, hbin, Option.bind_some, hslot]
    have hlt := (index_lt_iff hw.packed (a := .ofPosition b o)).mpr (by rw [hat]; rfl)
    rw [slotAt?_eq_getElem? hw.packed] at hat
    exact ⟨Addr.bin_ofPosition ho, Addr.offset_ofPosition ho, by omega, hat⟩
  · rw [hw.values_add_free, h.card_given]

/-- Three items are stored, the middle one is kept by a collection, and another takes the slot of
the last. -/
theorem slots_and_counts_exact_reused :
    let st := ((((Store.empty.insert []).insert []).insert [⟨0⟩]).collect id [⟨1⟩]).1.insert [⟨1⟩]
    st.free = [⟨0⟩] ∧ st.next = ⟨0⟩ ∧ st.contains st.next = false ∧ st.get? ⟨2⟩ = some [⟨1⟩] ∧
    binSizes st.bins = [3] ∧ st.stats = ⟨1, 0, 2, 1, 256⟩ ∧ st.pending = 1 := by
  intro st
  have hempty : Kept id [] 0 (Store.empty : Store (List Addr)) := .empty
  have hkept := ((((hempty.insert []).insert []).insert [⟨0⟩]).collect [⟨1⟩]).insert [⟨1⟩]
  obtain ⟨_, hinsert, _, _, _, _, _, _, hpending⟩ :=
    slots_and_counts_exact hkept (by decide +kernel)
  exact ⟨by decide +kernel, by decide +kernel, (hinsert []).1, by decide +kernel,
    by decide +kernel, by decide +kernel, hpending⟩

end HeapLisp.Store
