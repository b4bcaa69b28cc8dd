import HeapLisp.Store.Basic
import Mathlib.Data.List.Nodup

namespace HeapLisp

namespace Addr

theorem binSize_eq : binSize = 256 := rfl

theorem index_ofPosition {bin offset : Nat} (ho : offset < binSize) :
    (ofPosition bin offset).index = bin * binSize + offset := by
  have hlow : offset < 2 ^ binBits := ho
  rw [ofPosition, ← Nat.shiftLeft_add_eq_or_of_lt hlow, Nat.shiftLeft_eq]
  rfl

theorem bin_eq (a : Addr) : a.bin = a.index / binSize := Nat.shiftRight_eq_div_pow _ _

theorem offset_eq (a : Addr) : a.offset = a.index % binSize := Nat.and_two_pow_sub_one_eq_mod _ 8

theorem offset_lt (a : Addr) : a.offset < binSize := by
  rw [offset_eq]
  exact Nat.mod_lt _ (by decide)

theorem index_eq (a : Addr) : a.index = a.bin * binSize + a.offset := by
  rw [bin_eq, offset_eq, Nat.div_add_mod']

theorem eq_iff {a b : Addr} : a = b ↔ a.index = b.index := by
  cases a
  cases b
  simp

/-- Different addresses have different positions. -/
theorem eq_iff_position {a b : Addr} : a = b ↔ a.bin = b.bin ∧ a.offset = b.offset := by
  constructor
  · rintro rfl
    exact ⟨rfl, rfl⟩
  · rintro ⟨hb, ho⟩
    rw [eq_iff, index_eq, index_eq, hb, ho]

theorem bin_ofPosition {bin offset : Nat} (ho : offset < binSize) :
    (ofPosition bin offset).bin = bin := by
  rw [bin_eq, index_ofPosition ho, binSize_eq] at *
  omega

theorem offset_ofPosition {bin offset : Nat} (ho : offset < binSize) :
    (ofPosition bin offset).offset = offset := by
  rw [offset_eq, index_ofPosition ho, binSize_eq] at *
  omega

theorem ofPosition_bin_offset (a : Addr) : ofPosition a.bin a.offset = a := by
  rw [eq_iff_position, bin_ofPosition a.offset_lt, offset_ofPosition a.offset_lt]
  exact ⟨rfl, rfl⟩

end Addr

namespace Store

variable {α : Type}

theorem slotAt?_eq_bind (bins : Array (Bin α)) (a : Addr) :
    slotAt? bins a = bins[a.bin]?.bind (·.slots[a.offset]?) := by
  unfold slotAt?
  cases bins[a.bin]? <;> rfl

theorem slotAt?_ofPosition {bins : Array (Bin α)} {b o : Nat} (ho : o < binSize) :
    slotAt? bins (.ofPosition b o) = bins[b]?.bind (·.slots[o]?) := by
  rw [slotAt?_eq_bind, Addr.bin_ofPosition ho, Addr.offset_ofPosition ho]

theorem slotAt?_modifySlot (bins : Array (Bin α)) (a b : Addr) (f : Slot α → Slot α) :
    slotAt? (modifySlot bins a f) b = if b = a then (slotAt? bins b).map f else slotAt? bins b := by
  simp only [slotAt?_eq_bind, modifySlot, Array.getElem?_modify, Addr.eq_iff_position]
  by_cases hb : a.bin = b.bin
  · rw [if_pos hb]
    cases bins[b.bin]? with
    | none => simp
    | some bin =>
      simp only [Option.map_some, Option.bind_some, Array.getElem?_modify, hb, true_and,
        eq_comm (a := a.offset)]
  · rw [if_neg hb, if_neg fun h => hb h.1.symm]

/-- Only what is made of the slot that is there counts. -/
theorem modifySlot_congr {bins : Array (Bin α)} {a : Addr} {f g : Slot α → Slot α}
    (h : (slotAt? bins a).map f = (slotAt? bins a).map g) :
    modifySlot bins a f = modifySlot bins a g := by
  apply Array.ext_getElem?
  intro b
  simp only [modifySlot, Array.getElem?_modify]
  split_ifs with hb
  · rw [slotAt?_eq_bind, hb] at h
    cases hbin : bins[b]? with
    | none => rfl
    | some bin =>
      rw [hbin, Option.bind_some] at h
      rw [Option.map_some, Option.map_some, Option.some.injEq, Bin.mk.injEq]
      apply Array.ext_getElem?
      intro o
      simp only [Array.getElem?_modify]
      split_ifs with ho
      · rwa [← ho]
      · rfl
  · rfl

theorem modifySlot_id (bins : Array (Bin α)) (a : Addr) : modifySlot bins a id = bins := by
  apply Array.ext_getElem?
  intro b
  simp only [modifySlot, Array.getElem?_modify]
  split_ifs
  · cases bins[b]? with
    | none => rfl
    | some bin =>
      rw [Option.map_some, Option.some.injEq]
      congr 1
      apply Array.ext_getElem?
      intro o
      rw [Array.getElem?_modify]
      split_ifs <;> simp
  · rfl

theorem modifySlot_comm {a b : Addr} (hab : a ≠ b) (bins : Array (Bin α)) (f g : Slot α → Slot α) :
    modifySlot (modifySlot bins a f) b g = modifySlot (modifySlot bins b g) a f := by
  apply Array.ext_getElem?
  intro i
  simp only [modifySlot, Array.getElem?_modify]
  by_cases ha : a.bin = i
  · by_cases hb : b.bin = i
    · have hoffset : a.offset ≠ b.offset :=
        fun ho => hab (Addr.eq_iff_position.mpr ⟨ha.trans hb.symm, ho⟩)
      simp only [ha, hb, if_true, Option.map_map]
      congr 1
      funext bin
      simp only [Function.comp_apply, Bin.mk.injEq]
      apply Array.ext_getElem?
      intro o
      simp only [Array.getElem?_modify]
      split_ifs with hbo hao hao
      · exact absurd (hao.trans hbo.symm) hoffset
      all_goals rfl
    · simp [ha, hb]
  · simp [ha]

theorem bin_lt_of_slotAt? {bins : Array (Bin α)} {a : Addr} {slot : Slot α}
    (h : slotAt? bins a = some slot) : a.bin < bins.size := by
  rw [slotAt?_eq_bind] at h
  obtain ⟨bin, hbin, -⟩ := Option.bind_eq_some_iff.mp h
  exact (Array.getElem?_eq_some_iff.mp hbin).1

theorem index_lt_of_slotAt? {bins : Array (Bin α)} {a : Addr} {slot : Slot α}
    (h : slotAt? bins a = some slot) : a.index < bins.size * binSize := by
  have hbin := bin_lt_of_slotAt? h
  have hoff := a.offset_lt
  rw [a.index_eq, Addr.binSize_eq] at *
  omega

theorem get?_eq_bind (st : Store α) (a : Addr) :
    st.get? a = (slotAt? st.bins a).bind Slot.item := by
  unfold get?
  cases slotAt? st.bins a <;> rfl

@[simp] theorem get?_empty (a : Addr) : (empty : Store α).get? a = none := by
  simp [get?_eq_bind, slotAt?_eq_bind, empty]

theorem contains_iff {st : Store α} {a : Addr} :
    st.contains a = true ↔ ∃ x, st.get? a = some x :=
  Option.isSome_iff_exists

theorem index_lt_of_get? {st : Store α} {a : Addr} {x : α} (h : st.get? a = some x) :
    a.index < st.capacity := by
  rw [get?_eq_bind] at h
  obtain ⟨slot, hslot, -⟩ := Option.bind_eq_some_iff.mp h
  exact index_lt_of_slotAt? hslot

@[simp, grind =] theorem get?_modify (st : Store α) (a b : Addr) (f : α → α) :
    (st.modify a f).get? b = if b = a then (st.get? b).map f else st.get? b := by
  rw [get?_eq_bind, get?_eq_bind, modify, slotAt?_modifySlot]
  split_ifs
  · cases slotAt? st.bins b <;> rfl
  · rfl

theorem get?_modify_cases {st : Store α} {a b : Addr} {f : α → α} {x : α}
    (h : (st.modify a f).get? b = some x) :
    (∃ y, st.get? a = some y ∧ b = a ∧ f y = x) ∨ st.get? b = some x := by
  rw [get?_modify] at h
  split_ifs at h with hb
  · obtain ⟨y, hy, hx⟩ := Option.map_eq_some_iff.mp h
    exact .inl ⟨y, hb ▸ hy, hb, hx⟩
  · exact .inr h

@[simp, grind =] theorem contains_modify (st : Store α) (a b : Addr) (f : α → α) :
    (st.modify a f).contains b = st.contains b := by
  unfold contains
  rw [get?_modify]
  split_ifs <;> simp

@[simp, grind =] theorem get?_set (st : Store α) (a b : Addr) (x : α) :
    (st.set a x).get? b = if b = a then (st.get? b).map fun _ => x else st.get? b :=
  get?_modify st a b _

@[simp, grind =] theorem contains_set (st : Store α) (a b : Addr) (x : α) :
    (st.set a x).contains b = st.contains b :=
  contains_modify st a b _

@[simp] theorem capacity_modify (st : Store α) (a : Addr) (f : α → α) :
    (st.modify a f).capacity = st.capacity := by
  simp [capacity, modify, modifySlot]

/-- Only what is made of the item that is there counts. -/
theorem modify_congr {st : Store α} {a : Addr} {x : α} {f g : α → α} (hx : st.get? a = some x)
    (h : f x = g x) : st.modify a f = st.modify a g := by
  rw [get?_eq_bind] at hx
  obtain ⟨slot, hslot, hitem⟩ := Option.bind_eq_some_iff.mp hx
  rw [modify, modify, modifySlot_congr]
  rw [hslot, Option.map_some, Option.map_some, hitem, Option.map_some, Option.map_some, h]

theorem modify_comm {a b : Addr} (hab : a ≠ b) (st : Store α) (f g : α → α) :
    (st.modify a f).modify b g = (st.modify b g).modify a f := by
  simp only [modify, modifySlot_comm hab]

@[simp] theorem modify_id (st : Store α) (a : Addr) : st.modify a id = st := by
  have hid : (fun slot : Slot α => { slot with item := slot.item.map id }) = id := by
    funext slot
    simp
  rw [modify, hid, modifySlot_id]

/-- Storing the item that is there already changes nothing. -/
theorem set_eq_self {st : Store α} {a : Addr} {x : α} (h : st.get? a = some x) :
    st.set a x = st := by
  have hset : st.set a x = st.modify a id := modify_congr h rfl
  rw [hset, modify_id]

theorem slotAt?_push (bins : Array (Bin α)) (bin : Bin α) (a : Addr) :
    slotAt? (bins.push bin) a =
      if a.bin = bins.size then bin.slots[a.offset]? else slotAt? bins a := by
  rw [slotAt?_eq_bind, slotAt?_eq_bind, Array.getElem?_push]
  split_ifs <;> rfl

theorem slotAt?_push_insert {bins : Array (Bin α)} {bin : Bin α} (h : bin.slots.size < binSize)
    (slot : Slot α) (a : Addr) :
    slotAt? (bins.push (bin.insert slot)) a =
      if a = .ofPosition bins.size bin.slots.size then some slot
      else slotAt? (bins.push bin) a := by
  simp only [slotAt?_push, Bin.insert, Array.getElem?_push, Addr.eq_iff_position,
    Addr.bin_ofPosition h, Addr.offset_ofPosition h]
  by_cases hb : a.bin = bins.size <;> simp [hb]

theorem modify_push (bins : Array (Bin α)) (bin : Bin α) (f : Bin α → Bin α) :
    (bins.push bin).modify bins.size f = bins.push (f bin) := by
  apply Array.ext_getElem?
  intro i
  rw [Array.getElem?_modify, Array.getElem?_push, Array.getElem?_push]
  by_cases hi : i = bins.size
  · simp [hi]
  · rw [if_neg (Ne.symm hi), if_neg hi, if_neg hi]

/-- Space is in the last bin if that has any; else a bin is made, without slots yet. -/
theorem makeSpace_eq (bins : Array (Bin α)) :
    ∃ init last, makeSpace bins = init.push last ∧ last.slots.size < binSize ∧
      (bins = init.push last ∨ bins = init ∧ last = .empty ∧
        ∀ bin, bins.back? = some bin → binSize ≤ bin.slots.size) := by
  unfold makeSpace
  split_ifs with h
  · cases hlast : bins.back? with
    | none => simp [hlast] at h
    | some last =>
      obtain ⟨init, rfl⟩ := Array.back?_eq_some_iff.mp hlast
      exact ⟨init, last, rfl, by simpa [Bin.hasSpace] using h, .inl rfl⟩
  · refine ⟨bins, .empty, rfl, show 0 < binSize by decide, .inr ⟨rfl, rfl, fun bin hbin => ?_⟩⟩
    simpa [hbin, Bin.hasSpace] using h

theorem slotAt?_push_empty (bins : Array (Bin α)) (a : Addr) :
    slotAt? (bins.push .empty) a = slotAt? bins a := by
  rw [slotAt?_push]
  split_ifs with h
  · rw [slotAt?_eq_bind, h, Array.getElem?_eq_none (Nat.le_refl _)]
    simp [Bin.empty]
  · rfl

/-- The addresses of the slots in bin `b` that `p` holds of, in their order. -/
def addrsIn (p : Slot α → Bool) (b : Nat) (bin : Bin α) : List Addr :=
  (bin.slots.toList.zipIdx.filter fun q => p q.1).map fun q => .ofPosition b q.2

/-- The addresses of the slots that `p` holds of, in their order. -/
def addrsWith (p : Slot α → Bool) (bins : Array (Bin α)) : List Addr :=
  bins.toList.zipIdx.flatMap fun q => addrsIn p q.2 q.1

theorem mem_addrsIn {p : Slot α → Bool} {b : Nat} {bin : Bin α} {a : Addr} :
    a ∈ addrsIn p b bin ↔
      ∃ o slot, bin.slots[o]? = some slot ∧ p slot = true ∧ a = .ofPosition b o := by
  rw [addrsIn, List.mem_map]
  constructor
  · rintro ⟨⟨slot, o⟩, hq, rfl⟩
    obtain ⟨hm, hp⟩ := List.mem_filter.mp hq
    exact ⟨o, slot, by simpa using List.mem_zipIdx_iff_getElem?.mp hm, hp, rfl⟩
  · rintro ⟨o, slot, hs, hp, rfl⟩
    refine ⟨(slot, o), List.mem_filter.mpr ⟨List.mem_zipIdx_iff_getElem?.mpr ?_, hp⟩, rfl⟩
    simpa using hs

theorem nodup_addrsIn {p : Slot α → Bool} {b : Nat} {bin : Bin α}
    (hbin : bin.slots.size ≤ binSize) : (addrsIn p b bin).Nodup := by
  have hr : (bin.slots.toList.zipIdx.map Prod.snd).Nodup := by
    rw [List.zipIdx_map_snd]
    exact List.nodup_range'
  have hsub := (List.filter_sublist (p := fun q => p q.1) (l := bin.slots.toList.zipIdx))
  refine List.Nodup.map_on ?_ ((List.Nodup.of_map _ hr).sublist hsub)
  rintro ⟨s, o⟩ hq ⟨s', o'⟩ hq' heq
  have hs : bin.slots[o]? = some s := by
    simpa using List.mem_zipIdx_iff_getElem?.mp (hsub.subset hq)
  have hs' : bin.slots[o']? = some s' := by
    simpa using List.mem_zipIdx_iff_getElem?.mp (hsub.subset hq')
  have ho := (Array.getElem?_eq_some_iff.mp hs).1
  have ho' := (Array.getElem?_eq_some_iff.mp hs').1
  have hoff := congrArg Addr.offset heq
  dsimp only at hoff
  rw [Addr.offset_ofPosition (by omega), Addr.offset_ofPosition (by omega)] at hoff
  subst hoff
  rw [hs, Option.some.injEq] at hs'
  rw [hs']

theorem length_addrsIn (p : Slot α → Bool) (b : Nat) (bin : Bin α) :
    (addrsIn p b bin).length = bin.slots.countP p := by
  have hc : bin.slots.toList.countP p = bin.slots.toList.zipIdx.countP (p ∘ Prod.fst) := by
    rw [← List.countP_map, List.zipIdx_map_fst]
  rw [addrsIn, List.length_map, ← List.countP_eq_length_filter, ← Array.countP_toList, hc]
  rfl

/-- How many slots have been made in each bin. -/
def binSizes (bins : Array (Bin α)) : List Nat := bins.toList.map (·.slots.size)

theorem size_mem_binSizes {bins : Array (Bin α)} {b : Nat} {bin : Bin α} (h : bins[b]? = some bin) :
    bin.slots.size ∈ binSizes bins :=
  List.mem_map_of_mem (Array.mem_toList_iff.mpr (Array.mem_of_getElem? h))

@[simp] theorem binSizes_push (bins : Array (Bin α)) (bin : Bin α) :
    binSizes (bins.push bin) = binSizes bins ++ [bin.slots.size] := by
  simp [binSizes]

@[simp] theorem binSizes_modifySlot (bins : Array (Bin α)) (a : Addr) (f : Slot α → Slot α) :
    binSizes (modifySlot bins a f) = binSizes bins := by
  apply List.ext_getElem?
  intro b
  simp only [binSizes, modifySlot, List.getElem?_map, Array.getElem?_toList, Array.getElem?_modify]
  split_ifs
  · cases bins[b]? <;> simp
  · rfl

/-- Every bin but the last is full, and the last one has a slot. -/
def Packed (sizes : List Nat) : Prop :=
  sizes = [] ∨ ∃ k n, sizes = List.replicate k binSize ++ [n] ∧ 1 ≤ n ∧ n ≤ binSize

theorem Packed.le {sizes : List Nat} (h : Packed sizes) {n : Nat} (hn : n ∈ sizes) :
    n ≤ binSize := by
  obtain rfl | ⟨k, m, rfl, -, hm⟩ := h
  · cases hn
  · rcases List.mem_append.mp hn with hn | hn
    · exact Nat.le_of_eq (List.eq_of_mem_replicate hn)
    · rwa [List.mem_singleton.mp hn]

theorem Packed.append_one {sizes : List Nat} (h : Packed sizes)
    (hlast : ∀ n, sizes.getLast? = some n → binSize ≤ n) : Packed (sizes ++ [1]) := by
  obtain rfl | ⟨k, n, rfl, -, hn⟩ := h
  · exact .inr ⟨0, 1, rfl, Nat.le_refl 1, by decide⟩
  · have hfull := hlast n (by simp)
    have heq : n = binSize := by omega
    refine .inr ⟨k + 1, 1, ?_, Nat.le_refl 1, by decide⟩
    rw [heq, List.replicate_succ']

theorem Packed.succ_last {sizes : List Nat} {n : Nat} (h : Packed (sizes ++ [n]))
    (hn : n < binSize) : Packed (sizes ++ [n + 1]) := by
  obtain hnil | ⟨k, m, heq, -⟩ := h
  · simp at hnil
  · obtain ⟨rfl, -⟩ := List.append_inj' heq rfl
    exact .inr ⟨k, n + 1, rfl, by omega, hn⟩

section Positions

variable {p : Slot α → Bool} {bins : Array (Bin α)}
  (hbins : Packed (binSizes bins))

include hbins

theorem mem_addrsWith {a : Addr} :
    a ∈ addrsWith p bins ↔ ∃ slot, slotAt? bins a = some slot ∧ p slot = true := by
  rw [addrsWith, List.mem_flatMap]
  constructor
  · rintro ⟨⟨bin, b⟩, hq, ha⟩
    have hbin : bins[b]? = some bin := by simpa using List.mem_zipIdx_iff_getElem?.mp hq
    obtain ⟨o, slot, hslot, hp, rfl⟩ := mem_addrsIn.mp ha
    have ho : o < bin.slots.size := (Array.getElem?_eq_some_iff.mp hslot).1
    have hle := hbins.le (size_mem_binSizes hbin)
    exact ⟨slot, by rw [slotAt?_ofPosition (by omega), hbin, Option.bind_some, hslot], hp⟩
  · rintro ⟨slot, hslot, hp⟩
    rw [slotAt?_eq_bind] at hslot
    obtain ⟨bin, hbin, hslot⟩ := Option.bind_eq_some_iff.mp hslot
    refine ⟨(bin, a.bin), List.mem_zipIdx_iff_getElem?.mpr (by simpa using hbin), ?_⟩
    exact mem_addrsIn.mpr ⟨a.offset, slot, hslot, hp, a.ofPosition_bin_offset.symm⟩

theorem nodup_addrsWith : (addrsWith p bins).Nodup := by
  have hsize {q : Bin α × Nat} (hq : q ∈ bins.toList.zipIdx) : q.1.slots.size ≤ binSize :=
    hbins.le (size_mem_binSizes (by simpa using List.mem_zipIdx_iff_getElem?.mp hq))
  have hbin {q : Bin α × Nat} (hq : q ∈ bins.toList.zipIdx) {a : Addr}
      (ha : a ∈ addrsIn p q.2 q.1) : a.bin = q.2 := by
    obtain ⟨o, slot, hslot, -, rfl⟩ := mem_addrsIn.mp ha
    have ho := (Array.getElem?_eq_some_iff.mp hslot).1
    have hle := hsize hq
    exact Addr.bin_ofPosition (by omega)
  rw [addrsWith, List.nodup_flatMap]
  refine ⟨fun q hq => nodup_addrsIn (hsize hq), ?_⟩
  -- The bins have different numbers, so no address is in two of them.
  have hnum : bins.toList.zipIdx.Pairwise fun q r => q.2 ≠ r.2 := by
    rw [← List.pairwise_map (f := Prod.snd) (R := (· ≠ ·)), List.zipIdx_map_snd]
    exact List.nodup_range'
  refine hnum.imp_of_mem fun {q r} hq hr hne => ?_
  intro a ha hb
  exact hne ((hbin hq ha).symm.trans (hbin hr hb))

end Positions

/-- What every store keeps: the bins are packed, the free list names each empty slot once, and an
occupied slot has the mark of the last collection. An empty slot may have either mark. -/
structure WellFormed (st : Store α) : Prop where
  packed : Packed (binSizes st.bins)
  free_nodup : st.free.Nodup
  mem_free_iff : ∀ a, a ∈ st.free ↔ ∃ slot, slotAt? st.bins a = some slot ∧ slot.item = none
  mark_eq : ∀ a slot, slotAt? st.bins a = some slot → slot.item.isSome → slot.mark = st.mark

namespace WellFormed

variable {st : Store α}

theorem empty : (Store.empty : Store α).WellFormed where
  packed := .inl rfl
  free_nodup := List.nodup_nil
  mem_free_iff a := by simp [Store.empty, slotAt?_eq_bind]
  mark_eq a slot h := by simp [Store.empty, slotAt?_eq_bind] at h

theorem modify (h : st.WellFormed) (a : Addr) (f : α → α) : (st.modify a f).WellFormed where
  packed := by rw [Store.modify, binSizes_modifySlot]; exact h.packed
  free_nodup := h.free_nodup
  mem_free_iff b := by
    have hb := h.mem_free_iff b
    simp only [Store.modify, slotAt?_modifySlot] at hb ⊢
    rw [hb]
    split_ifs
    · cases slotAt? st.bins b <;> simp
    · rfl
  mark_eq b slot hs hi := by
    simp only [Store.modify, slotAt?_modifySlot] at hs ⊢
    split_ifs at hs
    · obtain ⟨old, ho, rfl⟩ := Option.map_eq_some_iff.mp hs
      exact h.mark_eq b old ho (by simpa using hi)
    · exact h.mark_eq b slot hs hi

/-- A slot is reused if there is an empty one; else it is made in the last bin. -/
theorem next_cases (h : st.WellFormed) :
    (∃ a free slot, st.free = a :: free ∧ st.next = a ∧ slotAt? st.bins a = some slot ∧
      slot.item = none) ∨
    ∃ init last, st.free = [] ∧ makeSpace st.bins = init.push last ∧ last.slots.size < binSize ∧
      st.next = .ofPosition init.size last.slots.size ∧
      (∀ a, slotAt? st.bins a = slotAt? (init.push last) a) ∧
      Packed (binSizes init ++ [last.slots.size + 1]) := by
  have hpacked := h.packed
  cases hf : st.free with
  | cons a free =>
    obtain ⟨slot, hslot, hitem⟩ := (h.mem_free_iff a).mp (by simp [hf])
    exact .inl ⟨a, free, slot, rfl, by simp [next, hf], hslot, hitem⟩
  | nil =>
    obtain ⟨init, last, hspace, hlt, hbins⟩ := makeSpace_eq st.bins
    refine .inr ⟨init, last, rfl, hspace, hlt, by simp [next, hf, hspace], ?_⟩
    obtain heq | ⟨rfl, rfl, hfull⟩ := hbins
    · rw [heq, binSizes_push] at hpacked
      exact ⟨fun a => by rw [heq], hpacked.succ_last hlt⟩
    · refine ⟨fun a => (slotAt?_push_empty st.bins a).symm, hpacked.append_one fun n hn => ?_⟩
      rw [binSizes, List.getLast?_map, Option.map_eq_some_iff] at hn
      obtain ⟨bin, hbin, rfl⟩ := hn
      exact hfull bin (by simpa using hbin)

theorem bins_insert_new {x : α} {init : Array (Bin α)} {last : Bin α} (hf : st.free = [])
    (hspace : makeSpace st.bins = init.push last) :
    (st.insert x).bins = init.push (last.insert ⟨st.mark, some x⟩) := by
  simp [Store.insert, hf, hspace, modify_push]

/-- The slots after an insertion: the next address holds the item, and all others are as they
were. -/
theorem slotAt?_insert (h : st.WellFormed) (x : α) (a : Addr) :
    slotAt? (st.insert x).bins a =
      if a = st.next then some ⟨st.mark, some x⟩ else slotAt? st.bins a := by
  obtain ⟨b, free, slot, hf, hnext, hslot, -⟩ | ⟨init, last, hf, hspace, hlt, hnext, hslots, -⟩ :=
    h.next_cases
  · simp only [Store.insert, hf, hnext, slotAt?_modifySlot]
    split_ifs with ha
    · rw [ha, hslot, Option.map_some]
    · rfl
  · rw [bins_insert_new hf hspace, slotAt?_push_insert hlt, hnext, hslots]

theorem slotAt?_next (h : st.WellFormed) {slot : Slot α}
    (hs : slotAt? st.bins st.next = some slot) : slot.item = none := by
  obtain ⟨b, free, old, -, hnext, hold, hitem⟩ | ⟨init, last, -, -, hlt, hnext, hslots, -⟩ :=
    h.next_cases
  · rw [hnext, hold, Option.some.injEq] at hs
    rw [← hs, hitem]
  · rw [hnext, hslots, slotAt?_push, Addr.bin_ofPosition hlt, Addr.offset_ofPosition hlt] at hs
    simp at hs

@[simp] theorem get?_next (h : st.WellFormed) : st.get? st.next = none := by
  rw [get?_eq_bind]
  cases hs : slotAt? st.bins st.next with
  | none => rfl
  | some slot => exact h.slotAt?_next hs

@[simp, grind =] theorem get?_insert (h : st.WellFormed) (x : α) (a : Addr) :
    (st.insert x).get? a = if a = st.next then some x else st.get? a := by
  rw [get?_eq_bind, get?_eq_bind, h.slotAt?_insert x]
  split_ifs <;> rfl

@[simp] theorem get?_insert_next (h : st.WellFormed) (x : α) :
    (st.insert x).get? st.next = some x := by
  rw [h.get?_insert, if_pos rfl]

theorem get?_insert_cases (h : st.WellFormed) {x y : α} {a : Addr}
    (ha : (st.insert x).get? a = some y) : a = st.next ∧ x = y ∨ st.get? a = some y := by
  rw [h.get?_insert] at ha
  split_ifs at ha with hnext
  · exact .inl ⟨hnext, Option.some.inj ha⟩
  · exact .inr ha

theorem get?_insert_of_get? (h : st.WellFormed) (x : α) {a : Addr} {y : α}
    (ha : st.get? a = some y) : (st.insert x).get? a = some y := by
  rw [h.get?_insert, if_neg, ha]
  rintro rfl
  rw [h.get?_next] at ha
  cases ha

theorem insert (h : st.WellFormed) (x : α) : (st.insert x).WellFormed where
  packed := by
    obtain ⟨b, free, slot, hf, -⟩ | ⟨init, last, hf, hspace, -, -, -, hpacked⟩ := h.next_cases
    · simpa [Store.insert, hf] using h.packed
    · simpa [bins_insert_new hf hspace, Bin.insert] using hpacked
  free_nodup := by
    have hn := h.free_nodup
    cases hf : st.free with
    | nil => simp [Store.insert, hf]
    | cons a free =>
      rw [hf] at hn
      simp only [Store.insert, hf]
      exact (List.nodup_cons.mp hn).2
  mem_free_iff b := by
    have hb := h.mem_free_iff b
    rw [h.slotAt?_insert x]
    obtain ⟨a, free, slot, hf, hnext, -⟩ | ⟨init, last, hf, -⟩ := h.next_cases
    · have hn := h.free_nodup
      rw [hf] at hb hn
      simp only [Store.insert, hf, hnext]
      split_ifs with hi
      · subst hi
        simp [(List.nodup_cons.mp hn).1]
      · rw [← hb, List.mem_cons]
        simp [hi]
    · have hnone : ¬∃ slot, slotAt? st.bins b = some slot ∧ slot.item = none := by
        simpa [hf] using hb
      simp only [Store.insert, hf]
      split_ifs with hi
      · simp
      · simpa using hnone
  mark_eq b slot hs hi := by
    have hm : (st.insert x).mark = st.mark := by unfold Store.insert; dsimp only; split <;> rfl
    rw [h.slotAt?_insert x] at hs
    rw [hm]
    split_ifs at hs
    · cases hs
      rfl
    · exact h.mark_eq b slot hs hi

end WellFormed

end Store

end HeapLisp
