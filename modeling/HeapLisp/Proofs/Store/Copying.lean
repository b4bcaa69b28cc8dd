import HeapLisp.Proofs.Store.Intact
import HeapLisp.Store.Copy
import Mathlib.Data.Finset.Card

namespace HeapLisp.Store

variable {st₀ st st' : Store Object} {v : Value} {copies : Copies} {pending : List Value}

/-- A list that can be reached from a value through lists. -/
inductive ListWithin (st : Store Object) (v : Value) : Addr → Prop where
  | root {a : Addr} {items : Array Value} (hv : v = .ref a) (ha : st.get? a = some (.list items)) :
    ListWithin st v a
  | item {a b : Addr} {items items' : Array Value} (h : ListWithin st v a)
    (ha : st.get? a = some (.list items))
    (hb : .ref b ∈ items.toList) (hb' : st.get? b = some (.list items')) : ListWithin st v b

theorem ListWithin.get? {a : Addr} (h : ListWithin st v a) :
    ∃ items, st.get? a = some (.list items) := by
  cases h with
  | root _ ha => exact ⟨_, ha⟩
  | item _ _ _ hb => exact ⟨_, hb⟩

/-- What making copies keeps: `st₀` is the store before, and `pending` is still to be looked at. -/
structure Copying (st₀ : Store Object) (v : Value) (pending : List Value) (copies : Copies)
    (st : Store Object) : Prop where
  wf : st.WellFormed
  old : ∀ {a o}, st₀.get? a = some o → st.get? a = some o
  only : ∀ {a o}, st.get? a = some o → st₀.get? a = some o ∨ ∃ i : Nat, copies[i]? = some a
  fresh : ∀ {i : Nat} {c}, copies[i]? = some c → st₀.get? c = none
  new : ∀ {i : Nat} {c}, copies[i]? = some c → st.get? c = some (.list #[])
  inj : ∀ {i j : Nat} {c}, copies[i]? = some c → copies[j]? = some c → i = j
  sound : ∀ {i : Nat} {c}, copies[i]? = some c → ListWithin st₀ v ⟨i⟩
  pending_live : ∀ {a}, .ref a ∈ pending → st₀.contains a = true
  pending_sound : ∀ {a items}, .ref a ∈ pending → st₀.get? a = some (.list items) →
    ListWithin st₀ v a
  root_met : ∀ {a items}, v = .ref a → st₀.get? a = some (.list items) →
    copies.contains a.index = true ∨ .ref a ∈ pending
  item_met : ∀ {i : Nat} {c items b items'}, copies[i]? = some c →
    st₀.get? ⟨i⟩ = some (.list items) →
    .ref b ∈ items.toList → st₀.get? b = some (.list items') → copies.contains b.index = true ∨
    .ref b ∈ pending

/-- The slots of the store before that no copy was made of. -/
def uncopied (size : Nat) (copies : Copies) : Finset Nat :=
  {i ∈ Finset.range size | copies.contains i = false}

namespace Copying

theorem start (h : st.WellFormed) (hv : ∀ a, v = .ref a → st.contains a = true) :
    Copying st v [v] ∅ st where
  wf := h
  old ha := ha
  only ha := .inl ha
  fresh hc := by simp at hc
  new hc := by simp at hc
  inj hc := by simp at hc
  sound hc := by simp at hc
  pending_live ha := hv _ (List.mem_singleton.mp ha).symm
  pending_sound ha hi := .root (List.mem_singleton.mp ha).symm hi
  root_met hv _ := .inr (List.mem_singleton.mpr hv.symm)
  item_met hc := by simp at hc

/-- A value that needs no copy any more is left out. -/
theorem skip {w : Value} (h : Copying st₀ v (w :: pending) copies st)
    (hw : isCopied st copies w = true) :
    Copying st₀ v pending copies st := by
  have met {b : Addr} {items : Array Value} (hb : st₀.get? b = some (.list items))
      (hm : copies.contains b.index = true ∨ .ref b ∈ w :: pending) :
      copies.contains b.index = true ∨ .ref b ∈ pending := by
    obtain hm | hm := hm
    · exact .inl hm
    · obtain rfl | hm := List.mem_cons.mp hm
      · rw [isCopied, h.old hb, Bool.or_false] at hw
        exact .inl hw
      · exact .inr hm
  exact { h with
    pending_live := fun ha => h.pending_live (.tail _ ha)
    pending_sound := fun ha => h.pending_sound (.tail _ ha)
    root_met := fun hv ha => met ha (h.root_met hv ha)
    item_met := fun hc hi hb hb' => met hb' (h.item_met hc hi hb hb') }

theorem dropWhile (h : Copying st₀ v pending copies st) :
    Copying st₀ v (pending.dropWhile (isCopied st copies)) copies st := by
  induction pending with
  | nil => exact h
  | cons w pending ih =>
    rw [List.dropWhile_cons]
    split
    · exact ih (h.skip ‹_›)
    · exact h

theorem getElem?_insert_iff {copies : Copies} {a c : Addr} {i : Nat} {d : Addr} :
    (copies.insert a.index d)[i]? = some c ↔ a.index = i ∧ d = c ∨ a.index ≠ i ∧
    copies[i]? = some c := by
  rw [Std.TreeMap.getElem?_insert]
  by_cases hi : a.index = i
  · simp [hi]
  · simp [hi]

/-- A list that has no copy yet gets one, and its items are to be looked at. -/
theorem visit {a : Addr} {items : Array Value} (h : Copying st₀ v (.ref a :: pending) copies st)
    (hst₀ : st₀.Intact) (ha : st₀.get? a = some (.list items))
    (hc : copies.contains a.index = false) :
    Copying st₀ v (items.toList.reverse ++ pending) (copies.insert a.index st.next)
      (st.insert (.list #[])) := by
  have hnext {i : Nat} {c : Addr} (hi : copies[i]? = some c) : c ≠ st.next := by
    rintro rfl
    have := h.new hi
    rw [h.wf.get?_next] at this
    cases this
  have hin {w : Value} (hw : w ∈ items.toList.reverse ++ pending) :
      w ∈ items.toList ∨ w ∈ pending := by
    rwa [List.mem_append, List.mem_reverse] at hw
  have hout {b : Addr} (hm : copies.contains b.index = true ∨ .ref b ∈ Value.ref a :: pending) :
      (copies.insert a.index st.next).contains b.index = true ∨
          .ref b ∈ items.toList.reverse ++ pending := by
    rw [Std.TreeMap.contains_insert, List.mem_append]
    obtain hm | hm := hm
    · exact .inl (by simp [hm])
    · obtain he | hm := List.mem_cons.mp hm
      · cases he
        exact .inl (by simp)
      · exact .inr (.inr hm)
  have hwithin := h.pending_sound (.head _) ha
  exact {
    wf := h.wf.insert _
    old := fun hb => h.wf.get?_insert_of_get? _ (h.old hb)
    only := by
      intro b o hb
      obtain ⟨heq, -⟩ | hb := h.wf.get?_insert_cases hb
      · exact .inr ⟨a.index, getElem?_insert_iff.mpr (.inl ⟨rfl, heq.symm⟩)⟩
      · obtain hb | ⟨i, hi⟩ := h.only hb
        · exact .inl hb
        · refine .inr ⟨i, getElem?_insert_iff.mpr (.inr ⟨?_, hi⟩)⟩
          rintro rfl
          rw [← Std.TreeMap.isSome_getElem?_eq_contains, hi] at hc
          cases hc
    fresh := by
      intro i c hi
      obtain ⟨_, rfl⟩ | ⟨_, hi⟩ := getElem?_insert_iff.mp hi
      · cases hx : st₀.get? st.next with
        | none => rfl
        | some o =>
          have := h.old hx
          rw [h.wf.get?_next] at this
          cases this
      · exact h.fresh hi
    new := by
      intro i c hi
      obtain ⟨_, rfl⟩ | ⟨_, hi⟩ := getElem?_insert_iff.mp hi
      · exact h.wf.get?_insert_next _
      · exact h.wf.get?_insert_of_get? _ (h.new hi)
    inj := by
      intro i j c hi hj
      obtain ⟨rfl, rfl⟩ | ⟨_, hi⟩ := getElem?_insert_iff.mp hi
      · obtain ⟨rfl, _⟩ | ⟨_, hj⟩ := getElem?_insert_iff.mp hj
        · rfl
        · exact absurd rfl (hnext hj)
      · obtain ⟨rfl, rfl⟩ | ⟨_, hj⟩ := getElem?_insert_iff.mp hj
        · exact absurd rfl (hnext hi)
        · exact h.inj hi hj
    sound := by
      intro i c hi
      obtain ⟨rfl, _⟩ | ⟨_, hi⟩ := getElem?_insert_iff.mp hi
      · exact hwithin
      · exact h.sound hi
    pending_live := by
      intro b hb
      obtain hb | hb := hin hb
      · exact hst₀.closed ha b (Object.mem_children_list.mpr hb)
      · exact h.pending_live (.tail _ hb)
    pending_sound := by
      intro b items' hb hb'
      obtain hb | hb := hin hb
      · exact .item hwithin ha hb hb'
      · exact h.pending_sound (.tail _ hb) hb'
    root_met := fun hv hb => hout (h.root_met hv hb)
    item_met := by
      intro i c items₁ b items' hi hi' hb hb'
      obtain ⟨rfl, _⟩ | ⟨_, hi⟩ := getElem?_insert_iff.mp hi
      · cases ha.symm.trans hi'
        exact .inr (List.mem_append_left _ (List.mem_reverse.mpr hb))
      · exact hout (h.item_met hi hi' hb hb') }

theorem isCopied_of_contains {w : Value} (h : Copying st₀ v (w :: pending) copies st)
    (hall : ∀ i < st₀.capacity, copies.contains i = true) : isCopied st copies w = true := by
  cases w with
  | num n => rfl
  | sym s => rfl
  | ref a =>
    obtain ⟨o, ho⟩ := contains_iff.mp (h.pending_live (.head _))
    rw [isCopied, hall a.index (index_lt_of_get? ho), Bool.true_or]

/-- Without an uncopied slot there is nothing left to do. -/
theorem finish (h : Copying st₀ v pending copies st)
    (hall : ∀ i < st₀.capacity, copies.contains i = true) :
    Copying st₀ v [] copies st := by
  induction pending with
  | nil => exact h
  | cons w pending ih => exact ih (h.skip (h.isCopied_of_contains hall))

theorem list_of_not_copied {w : Value} (h : Copying st₀ v (w :: pending) copies st)
    (hw : isCopied st copies w = false) :
    ∃ a items, w = .ref a ∧ st₀.get? a = some (.list items) ∧ copies.contains a.index = false := by
  cases w with
  | num n => cases hw
  | sym s => cases hw
  | ref a =>
    obtain ⟨o, ho⟩ := contains_iff.mp (h.pending_live (.head _))
    rw [isCopied, h.old ho, Bool.or_eq_false_iff] at hw
    cases o with
    | list items => exact ⟨a, items, rfl, ho, hw.1⟩
    | str | scope | function | failure | input | output => cases hw.2

theorem card_uncopied_insert {size : Nat} {a c : Addr} (ha : a.index < size)
    (hc : copies.contains a.index = false) :
    (uncopied size (copies.insert a.index c)).card < (uncopied size copies).card := by
  refine Finset.card_lt_card ⟨fun i hi => ?_, fun hsub => ?_⟩
  · rw [uncopied, Finset.mem_filter, Std.TreeMap.contains_insert, Bool.or_eq_false_iff] at hi
    rw [uncopied, Finset.mem_filter]
    exact ⟨hi.1, hi.2.2⟩
  · have hm : a.index ∈ uncopied size copies := by
      rw [uncopied, Finset.mem_filter]
      exact ⟨Finset.mem_range.mpr ha, hc⟩
    have := hsub hm
    rw [uncopied, Finset.mem_filter, Std.TreeMap.contains_insert] at this
    simp at this

/-- Copies are made of all that is pending, if there are steps for all uncopied slots. -/
theorem run (hst₀ : st₀.Intact) {n : Nat} (h : Copying st₀ v pending copies st)
    (hn : (uncopied st₀.capacity copies).card ≤ n) :
    ∃ copies' st', makeCopies n pending copies st = some (copies', st') ∧
      Copying st₀ v [] copies' st' := by
  induction n generalizing pending copies st with
  | zero =>
    refine ⟨copies, st, rfl, h.finish fun i hi => ?_⟩
    have hempty := Finset.card_eq_zero.mp (Nat.le_zero.mp hn)
    have hmem : i ∉ uncopied st₀.capacity copies := by simp [hempty]
    rw [uncopied, Finset.mem_filter, not_and, Bool.not_eq_false] at hmem
    exact hmem (Finset.mem_range.mpr hi)
  | succ n ih =>
    have h := h.dropWhile
    rw [makeCopies]
    generalize hp : pending.dropWhile (isCopied st copies) = rest at h
    cases rest with
    | nil => exact ⟨copies, st, rfl, h⟩
    | cons w rest =>
      have hw : isCopied st copies w = false := by
        have := List.head?_dropWhile_not (isCopied st copies) pending
        rw [hp] at this
        simpa using this
      obtain ⟨a, items, rfl, ha, hc⟩ := h.list_of_not_copied hw
      simp only [Value.addr?, h.old ha]
      exact ih (h.visit hst₀ ha hc)
        (Nat.le_of_lt_succ (Nat.lt_of_lt_of_le (card_uncopied_insert (index_lt_of_get? ha) hc) hn))

/-- In the end every list inside the value has a copy. -/
theorem complete (h : Copying st₀ v [] copies st) {a : Addr} (ha : ListWithin st₀ v a) :
    ∃ c, copies[a.index]? = some c := by
  have met {b : Addr} (hm : copies.contains b.index = true ∨ Value.ref b ∈ []) :
      ∃ c, copies[b.index]? = some c := by
    rw [or_iff_left (List.not_mem_nil), ← Std.TreeMap.isSome_getElem?_eq_contains] at hm
    exact Option.isSome_iff_exists.mp hm
  induction ha with
  | root hv ha => exact met (h.root_met hv ha)
  | item _ ha hb hb' ih =>
    obtain ⟨c, hc⟩ := ih
    exact met (h.item_met hc ha hb hb')

end Copying

section Filling

variable (copies : Copies)

theorem wellFormed_fillCopy (h : st.WellFormed) (p : Nat × Addr) :
    (fillCopy copies st p).WellFormed := by
  unfold fillCopy
  split
  · exact h.modify _ _
  · exact h

theorem get?_fillCopy_of_ne {p : Nat × Addr} {a : Addr} (ha : a ≠ p.2) :
    (fillCopy copies st p).get? a = st.get? a := by
  unfold fillCopy
  split
  · simp [ha]
  · rfl

theorem fillCopy_comm {p q : Nat × Addr} (hpq : p.2 ≠ q.2) (hp : p.2 ≠ ⟨q.1⟩) (hq : q.2 ≠ ⟨p.1⟩) :
    fillCopy copies (fillCopy copies st p) q = fillCopy copies (fillCopy copies st q) p := by
  have hp' : (fillCopy copies st p).get? ⟨q.1⟩ = st.get? ⟨q.1⟩ := get?_fillCopy_of_ne copies hp.symm
  have hq' : (fillCopy copies st q).get? ⟨p.1⟩ = st.get? ⟨p.1⟩ := get?_fillCopy_of_ne copies hq.symm
  rw [fillCopy, hp', fillCopy.eq_def copies (fillCopy copies st q) p, hq', fillCopy, fillCopy]
  split <;> split
  · exact modify_comm hpq st _ _
  all_goals rfl

theorem wellFormed_fill (h : st.WellFormed) (l : List (Nat × Addr)) :
    (l.foldl (fillCopy copies) st).WellFormed := by
  induction l generalizing st with
  | nil => exact h
  | cons p l ih => exact ih (wellFormed_fillCopy copies h p)

theorem get?_fill_of_not_mem {l : List (Nat × Addr)} {a : Addr} (ha : ∀ p ∈ l, a ≠ p.2) :
    (l.foldl (fillCopy copies) st).get? a = st.get? a := by
  induction l generalizing st with
  | nil => rfl
  | cons p l ih =>
    rw [List.foldl_cons, ih fun q hq => ha q (.tail _ hq)]
    exact get?_fillCopy_of_ne copies (ha p (.head _))

/-- Each copy is filled once, from a list that is no copy itself. -/
theorem get?_fill {l : List (Nat × Addr)} {i : Nat} {c : Addr} {items : Array Value}
    (hm : (i, c) ∈ l) (hinj : l.Pairwise fun p q => p.2 ≠ q.2) (hsep : ∀ p ∈ l, p.2 ≠ ⟨i⟩)
    (hi : st.get? ⟨i⟩ = some (.list items)) (hc : st.contains c = true) :
    (l.foldl (fillCopy copies) st).get? c = some (.list (items.map (redirect copies))) := by
  induction l generalizing st with
  | nil => cases hm
  | cons p l ih =>
    rw [List.foldl_cons]
    rw [List.pairwise_cons] at hinj
    obtain rfl | hm := List.mem_cons.mp hm
    · rw [get?_fill_of_not_mem copies hinj.1]
      obtain ⟨o, ho⟩ := contains_iff.mp hc
      simp [fillCopy, hi, ho]
    · have hpc : c ≠ p.2 := fun he => hinj.1 _ hm he.symm
      refine ih hm hinj.2 (fun q hq => hsep q (.tail _ hq)) ?_ ?_
      · rw [get?_fillCopy_of_ne copies fun he => hsep p (.head _) he.symm]
        exact hi
      · obtain ⟨o, ho⟩ := contains_iff.mp hc
        exact contains_iff.mpr ⟨o, by rw [get?_fillCopy_of_ne copies hpc, ho]⟩

end Filling

/-- What a deep copy of `v` is: `copies` has the copy of each list inside `v`, and `st` is the store
with them. -/
structure IsCopy (st₀ : Store Object) (v : Value) (copies : Copies) (st : Store Object) : Prop where
  wf : st.WellFormed
  mem_iff : ∀ {a : Addr}, (∃ c, copies[a.index]? = some c) ↔ ListWithin st₀ v a
  fresh : ∀ {a c : Addr}, copies[a.index]? = some c → st₀.get? c = none
  inj : ∀ {a b c : Addr}, copies[a.index]? = some c → copies[b.index]? = some c → a = b
  old : ∀ {a o}, st₀.get? a = some o → st.get? a = some o
  new : ∀ {a c : Addr} {items}, copies[a.index]? = some c → st₀.get? a = some (.list items) →
    st.get? c = some (.list (items.map (redirect copies)))
  only : ∀ {c o}, st.get? c = some o → st₀.get? c = some o ∨ ∃ a : Addr, copies[a.index]? = some c

theorem mem_copies {p : Nat × Addr} (hp : p ∈ copies.toList) : copies[p.1]? = some p.2 :=
  Std.TreeMap.mem_toList_iff_getElem?_eq_some.mp hp

/-- What was there before the copies is none of them. -/
theorem Copying.ne_copy (h : Copying st₀ v pending copies st) {a : Addr} (ha : st₀.get? a ≠ none) :
    ∀ p ∈ copies.toList, a ≠ p.2 := by
  rintro p hp rfl
  exact ha (h.fresh (mem_copies hp))

theorem Copying.fill_perm (h : Copying st₀ v pending copies st) {l : List (Nat × Addr)}
    (hl : l.Perm copies.toList) :
    l.foldl (fillCopy copies) st = copies.toList.foldl (fillCopy copies) st := by
  have original {p : Nat × Addr} (hp : p ∈ l) : st₀.get? ⟨p.1⟩ ≠ none := by
    obtain ⟨items, ha⟩ := (h.sound (mem_copies (hl.mem_iff.mp hp))).get?
    simp [ha]
  refine hl.foldl_eq' (fun p hp q hq st => ?_) st
  by_cases hpq : p.2 = q.2
  · have hq' := mem_copies (hl.mem_iff.mp hq)
    rw [← hpq] at hq'
    rw [Prod.ext (h.inj (mem_copies (hl.mem_iff.mp hp)) hq') hpq]
  · exact fillCopy_comm copies hpq (h.ne_copy (original hq) p (hl.mem_iff.mp hp)).symm
      (h.ne_copy (original hp) q (hl.mem_iff.mp hq)).symm

theorem Copying.isCopy (h : Copying st₀ v [] copies st) :
    IsCopy st₀ v copies (copies.toList.foldl (fillCopy copies) st) := by
  have hinj : copies.toList.Pairwise fun p q => p.2 ≠ q.2 := by
    refine (Std.TreeMap.distinct_keys_toList (t := copies)).imp_of_mem
      fun {p q} hp hq hne he => hne ?_
    have hpc := mem_copies hp
    rw [he] at hpc
    rw [Std.LawfulEqCmp.compare_eq_iff_eq]
    exact h.inj hpc (mem_copies hq)
  exact {
    wf := wellFormed_fill copies h.wf _
    mem_iff := ⟨fun hc => hc.elim fun _ hc => h.sound hc, h.complete⟩
    fresh := fun hc => h.fresh hc
    inj := fun ha hb => Addr.eq_iff.mpr (h.inj ha hb)
    old := by
      intro a o ha
      rw [get?_fill_of_not_mem copies (h.ne_copy (by simp [ha]))]
      exact h.old ha
    new := by
      intro a c items hc ha
      refine get?_fill copies (Std.TreeMap.mem_toList_iff_getElem?_eq_some.mpr hc) hinj ?_
        (h.old ha) ?_
      · exact fun p hp he => h.ne_copy (a := a) (by simp [ha]) p hp he.symm
      · exact contains_iff.mpr ⟨_, h.new hc⟩
    only := by
      intro c o hc
      by_cases hm : ∃ a : Addr, copies[a.index]? = some c
      · exact .inr hm
      · rw [get?_fill_of_not_mem copies] at hc
        · obtain hc | ⟨i, hi⟩ := h.only hc
          · exact .inl hc
          · exact .inr ⟨⟨i⟩, hi⟩
        · rintro p hp rfl
          exact hm ⟨⟨p.1⟩, mem_copies hp⟩ }

theorem Intact.makeCopies (h : st.Intact) (hv : v.Live st) :
    ∃ copies st', Store.makeCopies st.capacity [v] ∅ st = some (copies, st') ∧
      Copying st v [] copies st' := by
  have hcard : (uncopied st.capacity ∅).card ≤ st.capacity := by
    refine (Finset.card_filter_le _ _).trans ?_
    rw [Finset.card_range]
  exact (Copying.start h.toWellFormed hv).run h hcard

/-- In an intact store a deep copy succeeds. -/
theorem Intact.deepCopy (h : st.Intact) (hv : v.Live st) :
    ∃ copies st', st.deepCopy v = some (redirect copies v, st') ∧ IsCopy st v copies st' := by
  obtain ⟨copies, st', hrun, hcopies⟩ := h.makeCopies hv
  refine ⟨copies, _, ?_, hcopies.isCopy⟩
  rw [Store.deepCopy, hrun]

/-- The store with a deep copy is the same, in whatever order the copies are filled. -/
theorem Intact.deepCopy_of_perm (h : st.Intact) (hv : v.Live st) :
    ∃ copies st', Store.makeCopies st.capacity [v] ∅ st = some (copies, st') ∧
      ∀ l : List (Nat × Addr), l.Perm copies.toList →
        st.deepCopy v = some (redirect copies v, l.foldl (fillCopy copies) st') := by
  obtain ⟨copies, st', hrun, hcopies⟩ := h.makeCopies hv
  refine ⟨copies, st', hrun, fun l hl => ?_⟩
  rw [Store.deepCopy, hrun, hcopies.fill_perm hl]

end HeapLisp.Store
