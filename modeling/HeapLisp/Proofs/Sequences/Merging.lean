import HeapLisp.Proofs.Sequences.Bounds

namespace HeapLisp

namespace Sequence

variable {α : Type} [BEq α] [LawfulBEq α] {x : α} {target source : List α}

/-- The members of `source` that `target` does not have, each once, in the order of their first
occurrences. -/
def missing (target source : List α) : List α := (source.removeAll target).eraseDups

theorem mem_missing : x ∈ missing target source ↔ x ∈ source ∧ x ∉ target := by
  simp [missing, List.removeAll]

theorem missing_cons_of_mem (h : x ∈ target) (source : List α) :
    missing target (x :: source) = missing target source := by
  simp [missing, List.removeAll, h]

theorem missing_cons_of_not_mem (h : x ∉ target) (source : List α) :
    missing target (x :: source) = x :: missing (target ++ [x]) source := by
  have hrest : (source.removeAll target).filter (fun y => !y == x) = source.removeAll
      (target ++ [x]) := by
    simp only [List.removeAll, List.filter_filter]
    congr 1
    funext y
    grind
  have hfirst : (x :: source).removeAll target = x :: source.removeAll target := by
    simp [List.removeAll, h]
  rw [missing, hfirst, List.eraseDups_cons, hrest, missing]

/-- The missing members stand in the order in which the source has them first. -/
theorem pairwise_missing (target source : List α) :
    (missing target source).Pairwise (source.idxOf · < source.idxOf ·) := by
  -- behind the first member of the source, the others are found one place later than without it
  have later {x : α} {source added : List α} (hne : ∀ y ∈ added, y ≠ x)
      (h : added.Pairwise (source.idxOf · < source.idxOf ·)) :
      added.Pairwise ((x :: source).idxOf · < (x :: source).idxOf ·) := by
    refine h.imp_of_mem fun {y z} hy hz hlt => ?_
    rw [List.idxOf_cons_ne _ (hne y hy).symm, List.idxOf_cons_ne _ (hne z hz).symm]
    exact Nat.succ_lt_succ hlt
  induction source generalizing target with
  | nil => exact .nil
  | cons x source ih =>
    by_cases hx : x ∈ target
    · rw [missing_cons_of_mem hx]
      refine later (fun y hy => ?_) (ih target)
      rintro rfl
      exact (mem_missing.mp hy).2 hx
    · have hne : ∀ y ∈ missing (target ++ [x]) source, y ≠ x := by
        intro y hy
        have hnot := (mem_missing.mp hy).2
        simp only [List.mem_append, List.mem_singleton, not_or] at hnot
        exact hnot.2
      rw [missing_cons_of_not_mem hx]
      refine .cons (fun y hy => ?_) (later hne (ih _))
      rw [List.idxOf_cons_self, List.idxOf_cons_ne _ (hne y hy).symm]
      exact Nat.succ_pos _

theorem nodup_missing (target source : List α) : (missing target source).Nodup := by
  refine (pairwise_missing target source).imp fun {x y} hlt => ?_
  rintro rfl
  exact Nat.lt_irrefl _ hlt

/-- Nothing is missing of what has been taken up. -/
theorem missing_eq_nil (h : ∀ x ∈ source, x ∈ target) : missing target source = [] := by
  refine List.eq_nil_iff_forall_not_mem.mpr fun x hx => ?_
  obtain ⟨hsource, hnot⟩ := mem_missing.mp hx
  exact hnot (h x hsource)

theorem mem_append_missing (h : x ∈ source) : x ∈ target ++ missing target source := by
  by_cases hx : x ∈ target
  · exact List.mem_append_left _ hx
  · exact List.mem_append_right _ (mem_missing.mpr ⟨h, hx⟩)

theorem toList_merge {key : α → Nat} (hkey : ∀ x y, key x = key y → x = y) (target : Array α)
    (source : List α) :
    (merge key target source).toList = target.toList ++ missing target.toList source := by
  rw [merge_eq hkey]
  induction source generalizing target with
  | nil => simp [missing]
  | cons x source ih =>
    rw [List.foldl_cons, ih]
    by_cases hx : x ∈ target.toList
    · rw [if_pos (by simpa using hx), missing_cons_of_mem hx]
    · rw [if_neg (by simpa using hx), Array.toList_push, missing_cons_of_not_mem hx,
        List.append_assoc, List.singleton_append]

end Sequence

variable {s s' : Interp} {a b scope : Addr} {target source : Array Value}

namespace Interp

/-- The list at an address gets other items. -/
def withItems (s : Interp) (a : Addr) (items : List Value) : Interp :=
  { s with store := s.store.set a (.list items.toArray) }

theorem get?_withItems (ha : s.store.get? a = some (.list target)) (items : List Value) :
    (s.withItems a items).store.get? a = some (.list items.toArray) := by
  simp [withItems, ha]

theorem get?_withItems_of_ne {c : Addr} (h : c ≠ a) (s : Interp) (items : List Value) :
    (s.withItems a items).store.get? c = s.store.get? c := by
  simp [withItems, h]

theorem withItems_eq_self (ha : s.store.get? a = some (.list target)) :
    s.withItems a target.toList = s := by
  rw [withItems, Array.toArray_toList, Store.set_eq_self ha]

end Interp

/-- Merging ends in one way only: the target takes up what it does not have. -/
theorem Eval.ends_merge {r : Except Addr Value} (scope : Addr)
    (ha : s.store.get? a = some (.list target)) (hb : s.store.get? b = some (.list source)) :
    (runPrimitive scope .merge [.ref a, .ref b]).Ends s r s' ↔
      r = .ok (.ref a) ∧
      s' = s.withItems a (target.toList ++ Sequence.missing target.toList source.toList) := by
  have hmerge : Sequence.merge Value.key target source.toList =
      (target.toList ++ Sequence.missing target.toList source.toList).toArray := by
    rw [← Sequence.toList_merge (fun _ _ => Value.eq_of_key_eq), Array.toArray_toList]
  have hupdate :
    (Effect.updateItems a fun items => Sequence.merge Value.key items source.toList).perform s =
      some ((), s.withItems a (target.toList ++ Sequence.missing target.toList source.toList)) := by
    rw [Effect.perform, if_pos (Store.contains_iff.mpr ⟨_, ha⟩), Interp.withItems, ← hmerge]
    have hset :=
      Store.modify_congr (f := Object.mapItems fun items =>
        Sequence.merge Value.key items source.toList)
      (g := fun _ => .list (Sequence.merge Value.key target source.toList)) ha rfl
    rw [hset, Store.set]
  refine (ends_listRefArg_bind ha).trans ((Finds.listArg hb).bind.trans ?_)
  constructor
  · intro h
    obtain ⟨_, s₁, hperform, hdone⟩ := ends_perform_bind.mp h
    cases hupdate.symm.trans hperform
    cases hdone
    exact ⟨rfl, rfl⟩
  · rintro ⟨rfl, rfl⟩
    exact .effect hupdate (.done _ _)

/-- Merging is a union that keeps the order. It ends in one way only, and no other object changes:
the target keeps its items and gets those members of the source that it does not have, each once and
in the order of their first occurrences in the source. Then it has all members of the source, and
merging them again changes nothing. The source may be the target itself. -/
theorem Interp.merge_is_ordered_union (scope : Addr) (ha : s.store.get? a = some (.list target))
    (hb : s.store.get? b = some (.list source)) :
    let added := Sequence.missing target.toList source.toList
    let merged := s.withItems a (target.toList ++ added)
    (∀ r s',
      (∃ fuel, s.run fuel (Eval.runPrimitive scope .merge [.ref a, .ref b]) = .finished r s') ↔
      r = .ok (.ref a) ∧ s' = merged) ∧
    merged.store.get? a = some (.list (target.toList ++ added).toArray) ∧
    (∀ c ≠ a, merged.store.get? c = s.store.get? c) ∧
    (∀ v, v ∈ added ↔ v ∈ source.toList ∧ v ∉ target.toList) ∧ added.Nodup ∧
    added.Pairwise (source.toList.idxOf · < source.toList.idxOf ·) ∧
    (∀ v ∈ source.toList, v ∈ target.toList ++ added) ∧
    ∀ r s',
      (∃ fuel, merged.run fuel (Eval.runPrimitive scope .merge [.ref a, .ref b]) = .finished r s') ↔
      r = .ok (.ref a) ∧ s' = merged := by
  intro added merged
  have hmerged : merged.store.get? a = some (.list (target.toList ++ added).toArray) :=
    get?_withItems ha _
  refine ⟨fun r s' => run_finished_iff.trans (Eval.ends_merge scope ha hb), hmerged, fun c hc =>
    get?_withItems_of_ne hc s _,
    fun v => Sequence.mem_missing, Sequence.nodup_missing _ _, Sequence.pairwise_missing _ _,
    fun v hv => Sequence.mem_append_missing hv, fun r s' => run_finished_iff.trans ?_⟩
  -- the source is still the same, unless it is the target, and the target has all its members
  -- either way
  obtain ⟨later, hlater, hmem⟩ : ∃ later : Array Value, merged.store.get? b = some (.list later) ∧
      ∀ v ∈ later.toList, v ∈ (target.toList ++ added).toArray.toList := by
    by_cases hab : b = a
    · rw [hab]
      exact ⟨_, hmerged, fun v hv => hv⟩
    · exact ⟨source, (get?_withItems_of_ne hab s _).trans hb, fun v hv =>
        Sequence.mem_append_missing hv⟩
  rw [Eval.ends_merge scope hmerged hlater, Sequence.missing_eq_nil hmem, List.append_nil,
    withItems_eq_self hmerged]

/-- A member that comes twice is taken up once, one that is there already is not, and the target
keeps an item that it has twice. -/
theorem Interp.merge_is_ordered_union_twice :
    let s₁ := ((bare ⟨1, 65536, false⟩ .empty 0).alloc (.list #[.num 1, .num 1])).2
    let s := (s₁.alloc (.list #[.num 2, .num 1, .t, .num 2])).2
    ∃ fuel s', s.run fuel (Eval.runPrimitive ⟨0⟩ .merge [.ref ⟨1⟩, .ref ⟨2⟩]) =
      .finished (.ok (.ref ⟨1⟩)) s' ∧
      s'.store.get? ⟨1⟩ = some (.list #[.num 1, .num 1, .num 2, .t]) ∧
      s'.store.get? ⟨2⟩ = some (.list #[.num 2, .num 1, .t, .num 2]) := by
  intro s₁ s
  have htarget : s.store.get? ⟨1⟩ = some (.list #[.num 1, .num 1]) := rfl
  have hsource : s.store.get? ⟨2⟩ = some (.list #[.num 2, .num 1, .t, .num 2]) := rfl
  obtain ⟨hends, hmerged, hothers, _⟩ := merge_is_ordered_union ⟨0⟩ htarget hsource
  obtain ⟨fuel, hrun⟩ := (hends _ _).mpr ⟨rfl, rfl⟩
  exact ⟨fuel, _, hrun, hmerged, (hothers ⟨2⟩ (by decide)).trans hsource⟩

end HeapLisp
