import HeapLisp.Proofs.Matching.Stores
import HeapLisp.Proofs.Store.Copying

namespace HeapLisp

namespace Store.IsCopy

variable {st₀ st : Store Object} {v : Value} {copies : Copies}

theorem intact (h : IsCopy st₀ v copies st) (hst₀ : st₀.Intact) : st.Intact where
  toWellFormed := h.wf
  closed {a o} ha c hc := by
    have live {b : Addr} (hb : st₀.contains b = true) : st.contains b = true := by
      obtain ⟨p, hp⟩ := contains_iff.mp hb
      exact contains_iff.mpr ⟨p, h.old hp⟩
    obtain ha | ⟨b, hb⟩ := h.only ha
    · exact live (hst₀.closed ha c hc)
    · obtain ⟨items, hi⟩ := (h.mem_iff.mp ⟨a, hb⟩).get?
      cases ha.symm.trans (h.new hb hi)
      rw [Object.mem_children_list, Array.toList_map, List.mem_map] at hc
      obtain ⟨w, hw, hc⟩ := hc
      cases w with
      | num n => cases hc
      | sym s => cases hc
      | ref d =>
        cases hc
        cases hd : copies[d.index]? with
        | none => exact live (hst₀.closed hi d (Object.mem_children_list.mpr hw))
        | some e =>
          obtain ⟨items', hi'⟩ := (h.mem_iff.mp ⟨e, hd⟩).get?
          exact contains_iff.mpr ⟨_, h.new hd hi'⟩

theorem usesOnly (h : IsCopy st₀ v copies st) {P : Symbol → Prop} (hst₀ : st₀.UsesOnly P) :
    st.UsesOnly P := by
  intro a o ha x hx
  obtain ha | ⟨b, hb⟩ := h.only ha
  · exact hst₀ ha x hx
  · obtain ⟨items, hi⟩ := (h.mem_iff.mp ⟨a, hb⟩).get?
    cases ha.symm.trans (h.new hb hi)
    rw [Object.Uses, Array.toList_map, List.mem_map] at hx
    obtain ⟨w, hw, hx⟩ := hx
    cases w with
    | num n => cases hx
    | ref d => cases hx
    | sym y =>
      cases hx
      exact hst₀ hi x hw

end Store.IsCopy

namespace Matching.Stores

open Store (Copies IsCopy ListWithin redirect)

variable {M : Matching} {st st' st₁ st₁' : Store Object} {v w : Value} {a b : Addr}
  {copies copies' : Copies}

/-- The lists inside matching values match. -/
theorem listWithin (h : M.Stores st st') (hv : M.Values v w) (ha : ListWithin st v a) :
    ∃ b, M.Pair a b ∧ ListWithin st' w b := by
  have list_right {a b : Addr} {items : Array Value} (hp : M.Pair a b)
      (hi : st.get? a = some (.list items)) :
      ∃ items', st'.get? b = some (.list items') ∧ M.Lists items.toList items'.toList := by
    obtain ⟨o, p, ho, hp', _, hop⟩ := h.get hp
    cases ho.symm.trans hi
    cases hop with
    | list hs => exact ⟨_, hp', hs⟩
  induction ha with
  | root hv' hi =>
    subst hv'
    cases hv with
    | ref hp =>
      obtain ⟨items', hi', _⟩ := list_right hp hi
      exact ⟨_, hp, .root rfl hi'⟩
  | item _ hi hb hb' ih =>
    obtain ⟨c, hc, hc'⟩ := ih
    obtain ⟨items', hi', hs⟩ := list_right hc hi
    obtain ⟨y, hy, hxy⟩ := hs.exists_of_mem hb
    cases hxy with
    | ref hd =>
      obtain ⟨_, hd', _⟩ := list_right hd hb'
      exact ⟨_, hd, .item hc' hi' hy hd'⟩

/-- Of matching addresses, both have a copy or none has. -/
theorem copied_right (h : M.Stores st st') (hv : M.Values v w) (hc : IsCopy st v copies st₁)
    (hc' : IsCopy st' w copies' st₁') (hp : M.Pair a b) {c : Addr}
    (ha : copies[a.index]? = some c) :
    ∃ d, copies'[b.index]? = some d := by
  obtain ⟨b', hp', hb⟩ := h.listWithin hv (hc.mem_iff.mp ⟨c, ha⟩)
  cases (hp.eq_iff hp').mp rfl
  exact hc'.mem_iff.mpr hb

/-- The matching with the copies of matching lists. -/
def withCopies (h : M.Stores st st') (hc : IsCopy st v copies st₁)
    (hc' : IsCopy st' w copies' st₁') : Matching where
  pairs k c d := M.pairs k c d ∨ k = .list ∧ ∃ a b, M.Pair a b ∧ copies[a.index]? = some c ∧
    copies'[b.index]? = some d
  form := M.form
  knows := M.knows
  wellKnown := M.wellKnown
  unique := by
    have apart {l : Kind} {a b c d e f : Addr} (hp : M.pairs l a b)
      (hcopy : copies[e.index]? = some c)
        (hcopy' : copies'[f.index]? = some d) : a ≠ c ∧ b ≠ d := by
      obtain ⟨x, y, hx, hy, _⟩ := h.objects hp
      constructor
      · rintro rfl
        rw [hc.fresh hcopy] at hx
        cases hx
      · rintro rfl
        rw [hc'.fresh hcopy'] at hy
        cases hy
    rintro k l c d c' d' (hp | ⟨rfl, a, b, hp, ha, hb⟩) (hp' | ⟨rfl, a', b', hp', ha', hb'⟩)
    · exact M.unique hp hp'
    · simp [apart hp ha' hb']
    · simp [(apart hp' ha hb).1.symm, (apart hp' ha hb).2.symm]
    · constructor
      · rintro rfl
        cases hc.inj ha ha'
        cases (hp.eq_iff hp').mp rfl
        exact Option.some.inj (hb.symm.trans hb')
      · rintro rfl
        cases hc'.inj hb hb'
        cases (hp.eq_iff hp').mpr rfl
        exact Option.some.inj (ha.symm.trans ha')

theorem le_withCopies (h : M.Stores st st') (hc : IsCopy st v copies st₁)
    (hc' : IsCopy st' w copies' st₁') :
    M ≤ h.withCopies hc hc' := ⟨fun _ _ _ hp => .inl hp, fun _ _ _ hf => hf, fun _ hs => hs⟩

theorem redirect (h : M.Stores st st') (hv : M.Values v w) (hc : IsCopy st v copies st₁)
    (hc' : IsCopy st' w copies' st₁') {x y : Value} (hx : M.Values x y) :
    (h.withCopies hc hc').Values (Store.redirect copies x) (Store.redirect copies' y) := by
  cases hx with
  | num n => exact .num n
  | sym hs => exact .sym hs
  | @ref a b hp =>
    rw [Store.redirect, Store.redirect]
    cases ha : copies[a.index]? with
    | some c =>
      obtain ⟨d, hb⟩ := h.copied_right hv hc hc' hp ha
      rw [hb]
      exact .ref ⟨.list, .inr ⟨rfl, a, b, hp, ha, hb⟩⟩
    | none =>
      cases hb : copies'[b.index]? with
      | some d =>
        obtain ⟨c, hc⟩ := h.flip.copied_right hv.flip hc' hc hp.flip hb
        rw [ha] at hc
        cases hc
      | none => exact .ref (hp.mono (h.le_withCopies hc hc'))

theorem stores_withCopies (h : M.Stores st st') (hv : M.Values v w) (hc : IsCopy st v copies st₁)
    (hc' : IsCopy st' w copies' st₁') : (h.withCopies hc hc').Stores st₁ st₁' where
  left := hc.intact h.left
  right := hc'.intact h.right
  leftUses := hc.usesOnly h.leftUses
  rightUses := hc'.usesOnly h.rightUses
  objects := by
    rintro k c d (hp | ⟨rfl, a, b, hp, ha, hb⟩)
    · obtain ⟨o, p, ho, hp, hk, hop⟩ := h.objects hp
      exact ⟨o, p, hc.old ho, hc'.old hp, hk, hop.mono (h.le_withCopies hc hc')⟩
    · obtain ⟨items, hi⟩ := (hc.mem_iff.mp ⟨c, ha⟩).get?
      obtain ⟨o, p, ho, hp', _, hop⟩ := h.get hp
      cases ho.symm.trans hi
      cases hop with
      | list hs =>
        refine ⟨_, _, hc.new ha hi, hc'.new hb hp', rfl, .list ?_⟩
        rw [Array.toList_map, Array.toList_map]
        exact List.forall₂_map_left_iff.mpr (List.forall₂_map_right_iff.mpr
          (hs.imp fun _ _ hx => h.redirect hv hc hc' hx))
  form hf := by
    obtain ⟨ha, hb⟩ := h.form hf
    rw [Store.contains_iff] at ha hb ⊢
    rw [Store.contains_iff]
    exact ⟨ha.imp fun _ ho => hc.old ho, hb.imp fun _ ho => hc'.old ho⟩

theorem frames_withCopies (h : M.Stores st st') (hc : IsCopy st v copies st₁)
    (hc' : IsCopy st' w copies' st₁') :
    M.Frames st' (h.withCopies hc hc') st₁' where
  old := by
    rintro c d ⟨k, hp | ⟨_, a, b, _, _, hb⟩⟩
    · exact .inl ⟨k, hp⟩
    · exact .inr (hc'.fresh hb)
  kept hp _ := hc'.old hp
  live hb := by
    obtain ⟨p, hp⟩ := Store.contains_iff.mp hb
    exact Store.contains_iff.mpr ⟨p, hc'.old hp⟩

theorem deepCopy (h : M.Stores st st') (hov : M.Overt) (hv : M.Values v w) :
    ∃ N r t s₁ s₁', st.deepCopy v = some (r, s₁) ∧ st'.deepCopy w = some (t, s₁') ∧ M ≤ N ∧
      N.knows = M.knows ∧ N.Values r t ∧ N.Overt ∧ N.Stores s₁ s₁' ∧ M.Frames st' N s₁' := by
  obtain ⟨copies, st₁, he, hc⟩ := h.left.deepCopy (h.live_values hv)
  obtain ⟨copies', st₁', he', hc'⟩ := h.right.deepCopy (h.flip.live_values hv.flip)
  have hle := h.le_withCopies hc hc'
  refine ⟨h.withCopies hc hc', _, _, st₁, st₁', he, he', hle, rfl, h.redirect hv hc hc' hv, ?_,
    h.stores_withCopies hv hc hc', h.frames_withCopies hc hc'⟩
  intro k a b hf
  exact (hov _ _ _ hf).mono hle

end Matching.Stores

end HeapLisp
