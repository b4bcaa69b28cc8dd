import HeapLisp.Proofs.Matching.Copies
import HeapLisp.Proofs.Matching.Printing
import HeapLisp.Proofs.Store.Bins
import Mathlib.Data.Set.Function

namespace HeapLisp

/-- A value with another address. -/
def Value.mapAddr (f : Addr → Addr) : Value → Value
  | .ref a => .ref (f a)
  | v => v

namespace Store

variable {st st' : Store Object} {v : Value} {copies : Copies}

/-- Through lists the value leads to numbers, symbols, strings and lists only. -/
def HoldsData (st : Store Object) (v : Value) : Prop :=
  ∀ a, (v = .ref a ∨ ∃ b items, ListWithin st v b ∧ st.get? b = some (.list items) ∧
    .ref a ∈ items.toList) →
    (∃ text, st.get? a = some (.str text)) ∨ ∃ items, st.get? a = some (.list items)

/-- The copy of a list, and the address itself if it has none. -/
def copyOf (copies : Copies) (a : Addr) : Addr := copies[a.index]?.getD a

theorem redirect_eq (copies : Copies) (v : Value) :
    redirect copies v = v.mapAddr (copyOf copies) := by
  cases v <;> rfl

namespace IsCopy

theorem copyOf_eq (h : IsCopy st v copies st') {a : Addr} (ha : ListWithin st v a) :
    copies[a.index]? = some (copyOf copies a) := by
  obtain ⟨c, hc⟩ := h.mem_iff.mpr ha
  rw [copyOf, hc]
  rfl

theorem copyOf_eq_self (h : IsCopy st v copies st') {a : Addr} (ha : ¬ ListWithin st v a) :
    copyOf copies a = a := by
  have hnone : copies[a.index]? = none := by
    apply Option.eq_none_iff_forall_ne_some.mpr
    intro c hc
    exact ha (h.mem_iff.mp ⟨c, hc⟩)
  rw [copyOf, hnone]
  rfl

theorem bijOn_copyOf (h : IsCopy st v copies st') :
    Set.BijOn (copyOf copies) {a | ListWithin st v a} {c | st.get? c = none ∧
      st'.contains c = true} := by
  refine ⟨?_, ?_, ?_⟩
  · intro a ha
    have hcopy := h.copyOf_eq ha
    obtain ⟨items, hitems⟩ := ha.get?
    exact ⟨h.fresh hcopy, contains_iff.mpr ⟨_, h.new hcopy hitems⟩⟩
  · intro a ha b hb heq
    have hcopy := h.copyOf_eq ha
    rw [heq] at hcopy
    exact h.inj hcopy (h.copyOf_eq hb)
  · rintro c ⟨hfresh, hlive⟩
    obtain ⟨o, ho⟩ := contains_iff.mp hlive
    rcases h.only ho with hold | ⟨a, ha⟩
    · rw [hfresh] at hold
      cases hold
    · refine ⟨a, h.mem_iff.mp ⟨c, ha⟩, ?_⟩
      rw [copyOf, ha]
      rfl

theorem get?_copyOf (h : IsCopy st v copies st') {a : Addr} {items : Array Value}
    (ha : ListWithin st v a) (hitems : st.get? a = some (.list items)) :
    st'.get? (copyOf copies a) = some (.list (items.map (Value.mapAddr (copyOf copies)))) := by
  have hcopy := h.new (h.copyOf_eq ha) hitems
  rwa [funext (redirect_eq copies)] at hcopy

/-- Lists match their copies, and strings themselves. -/
def matching (h : IsCopy st v copies st') : Matching where
  pairs k a b := k = .list ∧ ListWithin st v a ∧ b = copyOf copies a ∨ k = .str ∧ a = b ∧
    ∃ text, st.get? a = some (.str text)
  form _ _ _ := False
  knows _ := True
  wellKnown _ := trivial
  unique := by
    -- a list is where no string is, and its copy where no string was
    have apart {a c : Addr} {text : ByteArray} (ha : ListWithin st v a)
        (hc : st.get? c = some (.str text)) :
        a ≠ c ∧ copyOf copies a ≠ c := by
      constructor
      · rintro rfl
        obtain ⟨items, hitems⟩ := ha.get?
        cases hitems.symm.trans hc
      · rintro rfl
        cases (h.fresh (h.copyOf_eq ha)).symm.trans hc
    intro k l a b c d hab hcd
    rcases hab with ⟨_, ha, rfl⟩ | ⟨_, rfl, text, htext⟩ <;>
      rcases hcd with ⟨_, hc, rfl⟩ | ⟨_, rfl, text', htext'⟩
    · exact (h.bijOn_copyOf.injOn.eq_iff ha hc).symm
    · have hne := apart ha htext'
      simp [hne.1, hne.2]
    · have hne := apart hc htext
      simp [hne.1.symm, hne.2.symm]
    · rfl

theorem matching_values (h : IsCopy st v copies st') {w : Value}
    (hw : ∀ a, w = .ref a → (∃ text, st.get? a = some (.str text)) ∨ ListWithin st v a) :
    h.matching.Values w (w.mapAddr (copyOf copies)) := by
  cases w with
  | num n => exact .num n
  | sym s => exact .sym trivial
  | ref a =>
    rcases hw a rfl with ⟨text, htext⟩ | ha
    · have hself : copyOf copies a = a := by
        apply h.copyOf_eq_self
        intro ha
        obtain ⟨items, hitems⟩ := ha.get?
        cases hitems.symm.trans htext
      rw [Value.mapAddr, hself]
      exact .ref ⟨.str, .inr ⟨rfl, rfl, text, htext⟩⟩
    · exact .ref ⟨.list, .inl ⟨rfl, ha, rfl⟩⟩

theorem matching_stores (h : IsCopy st v copies st') (hst : st.Intact) (hdata : st.HoldsData v) :
    h.matching.Stores st st' where
  left := hst
  right := h.intact hst
  leftUses _ _ _ _ _ := trivial
  rightUses _ _ _ _ _ := trivial
  objects := by
    intro k a b hab
    rcases hab with ⟨rfl, ha, rfl⟩ | ⟨rfl, rfl, text, htext⟩
    · obtain ⟨items, hitems⟩ := ha.get?
      refine ⟨_, _, hitems, h.get?_copyOf ha hitems, rfl, .list ?_⟩
      rw [Array.toList_map]
      apply List.forall₂_map_right_iff.mpr
      apply List.forall₂_same.mpr
      intro w hw
      apply h.matching_values
      rintro c rfl
      rcases hdata c (.inr ⟨a, items, ha, hitems, hw⟩) with htext | ⟨items', hitems'⟩
      · exact .inl htext
      · exact .inr (.item ha hitems hw hitems')
    · exact ⟨_, _, htext, h.old htext, rfl, .str text⟩
  form hf := hf.elim

theorem render_copy (h : IsCopy st v copies st') (hst : st.Intact) (hdata : st.HoldsData v)
    (symbols : SymbolTable) (limit : Nat) (style : Style) :
    Printer.render st' symbols limit style (v.mapAddr (copyOf copies)) =
      Printer.render st symbols limit style v := by
  have hv : h.matching.Values v (v.mapAddr (copyOf copies)) := by
    apply h.matching_values
    intro a ha
    rcases hdata a (.inl ha) with htext | ⟨items, hitems⟩
    · exact .inl htext
    · exact .inr (.root ha hitems)
  exact ((h.matching_stores hst hdata).render (fun _ _ _ hf => hf.elim) symbols limit style hv).symm

end IsCopy

/-- In an intact store every live value has a deep copy. The lists inside the value are mapped one
to one to the objects that the copy adds, each to a list with the items mapped; every other address
is mapped to itself, and every object stays as it was. If there is only data inside the value, the
copy has the same text. -/
theorem deepCopy_isomorphic (h : st.Intact) (hv : ∀ a, v = .ref a → st.contains a = true) :
    ∃ f st', st.deepCopy v = some (v.mapAddr f, st') ∧
      Set.BijOn f {a | ListWithin st v a} {c | st.get? c = none ∧ st'.contains c = true} ∧
      (∀ a, ¬ ListWithin st v a → f a = a) ∧
      (∀ a items, ListWithin st v a → st.get? a = some (.list items) →
        st'.get? (f a) = some (.list (items.map (Value.mapAddr f)))) ∧
      (∀ a o, st.get? a = some o → st'.get? a = some o) ∧
      (st.HoldsData v → ∀ symbols limit style,
        Printer.render st' symbols limit style (v.mapAddr f) =
          Printer.render st symbols limit style v) := by
  obtain ⟨copies, st', hcopy, hiscopy⟩ := h.deepCopy hv
  rw [redirect_eq] at hcopy
  refine ⟨copyOf copies, st', hcopy, hiscopy.bijOn_copyOf, ?_, ?_, ?_, ?_⟩
  · intro a ha
    exact hiscopy.copyOf_eq_self ha
  · intro a items ha hitems
    exact hiscopy.get?_copyOf ha hitems
  · intro a o ho
    exact hiscopy.old ho
  · intro hdata symbols limit style
    exact hiscopy.render_copy h hdata symbols limit style

/-- A list that holds another one twice, and itself. -/
theorem deepCopy_isomorphic_cycle :
    let st :=
      ((((Store.empty : Store Object).insert (.str ⟨#[97]⟩)).insert (.list #[.ref ⟨0⟩])).insert
        (.list #[])).modify ⟨2⟩
      fun _ => .list #[.num 1, .ref ⟨1⟩, .ref ⟨1⟩, .ref ⟨2⟩]
    ∃ c d st', st.deepCopy (.ref ⟨2⟩) = some (.ref c, st') ∧ st.get? c = none ∧ d ≠ c ∧
      st'.get? c = some (.list #[.num 1, .ref d, .ref d, .ref c]) ∧
      st'.get? d = some (.list #[.ref ⟨0⟩]) ∧
      Printer.render st' .empty 9 .canonical (.ref c) = Printer.render st .empty 9 .canonical
        (.ref ⟨2⟩) := by
  intro st
  have hst : st.Intact := by
    refine (((Intact.empty.insert ?_).insert ?_).insert ?_).modify ?_
    · simp [Object.children]
    · simp; decide
    · simp
    · simp; decide
  have hlive (a : Addr) (ha : Value.ref ⟨2⟩ = .ref a) : st.contains a = true := by
    cases ha
    decide
  have hdata : st.HoldsData (.ref ⟨2⟩) := by
    intro a ha
    have hcontains : st.contains a = true := by
      rcases ha with ha | ⟨b, items, _, hitems, hmem⟩
      · exact hlive a ha
      · exact hst.closed hitems a (Object.mem_children_list.mpr hmem)
    have hlt := index_lt_of_contains hst.packed hcontains
    have hthree : st.slots.length = 3 := by decide +kernel
    obtain ⟨_ | _ | _ | i⟩ := a
    · exact .inl ⟨_, rfl⟩
    · exact .inr ⟨_, rfl⟩
    · exact .inr ⟨_, rfl⟩
    · dsimp only at hlt
      omega
  have houter : ListWithin st (.ref ⟨2⟩) ⟨2⟩ := .root rfl rfl
  have hinner : ListWithin st (.ref ⟨2⟩) ⟨1⟩ := .item houter rfl (by simp) rfl
  obtain ⟨f, st', hcopy, hbij, hself, hlists, _, htext⟩ := deepCopy_isomorphic hst hlive
  have hstring : f ⟨0⟩ = ⟨0⟩ := by
    apply hself
    intro h
    obtain ⟨items, hitems⟩ := h.get?
    cases hitems
  refine ⟨f ⟨2⟩, f ⟨1⟩, st', hcopy, (hbij.mapsTo houter).1, ?_, ?_, ?_, htext hdata _ _ _⟩
  · intro h
    cases hbij.injOn hinner houter h
  · have hcopied := hlists _ _ houter rfl
    simpa [Value.mapAddr] using hcopied
  · have hcopied := hlists _ _ hinner rfl
    simpa [Value.mapAddr, hstring] using hcopied

end Store

end HeapLisp
