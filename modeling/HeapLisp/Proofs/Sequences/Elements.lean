import HeapLisp.Proofs.Sequences.Bounds
import HeapLisp.Proofs.Store.Additions

namespace HeapLisp

variable {s s₁ s' : Interp} {scope : Addr} {v : Value} {seqs : List SeqRef} {ref : SeqRef} {i : Nat}

namespace Interp

/-- The value is the element of a sequence at an index: an item of a list, or a string of one
byte. -/
inductive ElemAt (s : Interp) (i : Nat) : SeqRef → Value → Prop where
  | item {a : Addr} {items : Array Value} {v : Value} (hlist : s.store.get? a = some (.list items))
    (hitem : items[i]? = some v) :
    ElemAt s i (.list a) v
  | byte {a c : Addr} {text : ByteArray} {b : UInt8} (htext : s.store.get? a = some (.str text))
    (hbyte : text[i]? = some b)
    (hstr : s.store.get? c = some (.str [b].toByteArray)) : ElemAt s i (.str a) (.ref c)
  | letter {x : Symbol} {name : ByteArray} {c : Addr} {b : UInt8}
    (hname : s.symbols.spelling? x = some name) (hbyte : name[i]? = some b)
    (hstr : s.store.get? c = some (.str [b].toByteArray)) : ElemAt s i (.sym x) (.ref c)

theorem ElemAt.adds (h : s.ElemAt i ref v) (hs : s.OnlyAdds s') : s'.ElemAt i ref v := by
  cases h with
  | item hlist hitem => exact .item (hs.changed hlist) hitem
  | byte htext hbyte hstr => exact .byte (hs.changed htext) hbyte (hs.changed hstr)
  | letter hname hbyte hstr =>
    rw [← hs.symbols] at hname
    exact .letter hname hbyte (hs.changed hstr)

/-- New objects do not change the length of a sequence that is there. -/
theorem Alters.seqLength_eq (h : s.OnlyAdds s') (hpos : 0 < s.seqLength ref) :
    s'.seqLength ref = s.seqLength ref := by
  cases ref with
  | list a | str a =>
    cases ha : s.store.get? a with
    | none => simp [seqLength, ha] at hpos
    | some o => simp [seqLength, ha, h.changed ha]
  | sym x => rw [seqLength, seqLength, h.symbols]

end Interp

namespace Eval

variable {found : Option Value} {args before : List Value}

theorem ends_newStr_some {bytes : Bytes} {r : Except Addr (Option Value)} :
    (newStr bytes >>= fun v => return some v).Ends s r s' ↔
      r = .ok (some (.ref s.store.next)) ∧ s' = (s.alloc (.str bytes.toByteArray)).2 := by
  constructor
  · intro h
    cases h with
    | effect he hk =>
      cases he
      cases hk
      exact ⟨rfl, rfl⟩
  · rintro ⟨rfl, rfl⟩
    exact .effect rfl (.done _ _)

theorem Ends.of_byteAt {text : ByteArray} (hw : s.store.WellFormed)
    (h : (byteAt i text).Ends s (.ok found) s') :
    s.OnlyAdds s' ∧ ∀ v, found = some v → ∃ b c, v = .ref c ∧ text[i]? = some b ∧
    s'.store.get? c = some (.str [b].toByteArray) := by
  unfold byteAt at h
  split at h
  · rename_i b hb
    obtain ⟨hfound, rfl⟩ := ends_newStr_some.mp h
    cases hfound
    refine ⟨.alloc hw _, ?_⟩
    intro v hv
    cases hv
    exact ⟨b, _, rfl, hb, Interp.get?_alloc hw _⟩
  · cases h
    exact ⟨.refl hw, fun v hv => by cases hv⟩

theorem exists_byteAt_ends {text : ByteArray} (h : i < text.size) :
    ∃ v s', (byteAt i text).Ends s (.ok (some v)) s' := by
  unfold byteAt
  rw [Text.elem?, getElem?_pos text i h]
  exact ⟨_, _, ends_newStr_some.mpr ⟨rfl, rfl⟩⟩

/-- An element that is found is the one at the index. -/
theorem Ends.of_seqElem (hw : s.store.WellFormed) (h : (seqElem ref i).Ends s (.ok found) s') :
    s.OnlyAdds s' ∧ ∀ v, found = some v → s'.ElemAt i ref v := by
  cases ref with
  | list a =>
    obtain ⟨items, s₁, hitems, hrest⟩ | ⟨e, _, hr⟩ := ends_bind.mp h
    · obtain ⟨o, ho, hitems⟩ := ends_fetch_bind.mp hitems
      split at hitems
      · cases hitems
        cases hrest
        exact ⟨.refl hw, fun v hv => .item ho hv⟩
      · cases hitems
        cases hrest
        exact ⟨.refl hw, fun v hv => by simp [Sequence.elem?] at hv⟩
    · cases hr
  | str a =>
    have h : (seqText (.str a) >>= byteAt i).Ends s (.ok found) s' := h
    obtain ⟨text, s₁, htext, hrest⟩ | ⟨e, _, hr⟩ := ends_bind.mp h
    · obtain ⟨o, ho, htext⟩ := ends_fetch_bind.mp htext
      split at htext
      · cases htext
        obtain ⟨hadds, hbyte⟩ := hrest.of_byteAt hw
        refine ⟨hadds, ?_⟩
        intro v hv
        obtain ⟨b, c, rfl, hb, hc⟩ := hbyte v hv
        exact .byte (hadds.changed ho) hb hc
      · cases htext
        cases hrest
        exact ⟨.refl hw, fun v hv => by cases hv⟩
    · cases hr
  | sym x =>
    have h : (seqText (.sym x) >>= byteAt i).Ends s (.ok found) s' := h
    obtain ⟨name, s₁, hname, hrest⟩ := ends_perform_bind.mp h
    rw [Effect.perform] at hname
    split at hname
    · cases hname
    · rename_i hx
      cases hname
      obtain ⟨hadds, hbyte⟩ := hrest.of_byteAt hw
      refine ⟨hadds, ?_⟩
      intro v hv
      obtain ⟨b, c, rfl, hb, hc⟩ := hbyte v hv
      rw [← hadds.symbols] at hx
      exact .letter hx hb hc

theorem exists_seqElem_ends (h : i < s.seqLength ref) :
    ∃ v s', (seqElem ref i).Ends s (.ok (some v)) s' := by
  cases ref with
  | list a =>
    rw [Interp.seqLength] at h
    split at h
    · rename_i items ha
      refine ⟨items[i], s, (Finds.itemsAt ha).bind.mpr ?_⟩
      rw [Sequence.elem?, Array.getElem?_eq_getElem h]
      exact .done _ s
    · cases h
  | str a =>
    rw [Interp.seqLength] at h
    split at h
    · rename_i text ha
      have htext : Finds s (seqText (.str a)) text := (Finds.fetch ha).andThen (.pure s text)
      obtain ⟨v, s', hbyte⟩ := exists_byteAt_ends h
      exact ⟨v, s', htext.bind.mpr hbyte⟩
    · cases h
  | sym x =>
    rw [Interp.seqLength] at h
    split at h
    · rename_i name hx
      obtain ⟨v, s', hbyte⟩ := exists_byteAt_ends h
      exact ⟨v, s', (Finds.spelling hx).bind.mpr hbyte⟩
    · cases h

/-- The elements of several sequences are those at the index, and only new strings are added for
them. -/
theorem Ends.of_elemsAt (hw : s.store.WellFormed)
    (h : (elemsAt scope i before seqs).Ends s (.ok args) s') :
    s.OnlyAdds s' ∧ ∃ elems, args = before.reverse ++ elems ∧
    List.Forall₂ (s'.ElemAt i) seqs elems := by
  induction seqs generalizing before s with
  | nil =>
    cases h
    exact ⟨.refl hw, [], (List.append_nil _).symm, .nil⟩
  | cons ref seqs ih =>
    obtain ⟨found, s₁, helem, hrest⟩ | ⟨e, _, hr⟩ := ends_bind.mp h
    · obtain ⟨hadds, hfound⟩ := helem.of_seqElem hw
      cases found with
      | none =>
        obtain ⟨_, hr, _⟩ := Ends.of_raise hrest
        cases hr
      | some v =>
        obtain ⟨hadds', elems, rfl, helems⟩ := ih hadds.wellFormed hrest
        refine ⟨hadds.trans hadds', v :: elems, ?_, .cons ((hfound v rfl).adds hadds') helems⟩
        rw [List.reverse_cons, List.append_assoc, List.singleton_append]
    · cases hr

/-- At an index inside all of them, several sequences have elements. -/
theorem exists_elemsAt_ends (scope : Addr) (hw : s.store.WellFormed)
    (h : ∀ ref ∈ seqs, i < s.seqLength ref) (before : List Value) :
    ∃ args s', (elemsAt scope i before seqs).Ends s (.ok args) s' := by
  induction seqs generalizing before s with
  | nil => exact ⟨_, s, .done _ s⟩
  | cons ref seqs ih =>
    obtain ⟨v, s₁, helem⟩ := exists_seqElem_ends (h ref (.head _))
    obtain ⟨hadds, _⟩ := helem.of_seqElem hw
    -- The string made for the first element may stand at an address that was free, but not at that
    -- of a sequence with an element.
    have hlater : ∀ ref ∈ seqs, i < s₁.seqLength ref := by
      intro ref href
      have hlt := h ref (.tail _ href)
      rwa [hadds.seqLength_eq (Nat.zero_lt_of_lt hlt)]
    obtain ⟨args, s', hrest⟩ := ih hadds.wellFormed hlater (v :: before)
    exact ⟨args, s', ends_bind.mpr (.inl ⟨some v, s₁, helem, hrest⟩)⟩

end Eval

end HeapLisp
