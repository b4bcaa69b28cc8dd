import HeapLisp.Proofs.Sequences.Contents

namespace HeapLisp

variable {s s₁ s' : Interp} {x : Eval Value} {scope a : Addr} {v : Value} {c : Contents}
  {ref : SeqRef} {kind : FaultKind}

namespace Interp

/-- The evaluation makes a new sequence, and nothing else changes. -/
structure Makes (s : Interp) (x : Eval Value) (c : Contents) (a : Addr) (s' : Interp) : Prop where
  run : ∃ fuel, s.run fuel x = .finished (.ok (.ref a)) s'
  new : s.store.get? a = none
  contents : s'.contents? (.ref a) = some c
  gains : s.Gains s'

/-- The evaluation comes to the element at an index: an item, or a new string of one byte. -/
inductive Picks (s : Interp) (x : Eval Value) (i : Nat) : Contents → Value → Interp → Prop where
  | item {values : List Value} {v : Value} (hitem : values[i]? = some v)
    (hrun : ∃ fuel, s.run fuel x = .finished (.ok v) s) :
    Picks s x i (.items values) v s
  | byte {text : Bytes} {b : UInt8} {a : Addr} {s' : Interp} (hbyte : text[i]? = some b)
    (h : s.Makes x (.bytes [b]) a s') :
    Picks s x i (.bytes text) (.ref a) s'

/-- The evaluation fails with a new error of the kind, and nothing else changes. -/
def Refuses (s : Interp) (x : Eval Value) (kind : FaultKind) : Prop :=
  ∃ fuel e failure s', s.run fuel x = .finished (.error e) s' ∧
    s'.store.get? e = some (.failure failure) ∧
    failure.fault.kind = kind ∧ s.Gains s'

theorem makes_of_ends (hs : s.store.Intact) (hc : c.Live s.store)
    (h : x.Ends s (.ok (.ref s.store.next)) (s.alloc c.object).2) :
    s.Makes x c s.store.next (s.alloc c.object).2 where
  run := run_finished_iff.mpr h
  new := hs.get?_next
  contents := contents?_object (hs.get?_insert_next c.object)
  gains := .alloc hs hc.children

theorem refuses_of_raise {α : Type} (fault : Fault) (hs : s.Gains s₁) (hscope : s₁.HasScope scope)
    (hv : v.Live s₁.store)
    (h : ∀ {e s'}, (Eval.raise scope fault v : Eval α).Ends s₁ (.error e) s' →
      x.Ends s (.error e) s') :
    s.Refuses x fault.kind := by
  obtain ⟨location, hraise⟩ := Eval.exists_raise_ends (α := α) hscope.intact hscope.live fault v
  obtain ⟨fuel, hrun⟩ := run_finished_iff.mpr (h hraise)
  have hchildren : ∀ a ∈ (Object.failure ⟨fault, location, v⟩).children,
      s₁.store.contains a = true := by
    intro a ha
    exact hv a (Object.mem_children_failure.mp ha)
  exact ⟨fuel, _, ⟨fault, location, v⟩, _, hrun, hs.intact.get?_insert_next _, rfl,
    hs.trans (.alloc hs.intact hchildren)⟩

/-- Some errors are about a new list of values. -/
theorem refuses_of_newList {args : List Value} (fault : Fault) (hs : s.HasScope scope)
    (hargs : ∀ v ∈ args, v.Live s.store)
    (h : ∀ {r s'}, (do Eval.raise scope fault (← Eval.newList args) : Eval Value).Ends s r s' →
      x.Ends s r s') :
    s.Refuses x fault.kind := by
  have hgains : s.Gains (s.alloc (.list args.toArray)).2 := by
    apply Gains.alloc hs.intact
    intro a ha
    exact hargs (.ref a) (Object.mem_children_list.mp ha) a rfl
  have hnew : (s.alloc (.list args.toArray)).2.store.get? s.store.next =
      some (.list args.toArray) :=
    hs.intact.get?_insert_next _
  exact refuses_of_raise fault hgains (hgains.hasScope hs) (Value.live_ref hnew) fun hraise =>
    h (.effect rfl hraise)

/-- The evaluation gives a value exactly if the condition holds, and is refused with an error of the
kind exactly if not. -/
structure Settles (s : Interp) (x : Eval Value) (ok : Prop) (kind : FaultKind) : Prop where
  ok_iff : (∃ fuel v s', s.run fuel x = .finished (.ok v) s') ↔ ok
  refuses_iff : s.Refuses x kind ↔ ¬ok

theorem Settles.of_cases {ok : Prop} (hok : ok → ∃ fuel v s', s.run fuel x = .finished (.ok v) s')
    (hno : ¬ok → s.Refuses x kind) :
    s.Settles x ok kind := by
  -- An evaluation ends in one way only, so it does not both give a value and fail.
  have hnot (h : s.Refuses x kind) : ¬∃ fuel v s', s.run fuel x = .finished (.ok v) s' := by
    rintro ⟨fuel, v, s', hrun⟩
    obtain ⟨fuel', e, _, s₁, herror, _⟩ := h
    cases ((run_finished_iff.mp ⟨fuel, hrun⟩).unique (run_finished_iff.mp ⟨fuel', herror⟩)).1
  refine ⟨⟨fun h => ?_, hok⟩, ⟨fun h hok' => hnot h (hok hok'), hno⟩⟩
  by_contra hcontra
  exact hnot (hno hcontra) h

theorem Picks.gains {i : Nat} (hs : s.store.Intact) (h : s.Picks x i c v s') : s.Gains s' := by
  cases h with
  | item => exact .refl hs
  | byte _ h => exact h.gains

theorem Picks.exists_run {i : Nat} (h : s.Picks x i c v s') :
    ∃ fuel, s.run fuel x = .finished (.ok v) s' := by
  cases h with
  | item _ hrun => exact hrun
  | byte _ h => exact h.run

theorem exists_str {text : Bytes} (h : s.contents? (.ref a) = some (.bytes text)) :
    ∃ packed, Bytes.ofPacked packed = text ∧ s.store.get? a = some (.str packed) := by
  rw [contents?] at h
  split at h <;> cases h
  exact ⟨_, rfl, ‹_›⟩

theorem Held.finds_items {values : List Value} (h : s.Held ref (.items values)) :
    ∃ items : Array Value, items.toList = values ∧ Eval.Finds s (Eval.seqItems ref) items := by
  cases h with
  | list h => exact ⟨_, rfl, .itemsAt h⟩

/-- The bytes of a string or a name are found. -/
theorem Held.finds_text {text : Bytes} (h : s.Held ref (.bytes text)) :
    ref.isList = false ∧ ∃ packed, Bytes.ofPacked packed = text ∧
    Eval.Finds s (Eval.seqText ref) packed := by
  cases h with
  | str h => exact ⟨rfl, _, rfl, (Eval.Finds.fetch h).andThen (.pure s _)⟩
  | name h => exact ⟨rfl, _, rfl, .spelling h⟩

end Interp

namespace Eval

variable {i m n : Nat} {k : Int64}

theorem Finds.boundArg {length : Nat} (h : 0 ≤ k.toInt ∧ k.toInt ≤ length) :
    Finds s (boundArg scope (.num k) length) k.toInt.toNat := by
  have harg : Eval.boundArg scope (.num k) length = .done k.toInt.toNat := by
    unfold Eval.boundArg numArg
    dsimp only [Pure.pure, Bind.bind, Eval.bind]
    rw [Sequence.within?_eq_some h]
  rw [harg]
  exact .pure s _

theorem boundArg_eq_raise {length : Nat} (h : ¬(0 ≤ k.toInt ∧ k.toInt ≤ length)) :
    boundArg scope (.num k) length = raise scope .outOfBounds (.num k) := by
  unfold boundArg numArg
  dsimp only [Pure.pure, Bind.bind, Eval.bind]
  rw [Sequence.within?_eq_none h]

theorem Finds.indexArg {length : Nat} (h : 0 ≤ k.toInt ∧ k.toInt < length) :
    Finds s (indexArg scope (.num k) length) k.toInt.toNat := by
  have harg : Eval.indexArg scope (.num k) length = .done k.toInt.toNat := by
    unfold Eval.indexArg numArg Sequence.index?
    dsimp only [Pure.pure, Bind.bind, Eval.bind]
    rw [if_pos h]
  rw [harg]
  exact .pure s _

theorem indexArg_eq_raise {length : Nat} (h : ¬(0 ≤ k.toInt ∧ k.toInt < length)) :
    indexArg scope (.num k) length = raise scope .outOfBounds (.num k) := by
  unfold indexArg numArg Sequence.index?
  dsimp only [Pure.pure, Bind.bind, Eval.bind]
  rw [if_neg h]

theorem seqSlice_of_text (h : ref.isList = false) :
    seqSlice ref m n = seqText ref >>= partOf m n := by
  cases ref with
  | list a => cases h
  | str | sym => rfl

/-- The part of a sequence between two bounds. -/
theorem ends_seqSlice (h : s.Held ref c) (hm : m ≤ n) (hn : n ≤ c.length) :
    (seqSlice ref m n).Ends s (.ok (some (.ref s.store.next))) (s.alloc (c.part m n).object).2 := by
  cases c with
  | items values =>
    cases h with
    | @list a items ha =>
      refine (Finds.itemsAt ha).bind.mpr ?_
      rw [Sequence.slice?, if_pos ⟨hm, hn⟩, Contents.part, ← Array.toList_extract]
      exact .effect rfl (.done _ _)
  | bytes text =>
    obtain ⟨hlist, packed, rfl, htext⟩ := h.finds_text
    rw [Contents.length, Text.length_ofPacked] at hn
    have hpart : (Bytes.ofPacked packed).extract m n = Bytes.ofPacked (packed.extract m n) := by
      rw [Bytes.ofPacked_eq, Bytes.ofPacked_eq, ByteArray.data_extract, Array.toList_extract]
    rw [seqSlice_of_text hlist, htext.bind, partOf, Text.slice?, if_pos ⟨hm, hn⟩, Contents.part,
      hpart, Contents.object_bytes]
    exact .effect rfl (.done _ _)

/-- Between bounds in the wrong order there is no part. -/
theorem finds_seqSlice_none (h : s.Held ref c) (hm : ¬m ≤ n) : Finds s (seqSlice ref m n) none := by
  cases c with
  | items values =>
    cases h with
    | list ha =>
      refine (Finds.itemsAt ha).andThen ?_
      rw [Sequence.slice?, if_neg fun h => hm h.1]
      exact .pure s none
  | bytes text =>
    obtain ⟨hlist, packed, rfl, htext⟩ := h.finds_text
    rw [seqSlice_of_text hlist]
    refine htext.andThen ?_
    rw [partOf, Text.slice?, if_neg fun h => hm h.1]
    exact .pure s none

/-- What is done with a sequence and its length. -/
theorem exists_seqArg (scope : Addr) (h : s.contents? v = some c) : ∃ ref, s.Held ref c ∧
    ∀ {f : SeqRef → Nat → Eval Value} {r s'},
      (seqArg scope v >>= fun ref => seqLength ref >>= f ref).Ends s r s' ↔
      (f ref c.length).Ends s r s' := by
  obtain ⟨ref, href, hheld⟩ := Interp.exists_held h
  refine ⟨ref, hheld, fun {f r s'} => ?_⟩
  rw [(Finds.seqArg href).bind, (Finds.seqLength href).bind, hheld.seqLength_eq]

theorem seqElem_of_text (h : ref.isList = false) : seqElem ref i = seqText ref >>= byteAt i := by
  cases ref with
  | list a => cases h
  | str | sym => rfl

theorem finds_isEql_self (s : Interp) (v : Value) : Finds s (isEql v v) true := by
  unfold isEql
  rw [if_pos rfl]
  exact .pure s true

theorem finds_isEql_bytes {b : Addr} {text : Bytes} (ha : s.contents? (.ref a) = some (.bytes text))
    (hb : s.contents? (.ref b) = some (.bytes text)) : Finds s (isEql (.ref a) (.ref b)) true := by
  obtain ⟨x, rfl, hx⟩ := Interp.exists_str ha
  obtain ⟨y, hxy, hy⟩ := Interp.exists_str hb
  rw [Bytes.ofPacked_inj] at hxy
  subst hxy
  unfold isEql
  split
  · exact .pure s true
  · have hsame : s.store.sameText a b = some true := by
      rw [Store.sameText, hx, hy]
      exact congrArg some (Text.same_iff.mpr rfl)
    exact .perform (by rw [Effect.perform, hsame])

end Eval

namespace Interp

variable {i m n : Nat} {j k : Int64}

/-- Between bounds inside a sequence, a slice is a new sequence with that part. -/
theorem exists_slice_makes (hs : s.HasScope scope) (hv : s.contents? v = some c)
    (h : 0 ≤ j.toInt ∧ j.toInt ≤ k.toInt ∧ k.toInt ≤ c.length) :
    ∃ a s', s.Makes (Eval.runPrimitive scope .slice [.num j, .num k, v])
      (c.part j.toInt.toNat k.toInt.toNat) a s' := by
  obtain ⟨ref, hheld, hends⟩ := Eval.exists_seqArg scope hv
  have hpart := Eval.ends_seqSlice (m := j.toInt.toNat) (n := k.toInt.toNat) hheld
    (by omega) (by omega)
  refine ⟨_, _, makes_of_ends hs.intact ((contents_live hs.intact hv).part _ _) (hends.mpr ?_)⟩
  rw [(Eval.Finds.boundArg (by omega)).bind, (Eval.Finds.boundArg (by omega)).bind]
  exact Eval.ends_bind.mpr (.inl ⟨_, _, hpart, .done _ _⟩)

/-- Otherwise a slice is refused: one bound is outside, or they are in the wrong order. -/
theorem slice_refuses (hs : s.HasScope scope) (hv : s.contents? v = some c)
    (h : ¬(0 ≤ j.toInt ∧ j.toInt ≤ k.toInt ∧ k.toInt ≤ c.length)) :
    s.Refuses (Eval.runPrimitive scope .slice [.num j, .num k, v]) .index := by
  obtain ⟨ref, hheld, hends⟩ := Eval.exists_seqArg scope hv
  have hself := Gains.refl hs.intact
  by_cases hj : 0 ≤ j.toInt ∧ j.toInt ≤ c.length
  · by_cases hk : 0 ≤ k.toInt ∧ k.toInt ≤ c.length
    · have hnone :=
        Eval.finds_seqSlice_none (m := j.toInt.toNat) (n := k.toInt.toNat) hheld (by omega)
      have hbounds : ∀ w ∈ [Value.num j, Value.num k], w.Live s.store := by
        simp [Value.live_num]
      refine refuses_of_newList .outOfBounds hs hbounds fun hraise => hends.mpr ?_
      rw [(Eval.Finds.boundArg hj).bind, (Eval.Finds.boundArg hk).bind, hnone.bind]
      exact hraise
    · refine refuses_of_raise (α := Nat) .outOfBounds hself hs (Value.live_num _ k) fun hraise =>
        hends.mpr ?_
      rw [(Eval.Finds.boundArg hj).bind, Eval.boundArg_eq_raise hk]
      exact Eval.ends_bind.mpr (.inr ⟨_, hraise, rfl⟩)
  · refine refuses_of_raise (α := Nat) .outOfBounds hself hs (Value.live_num _ j) fun hraise =>
      hends.mpr ?_
    rw [Eval.boundArg_eq_raise hj]
    exact Eval.ends_bind.mpr (.inr ⟨_, hraise, rfl⟩)

/-- An index inside a sequence has an element. -/
theorem exists_elem_picks (hs : s.HasScope scope) (hv : s.contents? v = some c)
    (h : 0 ≤ k.toInt ∧ k.toInt < c.length) :
    ∃ w s', s.Picks (Eval.runPrimitive scope .elem [.num k, v]) k.toInt.toNat c w s' := by
  obtain ⟨ref, hheld, hends⟩ := Eval.exists_seqArg scope hv
  have hindex : k.toInt.toNat < c.length := by omega
  have helem {w : Value} {s' : Interp}
      (hw : (Eval.seqElem ref k.toInt.toNat).Ends s (.ok (some w)) s') :
      (Eval.runPrimitive scope .elem [.num k, v]).Ends s (.ok w) s' := by
    refine hends.mpr ?_
    rw [(Eval.Finds.indexArg h).bind]
    exact Eval.ends_bind.mpr (.inl ⟨some w, s', hw, .done w s'⟩)
  cases c with
  | items values =>
    cases hheld with
    | @list a items ha =>
      have hitem : items.toList[k.toInt.toNat]? = some items.toList[k.toInt.toNat] :=
        List.getElem?_eq_getElem hindex
      refine ⟨_, s,
        .item hitem (run_finished_iff.mpr (helem ((Eval.Finds.itemsAt ha).bind.mpr ?_)))⟩
      rw [Sequence.elem?, ← Array.getElem?_toList, hitem]
      exact .done _ s
  | bytes text =>
    obtain ⟨hlist, packed, rfl, htext⟩ := hheld.finds_text
    rw [Contents.length, Text.length_ofPacked] at hindex
    have hbyte : (Bytes.ofPacked packed)[k.toInt.toNat]? = some packed[k.toInt.toNat] := by
      rw [Bytes.ofPacked_eq, Array.getElem?_toList, ← Sequence.elem?, ← Text.elem?_eq, Text.elem?,
        getElem?_pos]
    refine ⟨_, _, .byte hbyte (makes_of_ends hs.intact trivial (helem ?_))⟩
    rw [Eval.seqElem_of_text hlist, htext.bind, Eval.byteAt, Text.elem?,
      getElem?_pos packed _ hindex]
    exact Eval.ends_newStr_some.mpr ⟨rfl, rfl⟩

theorem elem_refuses (hs : s.HasScope scope) (hv : s.contents? v = some c)
    (h : ¬(0 ≤ k.toInt ∧ k.toInt < c.length)) :
    s.Refuses (Eval.runPrimitive scope .elem [.num k, v]) .index := by
  obtain ⟨ref, hheld, hends⟩ := Eval.exists_seqArg scope hv
  refine refuses_of_raise (α := Nat) .outOfBounds (.refl hs.intact) hs (Value.live_num _ k)
    fun hraise => hends.mpr ?_
  rw [Eval.indexArg_eq_raise h]
  exact Eval.ends_bind.mpr (.inr ⟨_, hraise, rfl⟩)

/-- An element of a part is equal to that of the whole. -/
theorem Picks.exists_eql {y : Eval Value} {w : Value} (h : s.Picks x i (c.part m n) v s₁)
    (h' : s₁.Picks y (m + i) c w s') (hi : m + i < n) (scope : Addr) :
    ∃ fuel, s'.run fuel (Eval.runPrimitive scope .eql [v, w]) = .finished (.ok .t) s' := by
  have getElem {α : Type} (xs : List α) : (xs.extract m n)[i]? = xs[m + i]? := by
    have hlt : i < n - m := by omega
    rw [List.extract_eq_take_drop, List.getElem?_take_of_lt hlt, List.getElem?_drop]
  have heql : Eval.Finds s' (Eval.isEql v w) true := by
    cases c with
    | items values =>
      cases h with
      | item hitem _ =>
        cases h' with
        | item hitem' _ =>
          rw [getElem values, hitem'] at hitem
          cases hitem
          exact Eval.finds_isEql_self _ _
    | bytes text =>
      cases h with
      | byte hbyte h =>
        cases h' with
        | byte hbyte' h' =>
          rw [getElem text, hbyte'] at hbyte
          cases hbyte
          exact Eval.finds_isEql_bytes (h'.gains.contents? h.contents) h'.contents
  exact run_finished_iff.mpr (heql.bind.mpr (.done _ s'))

end Interp

end HeapLisp
