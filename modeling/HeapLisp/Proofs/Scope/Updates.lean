import HeapLisp.Proofs.Scope.Chains

namespace HeapLisp.Store

variable {st : Store Object} {s t : Symbol} {v : Value} {a b e o : Addr} {scope : Scope}
  {chain : List Addr}

/-- The way outwards from `a` comes to `e`, and no scope before it binds the symbol. -/
def ComesTo (st : Store Object) (s : Symbol) (a e : Addr) : Prop :=
  ∃ before rest, st.Chain (some a) (before ++ e :: rest) ∧ ∀ b ∈ before, st.binding s b = none

theorem binding_insert (he : st.get? e = some (.scope scope)) :
    (st.modifyBindings e (·.insert s v)).binding t b =
      if b = e ∧ t = s then some v else st.binding t b := by
  unfold binding local?
  by_cases hb : b = e
  · subst hb
    by_cases ht : t = s <;> simp [Object.mapBindings, he, ht]
  · simp [hb]

theorem exists_scope_of_binding (h : (st.binding s o).isSome) :
    ∃ scope, st.get? o = some (.scope scope) := by
  unfold binding local? at h
  cases hget : st.get? o with
  | none => simp [hget] at h
  | some x =>
    cases x with
    | scope scope => exact ⟨scope, rfl⟩
    | str | list | function | failure | input | output => simp [hget] at h

theorem Chain.modifyBindings (h : st.Chain (some a) chain) (e : Addr) (f : Bindings → Bindings) :
    (st.modifyBindings e f).Chain (some a) chain :=
  h.congr fun b _ => st.parent?_modifyBindings e f b

/-- The owner of a symbol is what a lookup comes to that binds it. -/
theorem Chain.owner?_eq_some_iff (h : st.Chain (some a) chain) :
    st.owner? a s = some (some o) ↔ st.ComesTo s a o ∧ (st.binding s o).isSome := by
  rw [h.owner?_eq, Option.some_inj, List.find?_eq_some_iff_append]
  constructor
  · intro hfind
    obtain ⟨hbound, before, rest, hchain, hbefore⟩ := hfind
    refine ⟨⟨before, rest, hchain ▸ h, fun b hb => ?_⟩, hbound⟩
    simpa using hbefore b hb
  · intro howner
    obtain ⟨⟨before, rest, hchain, hbefore⟩, hbound⟩ := howner
    refine ⟨hbound, before, rest, h.unique hchain, fun b hb => ?_⟩
    simp [hbefore b hb]

theorem ComesTo.lookup_insert (h : st.ComesTo s a e) (he : st.get? e = some (.scope scope)) :
    (st.modifyBindings e (·.insert s v)).lookup a s = some (some v) := by
  obtain ⟨before, rest, hchain, hbefore⟩ := h
  rw [(hchain.modifyBindings e _).lookup_eq]
  clear hchain
  congr 1
  induction before with
  | nil => simp [binding_insert he]
  | cons b before ih =>
    have hb := hbefore b (.head _)
    have ih := ih fun c hc => hbefore c (.tail _ hc)
    by_cases hbe : b = e
    · simp [binding_insert he, hbe]
    · rw [List.cons_append, List.findSome?_cons, binding_insert he, if_neg (by simp [hbe]), hb]
      exact ih

theorem Chain.lookup_insert (h : st.Chain (some a) chain) (he : st.get? e = some (.scope scope))
    (hno : t = s → ¬st.ComesTo s a e) :
    (st.modifyBindings e (·.insert s v)).lookup a t = st.lookup a t := by
  have hsplit : t = s → ∀ before rest, chain = before ++ e :: rest →
      ∃ b ∈ before, st.binding t b ≠ none := by
    intro ht before rest hchain
    by_contra hall
    push Not at hall
    exact hno ht ⟨before, rest, hchain ▸ h, ht ▸ hall⟩
  rw [(h.modifyBindings e _).lookup_eq, h.lookup_eq]
  congr 1
  clear h hno
  induction chain with
  | nil => rfl
  | cons b chain ih =>
    have hb : (st.modifyBindings e (·.insert s v)).binding t b = st.binding t b := by
      rw [binding_insert he, if_neg]
      intro hbe
      obtain ⟨c, hc, _⟩ := hsplit hbe.2 [] chain (by rw [hbe.1]; rfl)
      cases hc
    rw [List.findSome?_cons, List.findSome?_cons, hb]
    cases hv : st.binding t b with
    | some w => rfl
    | none =>
      apply ih
      intro ht before rest hchain
      obtain ⟨c, hc, hbound⟩ := hsplit ht (b :: before) rest (by rw [hchain]; rfl)
      cases hc with
      | head => exact absurd hv hbound
      | tail _ hc => exact ⟨c, hc, hbound⟩

theorem isSome_binding_insert (ho : st.get? o = some (.scope scope))
    (hbound : (st.binding s o).isSome) (t : Symbol) (b : Addr) :
    ((st.modifyBindings o (·.insert s v)).binding t b).isSome = (st.binding t b).isSome := by
  rw [binding_insert ho]
  by_cases hb : b = o ∧ t = s
  · rw [if_pos hb, hb.1, hb.2, hbound]
    rfl
  · rw [if_neg hb]

theorem Chain.owner?_insert (h : st.Chain (some a) chain) (ho : st.get? o = some (.scope scope))
    (hbound : (st.binding s o).isSome) :
    (st.modifyBindings o (·.insert s v)).owner? a t = st.owner? a t := by
  rw [(h.modifyBindings o _).owner?_eq, h.owner?_eq]
  simp only [isSome_binding_insert ho hbound]

/-- Updates touch the lookups they should. An assignment finds the owner of its symbol or changes
nothing; the lookups with that owner give the new value, and all others, all owners and all other
bindings stay. A definition changes the bindings of its scope alone; the lookups that come to that
scope give the new value, and all others stay. -/
theorem updates_touch_their_lookups
    (hchains : ∀ a, st.contains a = true → ∃ chain, st.Chain (some a) chain)
    (he : st.contains e = true) (s : Symbol) (v : Value) :
    (∃ found st', st.assign e s v = some (found, st') ∧ st.owner? e s = some found ∧
      (found = none → st' = st) ∧
      ∀ o, found = some o →
        (∀ a t, st.contains a = true → st'.owner? a t = st.owner? a t ∧
          st'.lookup a t =
            if st.owner? a t = some (some o) ∧ t = s then some (some v) else st.lookup a t) ∧
        (∀ b t, (st'.binding t b).isSome = (st.binding t b).isSome) ∧
        ∀ b, b ≠ o → st'.get? b = st.get? b) ∧
    ∃ found st', st.define e s v = some (found, st') ∧
      (found = true ↔ ∃ scope, st.get? e = some (.scope scope)) ∧ (found = false → st' = st) ∧
      (∀ b, b ≠ e → st'.get? b = st.get? b) ∧
      ∀ scope, st.get? e = some (.scope scope) →
        st'.get? e = some (.scope { scope with bindings := scope.bindings.insert s v }) ∧
        ∀ a t, st.contains a = true → (t = s ∧ st.ComesTo s a e → st'.lookup a t = some (some v)) ∧
          (¬(t = s ∧ st.ComesTo s a e) → st'.lookup a t = st.lookup a t) := by
  have hother (c b : Addr) (hb : b ≠ c) :
      (st.modifyBindings c (·.insert s v)).get? b = st.get? b := by
    simp [hb]
  constructor
  · obtain ⟨chain, hchain⟩ := hchains e he
    cases howner : chain.find? fun b => (st.binding s b).isSome with
    | none =>
      have hnone : st.owner? e s = some none := by rw [hchain.owner?_eq, howner]
      exact ⟨none, st, by rw [assign, hnone], hnone, fun _ => rfl, fun o ho => absurd ho (by simp)⟩
    | some o =>
      have hsome : st.owner? e s = some (some o) := by rw [hchain.owner?_eq, howner]
      have hbound := (hchain.owner?_eq_some_iff.mp hsome).2
      obtain ⟨scope, ho⟩ := exists_scope_of_binding hbound
      refine ⟨some o, _, by rw [assign, hsome], hsome, fun h => absurd h (by simp),
        fun o' ho' => ?_⟩
      cases ho'
      refine ⟨fun a t ha => ?_, fun b t => isSome_binding_insert ho hbound t b, hother o⟩
      obtain ⟨chain', hchain'⟩ := hchains a ha
      refine ⟨hchain'.owner?_insert ho hbound, ?_⟩
      by_cases hown : st.owner? a t = some (some o) ∧ t = s
      · rw [if_pos hown]
        obtain ⟨howner', rfl⟩ := hown
        exact (hchain'.owner?_eq_some_iff.mp howner').1.lookup_insert ho
      · rw [if_neg hown]
        apply hchain'.lookup_insert ho
        intro ht hcomes
        subst ht
        exact hown ⟨hchain'.owner?_eq_some_iff.mpr ⟨hcomes, hbound⟩, rfl⟩
  · obtain ⟨x, hx⟩ := contains_iff.mp he
    cases x with
    | scope scope =>
      refine ⟨true, _, by rw [define, hx], by simp [hx], fun h => absurd h (by simp), hother e,
        fun scope' hs => ?_⟩
      cases hx.symm.trans hs
      refine ⟨get?_modifyBindings_of_scope hx _, fun a t ha => ⟨fun hcomes => ?_, fun hno => ?_⟩⟩
      · obtain ⟨rfl, hcomes⟩ := hcomes
        exact hcomes.lookup_insert hx
      · obtain ⟨chain, hchain⟩ := hchains a ha
        exact hchain.lookup_insert hx fun ht hcomes => hno ⟨ht, hcomes⟩
    | str | list | function | failure | input | output =>
      exact ⟨false, st, by rw [define, hx], by simp [hx], fun _ => rfl, fun _ _ => rfl,
        fun scope hs => by cases hx.symm.trans hs⟩

/-- Two scopes lie inside one that binds a symbol, and the first of them binds it too. Assigned from
the second, it changes for the second and the one around; defined in the one around, it does not
change for the first. -/
theorem updates_touch_their_lookups_shadowed :
    let st :=
      ((((Store.empty.insert (.scope (.inside none))).insert (.scope (.inside (some ⟨0⟩)))).insert
      (.scope (.inside (some ⟨0⟩)))).modifyBindings ⟨0⟩
        (·.put ⟨7⟩ (some (.num 1)))).modifyBindings ⟨1⟩
      (·.put ⟨7⟩ (some (.num 2)))
    (∃ st', st.assign ⟨2⟩ ⟨7⟩ (.num 3) = some (some ⟨0⟩, st') ∧
      st'.lookup ⟨2⟩ ⟨7⟩ = some (some (.num 3)) ∧
      st'.lookup ⟨0⟩ ⟨7⟩ = some (some (.num 3)) ∧ st'.lookup ⟨1⟩ ⟨7⟩ = some (some (.num 2))) ∧
    ∃ st', st.define ⟨0⟩ ⟨7⟩ (.num 4) = some (true, st') ∧
      st'.lookup ⟨1⟩ ⟨7⟩ = some (some (.num 2)) := by
  intro st
  have hst : st.Arranged := by
    apply Arranged.put _ (by decide +kernel)
    apply Arranged.put _ (by decide +kernel)
    apply Arranged.scope
    · apply Arranged.scope
      · exact .scope .empty (by simp)
      · simp only [Option.mem_some_iff, forall_eq']
        decide +kernel
    · simp only [Option.mem_some_iff, forall_eq']
      decide +kernel
  have hchains := hst.rooted.chain
  constructor
  · obtain ⟨⟨found, st', hassign, howner, _, hall⟩, _⟩ :=
      updates_touch_their_lookups hchains (e := ⟨2⟩) (by decide +kernel) ⟨7⟩ (.num 3)
    have hfound : some found = some (some ⟨0⟩) := howner.symm.trans (by decide +kernel)
    cases hfound
    have hlookup := (hall ⟨0⟩ rfl).1
    refine ⟨st', hassign, ?_, ?_, ?_⟩
    · rw [(hlookup ⟨2⟩ ⟨7⟩ (by decide +kernel)).2, if_pos (by decide +kernel)]
    · rw [(hlookup ⟨0⟩ ⟨7⟩ (by decide +kernel)).2, if_pos (by decide +kernel)]
    · rw [(hlookup ⟨1⟩ ⟨7⟩ (by decide +kernel)).2, if_neg (by decide +kernel)]
      decide +kernel
  · obtain ⟨_, found, st', hdefine, hfound, _, _, hall⟩ :=
      updates_touch_their_lookups hchains (e := ⟨0⟩) (by decide +kernel) ⟨7⟩ (.num 4)
    have hbound : (st.binding ⟨7⟩ ⟨0⟩).isSome := by decide +kernel
    obtain ⟨scope, hscope⟩ := exists_scope_of_binding hbound
    rw [hfound.mpr ⟨scope, hscope⟩] at hdefine
    refine ⟨st', hdefine, ?_⟩
    rw [((hall scope hscope).2 ⟨1⟩ ⟨7⟩ (by decide +kernel)).2]
    · decide +kernel
    · -- the first scope on the way binds the symbol
      intro hcomes
      obtain ⟨_, before, rest, hchain, hbefore⟩ := hcomes
      have hway : st.Chain (some ⟨1⟩) [⟨1⟩, ⟨0⟩] :=
        .cons (by decide +kernel) (.cons (by decide +kernel) .nil)
      have hsplit := hchain.unique hway
      cases before with
      | nil => simp at hsplit
      | cons b before =>
        have hb : b = ⟨1⟩ := by simpa using congrArg List.head? hsplit
        have hnone := hbefore b (.head _)
        rw [hb] at hnone
        exact absurd hnone (by decide +kernel)

end HeapLisp.Store
