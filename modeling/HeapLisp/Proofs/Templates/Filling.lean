import HeapLisp.Proofs.Templates.Courses

namespace HeapLisp

variable {st₀ : Store Object} {env : Addr} {s s' : Interp} {v : Value}

/-- The evaluation fails, with an error about its depth. -/
def Eval.TooDeep {α : Type} (x : Eval α) (s : Interp) : Prop :=
  ∃ e s' f, x.Ends s (.error e) s' ∧ s'.store.get? e = some (.failure f) ∧ f.fault = .tooDeep

theorem Eval.TooDeep.bind {α β : Type} {x : Eval α} {f : α → Eval β} (h : x.TooDeep s) :
    (x >>= f).TooDeep s := by
  obtain ⟨e, s', failure, hends, he, hfault⟩ := h
  exact ⟨e, s', failure, ends_bind.mpr (.inr ⟨e, hends, rfl⟩), he, hfault⟩

theorem Interp.Whole.alongside (hs : s.Whole) (henv : s.store.contains env = true) {T : Template}
    (hT : T.Stored s.store) :
    Alongside s env T.nodes (.self s) s s where
  intact := hs.intact
  named := hs.named
  env := henv
  lists _ ha := hT.node T ha
  self := le_refl _
  states := hs.states
  nodes _ _ := rfl

/-- What filling a template without holes leaves: copies of its lists. -/
theorem Template.exists_copy_ends {T : Template} (hs : s.Whole) (henv : s.store.contains env = true)
    (hT : T.Stored s.store) (hholes : T.holes s.depth = [])
    (hroom : s.depth + T.height ≤ s.config.maxDepth) :
    ∃ v s' made, (Eval.fill env T.value).Ends s (.ok v) s' ∧ s'.Whole ∧
      T.Filled s'.store [] made v ∧ made.Nodup ∧
      (∀ c ∈ made, s.store.get? c = none) ∧ Course env T.nodes [] s [] made s' := by
  have hcourse : Course env T.nodes (T.holes s.depth) s [] [] s := by
    rw [hholes]
    exact .nil s
  obtain ⟨N, s', plugs, made, v, hends, hfollows, hfilled, _⟩ :=
    exists_fill_ends T (hs.alongside henv hT) hT (List.Subset.refl _) hroom hcourse
  have hplugs := hfollows.plugs
  cases hplugs
  rw [hholes] at hfollows
  have hwhole := (Interp.whole_of_states hfollows.along.states).2
  exact ⟨v, s', made, hends, hwhole, hfilled, hfollows.nodup, hfollows.new, hfollows.course⟩

/-- On the way through a quoted template that was in the store `st₀`, with the given number of
levels left. -/
structure Descent (st₀ : Store Object) (env : Addr) (room : Nat) (s : Interp) : Prop where
  whole : s.Whole
  env : st₀.contains env = true
  kept : ∀ {a o}, st₀.get? a = some o → s.store.get? a = some o
  room : s.depth + room = s.config.maxDepth

/-- With the given number of levels left, items that have no tree lower than that are too deep. -/
def DeepItems (st₀ : Store Object) (env : Addr) (room : Nat) : Prop :=
  ∀ {s v}, Descent st₀ env room s → v.Live st₀ → st₀.Quoted v →
    (∀ T : Template, T.Stored st₀ → T.value = v → room ≤ T.height) →
    (Eval.enter ⟨env, v, .fill v⟩).TooDeep s

namespace Descent

variable {room : Nat}

theorem atom (h : Descent st₀ env room s) (hv : st₀.Atom v) : s.store.Atom v := by
  intro a ha
  obtain ⟨o, ho, hno⟩ := hv a ha
  exact ⟨o, h.kept ho, hno⟩

theorem contains (h : Descent st₀ env room s) {a : Addr} (ha : st₀.contains a = true) :
    s.store.contains a = true := by
  obtain ⟨o, ho⟩ := Store.contains_iff.mp ha
  exact Store.contains_iff.mpr ⟨o, h.kept ho⟩

theorem live (h : Descent st₀ env room s) (hv : v.Live st₀) : v.Live s.store :=
  fun a ha => h.contains (hv a ha)

theorem exists_item_ends {T : Template} (h : Descent st₀ env room s) (hT : T.Stored st₀)
    (hq : st₀.Quoted T.value) (hlt : T.height < room) :
    ∃ w s', (Eval.enter ⟨env, T.value, .fill T.value⟩).Ends s (.ok w) s' ∧
      Descent st₀ env room s' := by
  have hroom := h.room
  have hnodes : ∀ a ∈ T.nodes, s.store.get? a = st₀.get? a := by
    intro a ha
    obtain ⟨items, hitems⟩ := hT.node T ha
    rw [hitems, h.kept hitems]
  have hstored : T.Stored s.store := Template.Stored.mono (fun _ => h.atom) T hnodes hT
  have hdeeper : ({ s with depth := s.depth + 1 } : Interp).Whole := { h.whole with }
  have hroom' : s.depth + 1 + T.height ≤ s.config.maxDepth := by omega
  obtain ⟨w, s', made, hends, hwhole, _, _, hnew, hcourse⟩ :=
    Template.exists_copy_ends hdeeper (h.contains h.env) hstored (hT.holes_eq_nil T hq _) hroom'
  obtain ⟨_, hkept⟩ := hcourse.eq_of_no_holes h.whole.intact.toWellFormed
  refine ⟨w, _, (Eval.ends_enter (by omega)).mpr ⟨s', hends, rfl⟩, { hwhole with }, h.env,
    fun {a o} ha => ?_, ?_⟩
  · refine (hkept a fun hmade => ?_).trans (h.kept ha)
    cases (hnew a hmade).symm.trans (h.kept ha)
  · exact hends.config_eq ▸ hroom

theorem tooDeep_of_full (h : Descent st₀ env 0 s) (v : Value) :
    (Eval.enter ⟨env, v, .fill v⟩).TooDeep s := by
  have hroom := h.room
  obtain ⟨location, hends⟩ :=
    Eval.exists_raise_ends (α := Value) h.whole.intact (h.contains h.env) .tooDeep v
  exact ⟨_, _, ⟨.tooDeep, location, v⟩, (Eval.ends_enter_of_full (by omega)).mpr hends,
    h.whole.intact.get?_insert_next _, rfl⟩

theorem fillItems_tooDeep {vs : List Value} (h : Descent st₀ env room s)
    (hdeep : DeepItems st₀ env room) (hlive : ∀ v ∈ vs, v.Live st₀) (hq : ∀ v ∈ vs, st₀.Quoted v)
    (hno : ∀ ps : Template.Parts, ps.Stored st₀ → ps.values = vs → room < ps.height)
    (before : List Value) :
    (Eval.fillItems env before vs).TooDeep s := by
  induction vs generalizing s before with
  | nil => exact absurd (hno .nil trivial rfl) (Nat.not_lt_zero _)
  | cons v vs ih =>
    have hv := hlive v (.head _)
    have hno₀ : ∀ a form, v = .ref a → st₀.get? a ≠ some (.list #[.sym .splice, form]) := by
      intro a form ha hsplice
      exact (hq v (.head _) a form (.root ha hsplice)).2 hsplice
    have hno' : ∀ a form, v = .ref a → s.store.get? a ≠ some (.list #[.sym .splice, form]) := by
      intro a form ha hsplice
      obtain ⟨o, ho⟩ := Store.contains_iff.mp (hv a ha)
      cases (h.kept ho).symm.trans hsplice
      exact hno₀ a form ha ho
    unfold Eval.TooDeep
    simp only [Eval.ends_fillItems_item (h.live hv) hno']
    -- with a tree that is low enough the item is copied, and without one it is where filling ends
    by_cases hshort : ∃ T : Template, T.Stored st₀ ∧ T.value = v ∧ T.height < room
    · obtain ⟨T, hT, rfl, hlt⟩ := hshort
      obtain ⟨w, s₁, hends, h₁⟩ := h.exists_item_ends hT (hq _ (.head _)) hlt
      have hrest : ∀ ps : Template.Parts, ps.Stored st₀ → ps.values = vs → room < ps.height := by
        intro ps hps hvalues
        have hall := hno (.item T ps) ⟨hT, hno₀, hps⟩ (congrArg (T.value :: ·) hvalues)
        rw [Template.Parts.height] at hall
        omega
      obtain ⟨e, s', f, hends', he, hfault⟩ :=
        ih h₁ (fun x hx => hlive x (.tail _ hx)) (fun x hx => hq x (.tail _ hx)) hrest
        (w :: before)
      exact ⟨e, s', f, Eval.ends_bind.mpr (.inl ⟨w, s₁, hends, hends'⟩), he, hfault⟩
    · refine (hdeep h hv (hq v (.head _)) fun T hT hvalue => ?_).bind
      by_contra hlt
      exact hshort ⟨T, hT, hvalue, by omega⟩

theorem fill_tooDeep_of_items (h : Descent st₀ env room s) (h₀ : st₀.Intact)
    (hdeep : DeepItems st₀ env room) (hv : v.Live st₀) (hq : st₀.Quoted v)
    (hno : ∀ T : Template, T.Stored st₀ → T.value = v → room < T.height) :
    (Eval.fill env v).TooDeep s := by
  have hatom : ¬st₀.Atom v := fun hatom => Nat.not_lt_zero _ (hno (.leaf v) hatom rfl)
  have hlist : ∃ a items, v = .ref a ∧ st₀.get? a = some (.list items) := by
    by_contra hnone
    apply hatom
    intro a ha
    obtain ⟨o, ho⟩ := Store.contains_iff.mp (hv a ha)
    cases o with
    | list items => exact absurd ⟨a, items, ha, ho⟩ hnone
    | str | scope | function | failure | input | output => exact ⟨_, ho, rfl⟩
  obtain ⟨a, items, rfl, ha⟩ := hlist
  have hunquote : ∀ form, items.toList ≠ [.sym .unquote, form] := by
    intro form hitems
    have hsame : items = #[.sym .unquote, form] := Array.toList_inj.mp hitems
    exact (hq a form (.root rfl ha)).1 (hsame ▸ ha)
  have hparts : ∀ ps : Template.Parts, ps.Stored st₀ → ps.values = items.toList →
      room < ps.height := by
    intro ps hps hvalues
    refine hno (.list a ps) ⟨?_, hvalues ▸ hunquote, hps⟩ rfl
    rw [ha, hvalues, Array.toArray_toList]
  unfold Eval.TooDeep
  simp only [Eval.ends_fill_list (h.kept ha) hunquote]
  exact (h.fillItems_tooDeep hdeep (fun x hx => h₀.live_item ha hx)
    (fun x hx => hq.item ha hx) hparts []).bind

/-- A quoted value is too deep if it has no tree that there is room for. -/
theorem fill_tooDeep (h : Descent st₀ env room s) (h₀ : st₀.Intact) (hv : v.Live st₀)
    (hq : st₀.Quoted v) (hno : ∀ T : Template, T.Stored st₀ → T.value = v → room < T.height) :
    (Eval.fill env v).TooDeep s := by
  induction room generalizing s v with
  | zero => exact h.fill_tooDeep_of_items h₀ (fun h _ _ _ => h.tooDeep_of_full _) hv hq hno
  | succ room ih =>
    refine h.fill_tooDeep_of_items h₀ (fun {s v} h hv hq hno => ?_) hv hq hno
    have hroom := h.room
    have hdeeper : Descent st₀ env room { s with depth := s.depth + 1 } :=
      ⟨{ h.whole with }, h.env, h.kept, by dsimp only; omega⟩
    obtain ⟨e, s', f, hends, he, hfault⟩ := ih hdeeper hv hq hno
    exact ⟨e, _, f, (Eval.ends_enter (by omega)).mpr ⟨s', hends, rfl⟩, he, hfault⟩

end Descent

/-- Filling a template. A quoted one is copied, with new lists and the same leaves, and nothing else
happens, if there is room for its height. If there is not, or if it is cyclic, it is too deep. Any
template that there is room for is filled with what its unquoted expressions give, each evaluated
once and from left to right; they give the same as without any copying in between, up to the
addresses of what is new. All values that are not cyclic are templates in one way, and
`(unquote-splicing form)` as a whole template is a list like others. -/
theorem Interp.fill_fills_templates :
    (∀ (s : Interp) (env : Addr) (T : Template), s.Whole → s.store.contains env = true →
      T.Stored s.store → s.store.Quoted T.value → s.depth + T.height ≤ s.config.maxDepth →
      ∃ fuel v s' made, s.fill fuel env T.value = .finished (.ok v) s' ∧
        T.Filled s'.store [] made v ∧ made.Nodup ∧ (∀ c ∈ made, s.store.get? c = none) ∧
        Course env T.nodes [] s [] made s' ∧ s' = { s with store := s'.store } ∧
        ∀ a, a ∉ made → s'.store.get? a = s.store.get? a) ∧
    (∀ (s : Interp) (env : Addr) (t : Value), s.Whole → s.store.contains env = true →
      t.Live s.store → s.store.Quoted t → s.depth ≤ s.config.maxDepth →
      (s.store.Cyclic t ∨ ∃ T : Template, T.Stored s.store ∧ T.value = t ∧
        s.config.maxDepth < s.depth + T.height) →
      ∃ fuel e s' f, s.fill fuel env t = .finished (.error e) s' ∧
        s'.store.get? e = some (.failure f) ∧ f.fault = .tooDeep) ∧
    (∀ (s s₁ : Interp) (env : Addr) (T : Template) (plugs : List (List Value)), s.Whole →
      s.store.contains env = true → T.Stored s.store → s.depth + T.height ≤ s.config.maxDepth →
      Course env T.nodes (T.holes s.depth) s plugs [] s₁ →
      ∃ fuel v s' plugs' made N, s.fill fuel env T.value = .finished (.ok v) s' ∧
        T.Filled s'.store plugs' made v ∧ made.Nodup ∧ (∀ c ∈ made, s.store.get? c = none) ∧
        Course env T.nodes (T.holes s.depth) s plugs' made s' ∧
        Matching.self s ≤ N ∧ States true N s₁ s' ∧ List.Forall₂ N.Lists plugs plugs') ∧
    (∀ (st : Store Object) (t : Value), st.Intact → t.Live st → ¬st.Cyclic t →
      ∃! T : Template, T.Stored st ∧ T.value = t) ∧
    ∀ (st : Store Object) (T : Template) (a : Addr) (form : Value), T.Stored st → T.value = .ref a →
      st.get? a = some (.list #[.sym .splice, form]) →
      ∃ rest, T = .list a (.item (.leaf (.sym .splice)) rest) := by
  refine ⟨?_, ?_, ?_, ?_, fun st T a form => Template.Stored.eq_of_splice⟩
  · intro s env T hs henv hT hq hroom
    obtain ⟨v, s', made, hends, _, hfilled, hnodup, hnew, hcourse⟩ :=
      Template.exists_copy_ends hs henv hT (hT.holes_eq_nil T hq _) hroom
    obtain ⟨hstore, hkept⟩ := hcourse.eq_of_no_holes hs.intact.toWellFormed
    obtain ⟨fuel, hrun⟩ := run_finished_iff.mpr hends
    exact ⟨fuel, v, s', made, hrun, hfilled, hnodup, hnew, hcourse, hstore, hkept⟩
  · intro s env t hs henv hlive hq hdepth hdeep
    have hunder : Descent s.store env (s.config.maxDepth - s.depth) s :=
      ⟨hs, henv, fun ha => ha, by omega⟩
    have hno : ∀ T : Template, T.Stored s.store → T.value = t →
        s.config.maxDepth - s.depth < T.height := by
      intro T hT hvalue
      subst hvalue
      obtain hcyclic | ⟨U, hU, hvalue, hlt⟩ := hdeep
      · exact absurd hcyclic (hT.not_cyclic hq)
      · rw [Template.Stored.unique T U hT hU hvalue.symm]
        omega
    obtain ⟨e, s', f, hends, he, hfault⟩ := hunder.fill_tooDeep hs.intact hlive hq hno
    obtain ⟨fuel, hrun⟩ := run_finished_iff.mpr hends
    exact ⟨fuel, e, s', f, hrun, he, hfault⟩
  · intro s s₁ env T plugs hs henv hT hroom hcourse
    obtain ⟨N, s', plugs', made, v, hends, hfollows, hfilled, _⟩ :=
      T.exists_fill_ends (hs.alongside henv hT) hT (List.Subset.refl _) hroom hcourse
    obtain ⟨fuel, hrun⟩ := run_finished_iff.mpr hends
    exact ⟨fuel, v, s', plugs', made, N, hrun, hfilled, hfollows.nodup, hfollows.new,
      hfollows.course, hfollows.le, hfollows.along.states, hfollows.plugs⟩
  · intro st t hst hlive hacyclic
    obtain ⟨T, hT, hvalue⟩ := Template.exists_stored hst hlive hacyclic
    refine ⟨T, ⟨hT, hvalue⟩, fun U hU => ?_⟩
    exact Template.Stored.unique U T hU.1 hT (hU.2.trans hvalue.symm)

/-- Where a symbol is bound to the list `(1 2)`, that list is copied, is too deep at the limit, and
is spliced into a template with another unquoted expression two levels deeper, which becomes `((7) 1
2)`. -/
theorem Interp.fill_fills_templates_spliced :
    let s₁ :=
      ((bare ⟨2, 65536, false⟩ .empty 0).alloc (.list #[.num 1, .num 2])).2.defineGlobal
        .underscore (.ref ⟨1⟩)
    let s₂ :=
      ((s₁.alloc (.list #[.sym .unquote, .num 7])).2.alloc
        (.list #[.sym .splice, .sym .underscore])).2
    let s := ((s₂.alloc (.list #[.ref ⟨2⟩])).2.alloc (.list #[.ref ⟨4⟩, .ref ⟨3⟩])).2
    (∃ fuel b s', s.fill fuel ⟨0⟩ (.ref ⟨1⟩) = .finished (.ok (.ref b)) s' ∧ s.store.get? b = none ∧
      s'.store.get? b = some (.list #[.num 1, .num 2])) ∧
    (∃ fuel e s' f, fill fuel ⟨0⟩ (.ref ⟨1⟩) { s with depth := 2 } = .finished (.error e) s' ∧
      s'.store.get? e = some (.failure f) ∧ f.fault = .tooDeep) ∧
    ∃ fuel b c s', s.fill fuel ⟨0⟩ (.ref ⟨5⟩) = .finished (.ok (.ref b)) s' ∧
      s'.store.get? b = some (.list #[.ref c, .num 1, .num 2]) ∧
      s'.store.get? c = some (.list #[.num 7]) := by
  intro s₁ s₂ s
  have hs : s.Whole := by
    have known {t : Interp} (ht : t.Sound) {o : Object}
        (ho : ∀ x, o.Uses x → x = .unquote ∨ x = .splice ∨ x = .underscore) :
        ∀ x, o.Uses x → (t.symbols.spelling? x).isSome := by
      intro x hx
      apply ht.wellKnown
      obtain rfl | rfl | rfl := ho x hx <;> decide
    have h₀ := bare_sound ⟨2, 65536, false⟩ .empty 0
    have h₁ :=
      h₀.alloc (o := .list #[.num 1, .num 2]) (by decide +kernel) (known h₀ (by simp [Object.Uses]))
    have h₂ := h₁.1.defineGlobal (x := .underscore) (h₁.1.wellKnown (by decide)) h₁.2
    have h₃ := (h₂.alloc (o := .list #[.sym .unquote, .num 7]) (by decide +kernel)
      (known h₂ (by simp [Object.Uses]))).1
    have h₄ := (h₃.alloc (o := .list #[.sym .splice, .sym .underscore]) (by decide +kernel)
      (known h₃ (by simp [Object.Uses]))).1
    have h₅ :=
      (h₄.alloc (o := .list #[.ref ⟨2⟩]) (by decide +kernel) (known h₄ (by simp [Object.Uses]))).1
    have h₆ := (h₅.alloc (o := .list #[.ref ⟨4⟩, .ref ⟨3⟩]) (by decide +kernel)
      (known h₅ (by simp [Object.Uses]))).1
    exact { h₆ with }
  have hnum (n : Int64) : s.store.Atom (.num n) := by
    intro a ha
    cases ha
  have hlist : s.store.get? ⟨1⟩ = some (.list #[.num 1, .num 2]) := by
    subst s s₂ s₁
    rfl
  have hroot : s.store.contains ⟨0⟩ = true := by decide +kernel
  let T : Template := .list ⟨1⟩ (.item (.leaf (.num 1)) (.item (.leaf (.num 2)) .nil))
  have hT : T.Stored s.store := by
    refine ⟨hlist, by simp [Template.Parts.values, Template.value], hnum 1, ?_, hnum 2, ?_, trivial⟩
    · intro a form ha
      cases ha
    · intro a form ha
      cases ha
  have honly {a : Addr} (ha : s.store.ListWithin T.value a) : a = ⟨1⟩ := by
    induction ha with
    | root hv _ =>
      cases hv
      rfl
    | item _ ha hb _ ih =>
      subst ih
      cases hlist.symm.trans ha
      simp at hb
  have hq : s.store.Quoted T.value := by
    intro a form ha
    rw [honly ha, hlist]
    simp
  obtain ⟨hcopied, hdeep, hfilled, _⟩ := fill_fills_templates
  refine ⟨?_, ?_, ?_⟩
  · obtain ⟨fuel, v, s', made, hrun, hcopy, _, hnew, _⟩ :=
      hcopied s ⟨0⟩ T hs hroot hT hq (by decide)
    generalize ([] : List (List Value)) = plugs at hcopy
    unfold T at hcopy
    cases hcopy with
    | list _ hparts hc =>
      cases hparts with
      | item h₁ hparts =>
        cases h₁
        cases hparts with
        | item h₂ hparts =>
          cases h₂
          cases hparts
          exact ⟨fuel, _, s', hrun, hnew _ (List.mem_append_right _ (.head _)), hc⟩
  · have hdeeper : ({ s with depth := 2 } : Interp).Whole := { hs with }
    refine hdeep { s with depth := 2 } ⟨0⟩ (.ref ⟨1⟩) hdeeper hroot ?_ hq (by decide)
      (.inr ⟨T, hT, rfl, by decide⟩)
    intro a ha
    cases ha
    exact Store.contains_iff.mpr ⟨_, hlist⟩
  · let U : Template :=
      .list ⟨5⟩
        (.item (.list ⟨4⟩ (.item (.unquote ⟨2⟩ (.num 7)) .nil))
          (.splice ⟨3⟩ (.sym .underscore) .nil))
    have hunquote : s.store.get? ⟨2⟩ = some (.list #[.sym .unquote, .num 7]) := by
      subst s s₂ s₁
      rfl
    have hsplice : s.store.get? ⟨3⟩ = some (.list #[.sym .splice, .sym .underscore]) := by
      subst s s₂ s₁
      rfl
    have hinner : s.store.get? ⟨4⟩ = some (.list #[.ref ⟨2⟩]) := by
      subst s s₂ s₁
      rfl
    have houter : s.store.get? ⟨5⟩ = some (.list #[.ref ⟨4⟩, .ref ⟨3⟩]) := by
      subst s s₂ s₁
      rfl
    have hU : U.Stored s.store := by
      refine ⟨houter, ?_, ⟨hinner, ?_, hunquote, ?_, trivial⟩, ?_, hsplice, trivial⟩
      · simp [Template.Parts.values, Template.value]
      · simp [Template.Parts.values, Template.value]
      · intro a form ha hsplice
        cases ha
        cases hunquote.symm.trans hsplice
      · intro a form ha hsplice
        cases ha
        cases hinner.symm.trans hsplice
    have hlookup : (Effect.lookup ⟨0⟩ .underscore).perform s = some (some (.ref ⟨1⟩), s) := by
      have hfound : s.store.lookup ⟨0⟩ .underscore = some (some (.ref ⟨1⟩)) := by decide +kernel
      rw [Effect.perform, hfound]
    have hsym : (Eval.evaluate ⟨0⟩ (.sym .underscore)).Ends s (.ok (.ref ⟨1⟩)) s :=
      .effect hlookup (.done _ _)
    obtain ⟨fuel, heval⟩ := run_finished_iff.mpr hsym
    have hcourse : Course ⟨0⟩ U.nodes [⟨2, .num 7, false⟩, ⟨0, .sym .underscore, true⟩] s
        [[.num 7], [.num 1, .num 2]] [] s := by
      have hseven : Interp.eval 1 ⟨0⟩ (.num 7) { s with depth := 2 } = .finished (.ok (.num 7))
          { s with depth := 2 } :=
        rfl
      refine .hole hseven (.value 2 (.num 7) (.num 7)) (fun _ _ => rfl) ?_
      exact .hole heval (.items 0 (.sym .underscore) hlist) (fun _ _ => rfl) (.nil s)
    obtain ⟨fuel, v, s', plugs, made, N, hrun, hfill, _, _, _, hself, _, hplugs⟩ :=
      hfilled s s ⟨0⟩ U _ hs hroot hU (by decide) hcourse
    unfold U at hfill
    cases hfill with
    | list _ hparts hb =>
      cases hparts with
      | item h₁ hparts =>
        cases hparts with
        | splice _ _ plug hparts =>
          cases hparts
          cases h₁ with
          | list _ hparts hc =>
            cases hparts with
            | item h₁ hparts =>
              cases h₁
              cases hparts
              -- numbers stand for themselves only
              obtain ⟨hseven, hplugs⟩ := List.forall₂_cons.mp hplugs
              obtain ⟨hitems, _⟩ := List.forall₂_cons.mp hplugs
              have hlive (ns : List Int64) : ∀ v ∈ ns.map Value.num, v.Live s.store := by
                intro v hv a ha
                subst ha
                simp at hv
              cases Matching.lists_eq_of_self_le hself (hlive [7]) hseven
              cases Matching.lists_eq_of_self_le hself (hlive [1, 2]) hitems
              exact ⟨fuel, _, _, s', hrun, hb, hc⟩

end HeapLisp
