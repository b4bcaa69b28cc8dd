import HeapLisp.Proofs.Parameters.Rebinding

namespace HeapLisp

namespace Param

variable {env : Addr} {s : Interp} {p : Param} {ps : List Param} {v params : Value}
  {args names left : List Value}

/-- Binding the parameter binds what it gives, if it takes the value. -/
def BindsRight (env : Addr) (p : Param) : Prop :=
  ∀ (s : Interp) (name v : Value), s.HasScope env → Stored s.store p name → v.Live s.store →
    s.depth + p.nesting ≤ s.config.maxDepth →
      (Eval.bindOne env name v).Binds env s (Takes s.store p v)
        (fun st bs => Gives s.store st p v bs) fun _ => True

/-- The fault if the arguments do not fit although every parameter takes the value that it gets. -/
def Blames (st : Store Object) (dealt : List (Param × Value) × Remainder) (fault : Fault) : Prop :=
  (∀ p v, (p, v) ∈ dealt.1 → Takes st p v) →
    (dealt.2 = .wrongCount → fault = .wrongArgCount) ∧
    (dealt.2 = .unnamed → fault = .missingRestName)

theorem takes_rest_iff {st st' : Store Object} (hsame : SameLists st st') {c : Addr}
    (hc : st'.get? c = some (.list left.toArray)) (hleft : ∀ v ∈ left, v.Live st) :
    Takes st' p (.ref c) ↔ TakesRest st (.rest p left) := by
  constructor
  · intro h
    cases h with
    | name x => exact .name x left
    | list ha h =>
      cases ha.symm.trans hc
      exact .list (h.earlier hsame hleft)
  · intro h
    cases h with
    | name x => exact .name x _
    | list h => exact .list hc (h.later hsame)

theorem rest_binds (hs : s.HasScope env) (hleft : ∀ v ∈ left, v.Live s.store)
    (hparams : params.Live s.store) (hone : ∀ p ∈ ps, BindsRight env p)
    (hnames : StoredAll s.store ps names) (hroom : s.depth + nestingAll ps ≤ s.config.maxDepth)
    (optional : Bool) :
    (Eval.bindNames env params args (.sym .rest :: names) left optional).Binds env s
      (TakesDealt s.store ([], .after ps.head? left))
        (fun st bs => GivesDealt s.store st ([], .after ps.head? left) bs)
      (Blames s.store ([], .after ps.head? left)) := by
  unfold Eval.bindNames
  rw [if_pos rfl]
  cases hnames with
  | nil =>
    apply Eval.Binds.raise hs hparams
    · rintro ⟨_, hrest⟩
      cases hrest
    · intro _
      exact ⟨by simp [Remainder.after], fun _ => rfl⟩
  | @cons q ps name names hq hqs =>
    apply Eval.Binds.newList hs hleft
    intro s₁ c hrebinds hnew hc
    have hs₁ := hrebinds.hasScope hs
    have hsame := hrebinds.sameLists hs
    have hlive : (Value.ref c).Live s₁.store := Value.live_ref hc
    have hdepth : s₁.depth + q.nesting ≤ s₁.config.maxDepth := by
      rw [nestingAll] at hroom
      rw [hrebinds.storeOnly]
      dsimp only
      omega
    apply (hone q (.head _) s₁ name (.ref c) hs₁ (hq.later hsame) hlive hdepth).imp
    · rw [takes_rest_iff hsame hc hleft]
      exact ⟨fun h => ⟨by simp, h⟩, fun h => h.rest⟩
    · intro s' bs _ hrebinds' hgives
      have hrest : GivesRest s.store s'.store (.rest q left) bs := by
        refine .rest hnew (hrebinds'.list hs₁ hc) (hgives.mono ?_ fun _ _ h => h)
        intro c hc
        exact hrebinds.new hs hc
      have hdealt : GivesDealt s.store s'.store ([], .rest q left) ([] ++ bs) := .intro .nil hrest
      exact hdealt
    · intro fault _ _
      exact ⟨by simp [Remainder.after], by simp [Remainder.after]⟩

theorem next_binds (hs : s.HasScope env) (hone : BindsRight env p) {name : Value}
    (hname : Stored s.store p name) (hv : v.Live s.store)
    (hroom : s.depth + p.nesting ≤ s.config.maxDepth) {x : Eval Unit}
    {dealt : List (Param × Value) × Remainder}
    (hlive : (∀ p v, (p, v) ∈ dealt.1 → v.Live s.store) ∧ ∀ p vs, dealt.2 = .rest p vs →
      ∀ v ∈ vs, v.Live s.store)
    (hx : ∀ s₁ bs, s.Rebinds env bs s₁ → x.Binds env s₁ (TakesDealt s₁.store dealt)
      (fun st bs => GivesDealt s₁.store st dealt bs) (Blames s₁.store dealt)) :
    (do Eval.bindOne env name v; x).Binds env s (TakesDealt s.store ((p, v) :: dealt.1, dealt.2))
      (fun st bs => GivesDealt s.store st ((p, v) :: dealt.1, dealt.2) bs)
        (Blames s.store ((p, v) :: dealt.1, dealt.2)) := by
  apply (hone s name v hs hname hv hroom).bind
  · intro hno
    exact ⟨fun h => hno (h.names p v (.head _)), fun fault hall => absurd (hall p v (.head _)) hno⟩
  · intro s₁ bs₁ htakes hrebinds hgives
    have hsame := hrebinds.sameLists hs
    have hsplit : TakesDealt s.store dealt ↔ TakesDealt s.store ((p, v) :: dealt.1, dealt.2) := by
      constructor
      · intro h
        refine ⟨?_, h.rest⟩
        intro q w hw
        rcases List.mem_cons.mp hw with heq | hw
        · cases heq
          exact htakes
        · exact h.names q w hw
      · intro h
        exact ⟨fun q w hw => h.names q w (.tail _ hw), h.rest⟩
    apply (hx s₁ bs₁ hrebinds).imp
    · rw [takesDealt_iff hsame hlive, hsplit]
    · intro s' bs _ hrebinds' hdealt
      have hnew (c : Addr) (hc : s₁.store.get? c = none) : s.store.get? c = none :=
        hrebinds.new hs hc
      have hfirst := hgives.mono (fun _ h => h) fun _ _ h => hrebinds'.list (hrebinds.hasScope hs) h
      cases hdealt with
      | intro hnames hrest =>
        rw [← List.append_assoc]
        exact .intro (.cons hfirst (hnames.mono hnew fun _ _ h => h))
          (hrest.mono hnew fun _ _ h => h)
    · intro fault hblames hall
      apply hblames
      intro q w hw
      exact (hall q w (.tail _ hw)).later hsame

theorem bindNames_next {name : Value} {optional : Bool} (hrest : name ≠ .sym .rest)
    (hopt : name ≠ .sym .optional) (h : ¬(left.isEmpty && !optional) = true) :
    Eval.bindNames env params args (name :: names) left optional = (do
      Eval.bindOne env name (left.head?.getD .nil)
      Eval.bindNames env params args names left.tail optional) := by
  rw [Eval.bindNames.eq_def]
  dsimp only
  rw [if_neg hrest, if_neg hopt]
  cases left with
  | cons v left => rfl
  | nil =>
    cases optional with
    | true => rfl
    | false => exact absurd rfl h

theorem bindNames_binds (hone : ∀ p ∈ ps, BindsRight env p) (hs : s.HasScope env)
    (hnames : StoredAll s.store ps names) (hleft : ∀ v ∈ left, v.Live s.store)
    (hargs : ∀ v ∈ args, v.Live s.store) (hparams : params.Live s.store)
    (hroom : s.depth + nestingAll ps ≤ s.config.maxDepth) (optional : Bool) :
    (Eval.bindNames env params args names left optional).Binds env s
      (TakesDealt s.store (deal ps left optional))
      (fun st bs => GivesDealt s.store st (deal ps left optional) bs)
        (Blames s.store (deal ps left optional)) := by
  induction ps generalizing s names left optional with
  | nil =>
    cases hnames with
    | nil =>
      cases left with
      | nil =>
        have hgives : GivesDealt s.store s.store (deal [] [] optional) ([] ++ []) :=
          .intro .nil .none
        exact ⟨_, s, .done () s, .ok ⟨by simp [deal], .none⟩ (.refl hs) hgives⟩
      | cons v left =>
        apply Eval.Binds.refuseArgs hs hargs
        · rintro ⟨_, hrest⟩
          cases hrest
        · intro _
          exact ⟨fun _ => rfl, by simp [deal]⟩
  | cons p ps ih =>
    rw [nestingAll] at hroom
    have hroom' : s.depth + nestingAll ps ≤ s.config.maxDepth := by omega
    have hone' : ∀ p ∈ ps, BindsRight env p := fun p hp => hone p (.tail _ hp)
    cases hnames with
    | @cons _ _ name names hname hnames =>
      rw [deal]
      split_ifs with hrest hopt hempty
      · cases hname.eq_rest_iff.mpr hrest
        exact rest_binds hs hleft hparams hone' hnames hroom' optional
      · unfold Eval.bindNames
        rw [if_neg (mt hname.eq_rest_iff.mp hrest), if_pos (hname.eq_optional_iff.mpr hopt)]
        exact ih hone' hs hnames hleft hargs hparams hroom' true
      · have hnone : left = [] ∧ optional = false := by simpa using hempty
        obtain ⟨rfl, rfl⟩ := hnone
        unfold Eval.bindNames
        rw [if_neg (mt hname.eq_rest_iff.mp hrest), if_neg (mt hname.eq_optional_iff.mp hopt)]
        apply Eval.Binds.refuseArgs hs hargs
        · rintro ⟨_, hrest⟩
          cases hrest
        · intro _
          exact ⟨fun _ => rfl, by simp⟩
      · have htail : ∀ v ∈ left.tail, v.Live s.store :=
          fun v hv => hleft v (List.mem_of_mem_tail hv)
        have hvalue : (left.head?.getD .nil).Live s.store := by
          cases left with
          | nil => exact Value.live_sym _ _
          | cons v left => exact hleft v (.head _)
        rw [bindNames_next (mt hname.eq_rest_iff.mp hrest)
          (mt hname.eq_optional_iff.mp hopt) hempty]
        apply next_binds hs (hone p (.head _)) hname hvalue (by omega) (live_deal htail ps optional)
        intro s₁ bs hrebinds
        have hroom₁ : s₁.depth + nestingAll ps ≤ s₁.config.maxDepth := by
          rw [hrebinds.storeOnly]
          exact hroom'
        exact ih hone' (hrebinds.hasScope hs) (hnames.later (hrebinds.sameLists hs))
          (fun v hv => hrebinds.live hs (htail v hv))
          (fun v hv => hrebinds.live hs (hargs v hv)) (hrebinds.live hs hparams) hroom₁ optional

theorem bindParams_binds (hone : ∀ p ∈ ps, BindsRight env p) (hs : s.HasScope env)
    (hparams : Stored s.store (.list ps) params) (hargs : ∀ v ∈ args, v.Live s.store)
    (hroom : s.depth + nestingAll ps ≤ s.config.maxDepth) :
    (Eval.bindParams env params args).Binds env s (TakesAll s.store ps args)
      (fun st bs => GivesAll s.store st ps args bs) (Blames s.store (deal ps args false)) := by
  cases hparams with
  | @list _ a _ ha hitems =>
    have hlive : (Value.ref a).Live s.store := Value.live_ref ha
    apply Eval.Binds.fetch ha
    apply (bindNames_binds hone hs hitems hargs hargs hlive hroom false).imp takesAll_iff.symm
    · intro s' bs htakes _ hgives
      exact hgives.givesAll htakes
    · intro fault hblames
      exact hblames

theorem bindsRight_list (hone : ∀ p ∈ ps, BindsRight env p) : BindsRight env (.list ps) := by
  intro s name v hs hname hv hroom
  rw [nesting] at hroom
  cases hname with
  | @list _ a items ha hitems =>
    apply Eval.Binds.fetch ha
    dsimp only
    cases v with
    | num n =>
      apply Eval.Binds.raise hs hv _ trivial
      rintro ⟨⟩
    | sym x =>
      apply Eval.Binds.raise hs hv _ trivial
      rintro ⟨⟩
    | ref b =>
      obtain ⟨o, hb⟩ := Store.contains_iff.mp (hv b rfl)
      apply Eval.Binds.fetch hb
      cases o with
      | list items' =>
        have hdeeper : { s with depth := s.depth + 1 }.HasScope env := ⟨hs.intact, hs.isScope⟩
        have hitems' : ∀ v ∈ items'.toList, v.Live s.store := fun v hv => hs.intact.live_item hb hv
        have hroom' : s.depth + 1 + nestingAll ps ≤ s.config.maxDepth := by omega
        apply Eval.Binds.enter (by omega)
        apply (bindParams_binds hone hdeeper (.list ha hitems) hitems' hroom').imp
        · constructor
          · exact .list hb
          · intro h
            cases h with
            | list hb' h =>
              cases hb.symm.trans hb'
              exact h
        · intro s' bs _ hrebinds hgives
          exact .list (hrebinds.list hdeeper hb) hgives
        · intro fault _
          trivial
      | str | scope | function | failure | input | output =>
        apply Eval.Binds.raise hs hv _ trivial
        intro h
        cases h with
        | list hb' => cases hb.symm.trans hb'

mutual

theorem bindOne_binds (env : Addr) : (p : Param) → BindsRight env p
  | .name x => by
    intro s name v hs hname hv _
    cases hname
    have hperform : (Effect.define env x v).perform s =
        some ((), { s with store := s.store.modifyBindings env (·.insert x v) }) := by
      rw [Effect.perform_define, if_pos hs.live]
    exact ⟨_, _, .effect hperform (.done _ _), .ok (.name x v) (.define hs x hv) (.name x v)⟩
  | .list ps => bindsRight_list (bindAll_binds env ps)

theorem bindAll_binds (env : Addr) : (ps : List Param) → ∀ p ∈ ps, BindsRight env p
  | [] => List.forall_mem_nil _
  | p :: ps => List.forall_mem_cons.mpr ⟨bindOne_binds env p, bindAll_binds env ps⟩

end

/-- Every parameter is a name. -/
def Flat (ps : List Param) : Prop := ∀ p ∈ ps, ∃ x, p = .name x

/-- Names take everything, so that only the number of arguments or the missing name after `&rest` is
left to blame. -/
theorem Blames.kind_of_flat {st : Store Object} {fault : Fault}
    (h : Blames st (deal ps args false) fault) (hflat : Flat ps) (hfits : ¬TakesAll st ps args) :
    (¬CountFits ps args.length → fault.kind = .arity) ∧
    (CountFits ps args.length → fault.kind = .type) := by
  obtain ⟨hnames, hrest⟩ := forall_deal hflat (fun v (_ : v ∈ args) => trivial) trivial false
  have htaken : ∀ p v, (p, v) ∈ (deal ps args false).1 → Takes st p v := by
    intro p v hv
    obtain ⟨⟨x, rfl⟩, _⟩ := hnames p v hv
    exact .name x v
  obtain ⟨hcount, hunnamed⟩ := h htaken
  constructor
  · intro hno
    rw [hcount (deal_of_not_countFits hno)]
    rfl
  · intro hfitting
    have hremainder : ¬TakesRest st (deal ps args false).2 :=
      fun hrest => hfits (takesAll_iff.mpr ⟨htaken, hrest⟩)
    cases hcase : (deal ps args false).2 with
    | none =>
      rw [hcase] at hremainder
      exact absurd .none hremainder
    | rest q vs =>
      obtain ⟨⟨x, rfl⟩, _⟩ := hrest q vs hcase
      rw [hcase] at hremainder
      exact absurd (.name x vs) hremainder
    | unnamed =>
      rw [hunnamed hcase]
      rfl
    | wrongCount =>
      rw [deal_of_countFits hfitting] at hcase
      exact absurd hcase (remainder_ne_wrongCount ps args)

end Param

/-- Binding parameters to arguments comes to an end. It succeeds exactly if the arguments fit the
parameters; then every name is bound to what the parameters give it, the last time it is given
something. In any case nothing but the bindings of the scope has changed, apart from new objects.
Among names alone an error is due to the number of arguments or, if that is right, to a missing name
after `&rest`. -/
theorem Interp.bind_follows_parameters {s : Interp} {env : Addr} {scope : Scope} {params : Value}
    {ps : List Param} {args : List Value} (hstore : s.store.Intact)
    (henv : s.store.get? env = some (.scope scope))
    (hparams : Param.Stored s.store (.list ps) params) (hargs : ∀ v ∈ args, v.Live s.store)
    (hroom : s.depth + Param.nestingAll ps ≤ s.config.maxDepth) :
    ∃ r s' bindings, (∃ fuel, s.bind fuel env params args = .finished r s') ∧
      s' = { s with store := s'.store } ∧
      (∀ a o, a ≠ env → s.store.get? a = some o → s'.store.get? a = some o) ∧
      s'.store.get? env = some (.scope { scope with bindings := bindings }) ∧
      ((∃ v, r = .ok v) ↔ Param.TakesAll s.store ps args) ∧
      (∀ v, r = .ok v → ∃ bs, Param.GivesAll s.store s'.store ps args bs ∧
        ∀ x, bindings.get? x = (bs.reverse.lookup x).or (scope.bindings.get? x)) ∧
      (∀ e, r = .error e → Param.Flat ps → ∃ f, s'.store.get? e = some (.failure f) ∧
        (¬Param.CountFits ps args.length → f.fault.kind = .arity) ∧
        (Param.CountFits ps args.length → f.fault.kind = .type)) := by
  obtain ⟨r, s', hends, hbound⟩ :=
    Param.bindParams_binds (Param.bindAll_binds env ps) ⟨hstore, scope, henv⟩ hparams hargs hroom
  cases hbound with
  | @ok _ bs hfits h hgives =>
    have hall : (do Eval.bindParams env params args; return .nil : Eval Value).Ends s
        (.ok .nil) s' :=
      Eval.ends_bind.mpr (.inl ⟨(), s', hends, .done _ _⟩)
    refine ⟨.ok .nil, s', _, Interp.run_finished_iff.mpr hall, h.storeOnly, fun _ _ => h.kept,
      h.scope henv, ?_, ?_, ?_⟩
    · exact ⟨fun _ => hfits, fun _ => ⟨_, rfl⟩⟩
    · intro _ _
      exact ⟨bs, hgives, scope.bindings.get?_insertAll bs⟩
    · rintro _ ⟨⟩
  | @error _ bs e f hfits h he hf =>
    have hall : (do Eval.bindParams env params args; return .nil : Eval Value).Ends s
        (.error e) s' :=
      Eval.ends_bind.mpr (.inr ⟨e, hends, rfl⟩)
    refine ⟨.error e, s', _, Interp.run_finished_iff.mpr hall, h.storeOnly, fun _ _ => h.kept,
      h.scope henv, ?_, ?_, ?_⟩
    · constructor
      · rintro ⟨_, ⟨⟩⟩
      · intro htakes
        exact absurd htakes hfits
    · rintro _ ⟨⟩
    · rintro _ ⟨⟩ hflat
      exact ⟨f, he, hf.kind_of_flat hflat hfits⟩

/-- A list of parameters takes a list apart, and a name that is given twice keeps what it is given
last. -/
theorem Interp.bind_follows_parameters_nested :
    let a : Symbol := ⟨20⟩
    let b : Symbol := ⟨21⟩
    let s₁ := ((bare ⟨1, 65536, false⟩ .empty 0).alloc (.list #[.sym a, .sym .rest, .sym b])).2
    let s₂ := (s₁.alloc (.list #[.ref ⟨1⟩, .sym .optional, .sym a])).2
    let s := (s₂.alloc (.list #[.num 1, .num 2, .num 3])).2
    ∃ v s' c scope, (∃ fuel, s.bind fuel ⟨0⟩ (.ref ⟨2⟩) [.ref ⟨3⟩] = .finished (.ok v) s') ∧
      s'.store.get? ⟨0⟩ = some (.scope scope) ∧ scope.bindings.get? a = some .nil ∧
      scope.bindings.get? b = some (.ref c) ∧
      s.store.get? c = none ∧ s'.store.get? c = some (.list #[.num 2, .num 3]) := by
  intro a b s₁ s₂ s
  have henv : s.store.get? ⟨0⟩ = some (.scope (.inside none)) := by
    subst s s₂ s₁ b a
    rfl
  have hone : s.store.get? ⟨1⟩ = some (.list #[.sym a, .sym .rest, .sym b]) := by
    subst s s₂ s₁ b a
    rfl
  have htwo : s.store.get? ⟨2⟩ = some (.list #[.ref ⟨1⟩, .sym .optional, .sym a]) := by
    subst s s₂ s₁ b a
    rfl
  have hthree : s.store.get? ⟨3⟩ = some (.list #[.num 1, .num 2, .num 3]) := by
    subst s s₂ s₁ b a
    rfl
  have hbare := (bare_sound ⟨1, 65536, false⟩ .empty 0).intact
  have hstore : s.store.Intact := by
    refine ((hbare.insert ?_).insert ?_).insert ?_
    · simp
    · subst s s₂ s₁ b a
      simp
      rfl
    · simp
  have hparams : Param.Stored s.store
      (.list [.list [.name a, .name .rest, .name b], .name .optional, .name a]) (.ref ⟨2⟩) :=
    .list htwo (.cons (.list hone (.cons (.name a) (.cons (.name .rest) (.cons (.name b) .nil))))
      (.cons (.name .optional) (.cons (.name a) .nil)))
  have hargs : ∀ v ∈ [Value.ref ⟨3⟩], v.Live s.store := by
    simp only [List.mem_singleton, forall_eq]
    rintro _ ⟨⟩
    rw [Store.contains, hthree]
    rfl
  have hinner : Param.TakesAll s.store [.name a, .name .rest, .name b]
      [.num 1, .num 2, .num 3] := by
    refine .intro ⟨by decide, by decide⟩ ?_ (.name b [.num 2, .num 3])
    intro p v hv
    cases List.mem_singleton.mp hv
    exact .name a _
  have htakes : Param.TakesAll s.store [.list [.name a, .name .rest, .name b], .name .optional,
      .name a] [.ref ⟨3⟩] := by
    refine .intro ⟨by decide, by decide⟩ ?_ .none
    intro p v hv
    rcases List.mem_cons.mp hv with heq | hv
    · cases heq
      exact .list hthree hinner
    · cases List.mem_singleton.mp hv
      exact .name a _
  obtain ⟨r, s', bindings, hrun, _, hkept, henv', hok, hbound, _⟩ :=
    bind_follows_parameters hstore henv hparams hargs (by decide)
  obtain ⟨v, rfl⟩ := hok.mpr htakes
  obtain ⟨bs, hgives, hget⟩ := hbound v rfl
  have hthree' := hkept ⟨3⟩ _ (by decide) hthree
  obtain ⟨hnames, hrest⟩ := hgives
  cases hrest
  rcases hnames with _ | ⟨hlist, hothers⟩
  rcases hothers with _ | ⟨hname, hnone⟩
  cases hnone
  cases hname
  cases hlist with
  | list hitems hinner =>
    cases hthree'.symm.trans hitems
    obtain ⟨hnames, hrest⟩ := hinner
    rcases hnames with _ | ⟨hname, hnone⟩
    cases hnone
    cases hname
    rcases hrest with _ | ⟨hnew, hc, hname⟩
    cases hname
    exact ⟨v, s', _, _, hrun, henv', hget a, hget b, hnew, hc⟩

end HeapLisp
