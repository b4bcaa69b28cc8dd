import HeapLisp.Proofs.Machine.Lasting

namespace HeapLisp

variable {s s₁ s' : Interp} {scope a : Addr} {fn : Function} {head f : Value}
  {args forms : List Value} {items : Array Value}

/-- The host evaluates forms one by one, from left to right and up to the first that fails: these
are their values, or its error. -/
inductive Interp.EvalEach (scope : Addr) : Interp → List Value → Except Addr (List Value) →
    Interp → Prop where
  | nil (s : Interp) : EvalEach scope s [] (.ok []) s
  | fails {s s' : Interp} {form : Value} {e : Addr}
    (hform : ∃ fuel, s.eval fuel scope form = .finished (.error e) s')
    (forms : List Value) : EvalEach scope s (form :: forms) (.error e) s'
  | cons {s s₁ s' : Interp} {form v : Value} {forms : List Value} {r : Except Addr (List Value)}
    (hform : ∃ fuel, s.eval fuel scope form = .finished (.ok v) s₁)
    (hforms : EvalEach scope s₁ forms r s') :
    EvalEach scope s (form :: forms) (r.map (v :: ·)) s'

/-- The function is called with values: it is no special form and no expander. -/
def Function.TakesValues : Function → Prop
  | native (.special _) => False
  | native (.primitive _) => True
  | closure c => c.kind = .lambda

/-- What a call of the function does, with what it is called with. -/
def Function.work (scope : Addr) (args : List Value) : Function → Eval Value
  | native n => Eval.invoke scope n args
  | closure c => Eval.applyClosure c args

namespace Eval

theorem ends_bind_of_ok {α β : Type} {x : Eval α} {k : α → Eval β} {v : α} {r : Except Addr β}
    (h : x.Ends s (.ok v) s₁) :
    (x >>= k).Ends s r s' ↔ (k v).Ends s₁ r s' := by
  rw [ends_bind]
  constructor
  · rintro (⟨v', s₂, h', hk⟩ | ⟨e, h', _⟩)
    · obtain ⟨hv, rfl⟩ := h.unique h'
      cases hv
      exact hk
    · cases (h.unique h').1
  · intro hk
    exact .inl ⟨v, s₁, h, hk⟩

/-- An evaluation that goes through forms from left to right, and carries along what it has come to,
ends as evaluating each of them does. -/
theorem ends_each {σ β : Type} (walk : σ → List Value → Eval β) (next : σ → Value → σ) (out : σ → β)
    (hnil : ∀ t, walk t [] = pure (out t))
    (hcons : ∀ t form forms, walk t (form :: forms) = evaluate scope form >>= fun v =>
      walk (next t v) forms)
    {t : σ} {r : Except Addr β} :
    (walk t forms).Ends s r s' ↔ ∃ r₁, Interp.EvalEach scope s forms r₁ s' ∧
    r = r₁.map fun values => out (values.foldl next t) := by
  constructor
  · intro h
    induction forms generalizing s t with
    | nil =>
      rw [hnil] at h
      cases h
      exact ⟨_, .nil s', rfl⟩
    | cons form forms ih =>
      rw [hcons] at h
      obtain ⟨v, s₁, hform, hforms⟩ | ⟨e, hform, rfl⟩ := ends_bind.mp h
      · obtain ⟨r₁, heach, rfl⟩ := ih hforms
        refine ⟨_, .cons (Interp.run_finished_iff.mpr hform) heach, ?_⟩
        cases r₁ <;> rfl
      · exact ⟨_, .fails (Interp.run_finished_iff.mpr hform) forms, rfl⟩
  · rintro ⟨r₁, heach, rfl⟩
    -- what is carried along is the fold over the values so far
    induction heach generalizing t with
    | nil s =>
      rw [hnil]
      exact .done _ s
    | fails hform forms =>
      rw [hcons, ends_bind]
      exact .inr ⟨_, Interp.run_finished_iff.mp hform, rfl⟩
    | @cons _ _ _ _ v _ r₁ hform _ ih =>
      rw [hcons, ends_bind_of_ok (Interp.run_finished_iff.mp hform)]
      have hrest := @ih (next t v)
      cases r₁ <;> exact hrest

theorem ends_evaluateAll {r : Except Addr (List Value)} : (evaluateAll scope forms).Ends s r s' ↔
    Interp.EvalEach scope s forms r s' := by
  have hvalues (values : List Value) :
      (values.foldl (fun before v => v :: before) []).reverse = values := by
    rw [List.foldl_flip_cons_eq_append', List.append_nil, List.reverse_reverse]
  have hsame (r₁ : Except Addr (List Value)) :
      (r₁.map fun values => (values.foldl (fun before v => v :: before) []).reverse) = r₁ := by
    cases r₁ with
    | ok values => exact congrArg Except.ok (hvalues values)
    | error e => rfl
  refine (ends_each (evaluateOnto scope) (fun before v => v :: before) List.reverse (fun _ => rfl)
    fun _ _ _ => rfl).trans ?_
  simp only [hsame, exists_eq_right']

theorem foldl_last (values : List Value) (last : Value) :
    values.foldl (fun _ v => v) last = values.getLast?.getD last := by
  induction values generalizing last with
  | nil => rfl
  | cons v values ih => rw [List.foldl_cons, ih, List.getLast?_cons, Option.getD_some]

theorem ends_sequence {last : Value} {r : Except Addr Value} :
    (sequence scope last forms).Ends s r s' ↔ ∃ r₁, Interp.EvalEach scope s forms r₁ s' ∧
    r = r₁.map (·.getLast?.getD last) := by
  refine (ends_each (sequence scope) (fun _ v => v) id (fun _ => rfl) fun _ _ _ => rfl).trans ?_
  simp only [foldl_last, id]

theorem finds_functionOf (hf : s.object? f = some (.function fn)) :
    Finds s (functionOf f) (some fn) := by
  obtain ⟨b, rfl, hb⟩ : ∃ b, f = .ref b ∧ s.store.get? b = some (.function fn) := by
    cases f with
    | ref b => exact ⟨b, rfl, hf⟩
    | num | sym => cases hf
  exact (Finds.fetch hb).andThen (.pure s _)

theorem ends_apply {r : Except Addr Value} (hroom : s.depth < s.config.maxDepth)
    (hf : s.object? f = some (.function fn)) :
    (apply scope f args).Ends s r s' ↔
      ∃ s₁, (fn.work scope args).Ends { s with depth := s.depth + 1 } r s₁ ∧
        s' = { s₁ with depth := s.depth } := by
  refine (finds_functionOf hf).bind.trans ?_
  cases fn <;> exact ends_enter hroom

theorem ends_apply_above {r : Except Addr Value} {d : Nat} (hdepth : s.depth = d + 1)
    (hroom : d < s.config.maxDepth) (hf : s.object? f = some (.function fn)) :
    (apply scope f args).Ends { s with depth := d } r s' ↔ ∃ s₁, (fn.work scope args).Ends s r s₁ ∧
    s' = { s₁ with depth := d } := by
  have hup : ({ s with depth := d + 1 } : Interp) = s := by rw [← hdepth]
  rw [ends_apply (s := { s with depth := d }) hroom hf, hup]

theorem ends_evaluate_list {r : Except Addr Value} (hroom : s.depth < s.config.maxDepth)
    (ha : s.store.get? a = some (.list items)) (hitems : items.toList = head :: args) :
    (evaluate scope (.ref a)).Ends s r s' ↔
      ∃ s₁, (Call.body ⟨scope, .ref a, .combine head args⟩).Ends
        { s with depth := s.depth + 1 } r s₁ ∧
        s' = { s₁ with depth := s.depth } := by
  refine (Finds.fetch ha).bind.trans ?_
  rw [Object.items?, hitems]
  exact ends_enter hroom

theorem finds_progn (s : Interp) (scope : Addr) (values : List Value) :
    Finds s (invoke scope (.primitive .progn) values) (values.getLast?.getD .nil) := by
  intro r s'
  constructor
  · intro h
    cases h with
    | native hn hk =>
      cases hn
      exact ends_ofExcept.mp hk
  · rintro ⟨rfl, rfl⟩
    exact .native (.done _ _) (.done _ _)

theorem Ends.eq_of_symbol {x : Symbol} {v : Value}
    (h : (evaluate scope (.sym x)).Ends s (.ok v) s') : s' = s := by
  obtain ⟨found, hfound⟩ := h.of_lookup_bind
  cases found with
  | some v =>
    cases hfound
    rfl
  | none =>
    obtain ⟨_, hr, _⟩ := hfound.of_raise
    cases hr

theorem Ends.object?_function {α : Type} {x : Eval α} {r : Except Addr α} (h : x.Ends s r s')
    (hs : s.store.WellFormed) (hdepth : s.depth ≠ 0) (hf : s.object? f = some (.function fn)) :
    s'.object? f = some (.function fn) := by
  cases f with
  | ref b =>
    have hlasts := (h.lasts (A := .univ) (V := fun _ => True) hs fun htop => absurd htop hdepth).1
    obtain ⟨o, ho, hbecomes⟩ := hlasts.becomes b trivial _ hf
    cases hbecomes
    exact ho
  | num | sym => cases hf

section

variable (hroom : s.depth < s.config.maxDepth) (ha : s.store.get? a = some (.list items))
  (hitems : items.toList = head :: args)
    (hhead : (evaluate scope head).Ends { s with depth := s.depth + 1 } (.ok f) s₁)
    (hf : s₁.object? f = some (.function fn))
  {r : Except Addr Value}
include hroom ha hitems hhead hf

/-- A form whose head comes to a function of values evaluates the arguments, and then does the
function's work. -/
theorem ends_call_of_takesValues (hfn : fn.TakesValues) :
    (evaluate scope (.ref a)).Ends s r s' ↔
      ∃ s₂, (evaluateAll scope args >>= fun values => fn.work scope values).Ends s₁ r s₂ ∧
        s' = { s₂ with depth := s.depth } := by
  rw [ends_evaluate_list hroom ha hitems]
  refine exists_congr fun s₂ => and_congr_left fun _ =>
    (ends_bind_of_ok hhead).trans ((finds_functionOf hf).bind.trans ?_)
  rcases fn with (_ | _) | ⟨_ | _, _, _⟩
  · cases hfn
  · rfl
  · rfl
  · cases hfn

/-- A form whose head comes to an expander does its work on the argument forms, and then evaluates
the expansion. -/
theorem ends_call_of_expander {c : Closure} (hfn : fn = .closure c) (hc : c.kind = .expander) :
    (evaluate scope (.ref a)).Ends s r s' ↔
      ∃ s₂, (fn.work scope args >>= evaluate scope).Ends s₁ r s₂ ∧
        s' = { s₂ with depth := s.depth } := by
  rw [ends_evaluate_list hroom ha hitems]
  refine exists_congr fun s₂ => and_congr_left fun _ =>
    (ends_bind_of_ok hhead).trans ((finds_functionOf hf).bind.trans ?_)
  obtain ⟨kind, form, captured⟩ := c
  cases hc
  rw [hfn]
  rfl

/-- A call of a function of values is evaluating the arguments, and then applying the function to
their values. -/
theorem ends_call_iff_apply (hs : s.store.WellFormed) (hfn : fn.TakesValues) :
    (evaluate scope (.ref a)).Ends s r s' ↔
      (∃ e s₂, Interp.EvalEach scope s₁ args (.error e) s₂ ∧ r = .error e ∧
        s' = { s₂ with depth := s.depth }) ∨
      ∃ values s₂, Interp.EvalEach scope s₁ args (.ok values) s₂ ∧
        (apply scope f values).Ends { s₂ with depth := s.depth } r s' := by
  have hdepth : s₁.depth = s.depth + 1 := hhead.depth_eq
  have hs₁ : s₁.store.WellFormed :=
    (hhead.lasts (A := .univ) (V := fun _ => True) hs (absurd · (Nat.succ_ne_zero _))).1.wellFormed
  -- the arguments may change lists and scopes, but not the function
  have happly {values : List Value} {s₂ : Interp}
      (hargs : (evaluateAll scope args).Ends s₁ (.ok values) s₂) :
      (apply scope f values).Ends { s₂ with depth := s.depth } r s' ↔
        ∃ s₃, (fn.work scope values).Ends s₂ r s₃ ∧ s' = { s₃ with depth := s.depth } := by
    refine ends_apply_above (hargs.depth_eq.trans hdepth) ?_
      (hargs.object?_function hs₁ (by omega) hf)
    rw [hargs.config_eq, hhead.config_eq]
    exact hroom
  rw [ends_call_of_takesValues hroom ha hitems hhead hf hfn]
  simp only [← ends_evaluateAll, ends_bind]
  constructor
  · rintro ⟨s₃, ⟨values, s₂, hargs, hwork⟩ | ⟨e, hargs, rfl⟩, rfl⟩
    · exact .inr ⟨values, s₂, hargs, (happly hargs).mpr ⟨s₃, hwork, rfl⟩⟩
    · exact .inl ⟨e, s₃, hargs, rfl, rfl⟩
  · rintro (⟨e, s₂, hargs, rfl, rfl⟩ | ⟨values, s₂, hargs, hcall⟩)
    · exact ⟨s₂, .inr ⟨e, hargs, rfl⟩, rfl⟩
    · obtain ⟨s₃, hwork, rfl⟩ := (happly hargs).mp hcall
      exact ⟨s₃, .inl ⟨values, s₂, hargs, hwork⟩, rfl⟩

theorem ends_call_iff_expand {c : Closure} (hfn : fn = .closure c) (hc : c.kind = .expander) :
    (evaluate scope (.ref a)).Ends s r s' ↔
      (∃ e, (apply scope f args).Ends { s₁ with depth := s.depth } (.error e) s' ∧ r = .error e) ∨
      ∃ expansion s₂ s₃, (apply scope f args).Ends { s₁ with depth := s.depth } (.ok expansion) s₂ ∧
        (evaluate scope expansion).Ends { s₂ with depth := s.depth + 1 } r s₃ ∧
        s' = { s₃ with depth := s.depth } := by
  have hdepth : s₁.depth = s.depth + 1 := hhead.depth_eq
  have hroom₁ : s.depth < s₁.config.maxDepth := by
    rw [hhead.config_eq]
    exact hroom
  have hback {expansion : Value} {s₂ : Interp}
      (hwork : (fn.work scope args).Ends s₁ (.ok expansion) s₂) :
      ({ s₂ with depth := s.depth + 1 } : Interp) = s₂ := by
    rw [← hdepth, ← hwork.depth_eq]
  rw [ends_call_of_expander hroom ha hitems hhead hf hfn hc]
  simp only [ends_apply_above hdepth hroom₁ hf, ends_bind]
  constructor
  · rintro ⟨s₃, ⟨expansion, s₂, hwork, heval⟩ | ⟨e, hwork, rfl⟩, rfl⟩
    · rw [← hback hwork] at heval
      exact .inr ⟨expansion, _, s₃, ⟨s₂, hwork, rfl⟩, heval, rfl⟩
    · exact .inl ⟨e, ⟨s₃, hwork, rfl⟩, rfl⟩
  · rintro (⟨e, ⟨s₂, hwork, rfl⟩, rfl⟩ | ⟨expansion, _, s₃, ⟨s₂, hwork, rfl⟩, heval, rfl⟩)
    · exact ⟨s₂, .inr ⟨e, hwork, rfl⟩, rfl⟩
    · rw [hback hwork] at heval
      exact ⟨s₃, .inl ⟨expansion, s₂, hwork, heval⟩, rfl⟩

theorem ends_call_iff_sequence (hfn : fn = .native (.primitive .progn)) :
    (evaluate scope (.ref a)).Ends s r s' ↔ ∃ s₂, (sequence scope .nil args).Ends s₁ r s₂ ∧
    s' = { s₂ with depth := s.depth } := by
  rw [ends_call_of_takesValues hroom ha hitems hhead hf (hfn ▸ trivial)]
  refine exists_congr fun s₂ => and_congr_left fun _ => ?_
  rw [hfn, ends_bind, ends_sequence]
  simp only [ends_evaluateAll, Function.work, finds_progn _ _ _ _]
  constructor
  · rintro (⟨values, _, hargs, rfl, rfl⟩ | ⟨e, hargs, rfl⟩)
    · exact ⟨_, hargs, rfl⟩
    · exact ⟨_, hargs, rfl⟩
  · rintro ⟨r₁, hargs, rfl⟩
    cases r₁ with
    | ok values => exact .inl ⟨values, s₂, hargs, rfl, rfl⟩
    | error e => exact .inr ⟨e, hargs, rfl⟩

end

end Eval

namespace Interp

/-- Calls that are written as forms agree with calls by the host, one level below the form. If the
head comes to a function of values, the form evaluates its arguments from left to right, up to an
error, and then does what applying the function to the values does. If the head comes to an
expander, the form does what applying it to the argument forms does, and then evaluates the
expansion. A form headed by a symbol for `progn` evaluates its arguments in sequence. The results
are the same, and so is all that the interpreter holds. -/
theorem eval_agrees_with_apply (hs : s.store.WellFormed) (hroom : s.depth < s.config.maxDepth)
    (ha : s.store.get? a = some (.list items)) (hitems : items.toList = head :: args)
    (hhead : ∃ fuel, ({ s with depth := s.depth + 1 } : Interp).eval fuel scope head =
      .finished (.ok f) s₁)
    (hf : s₁.object? f = some (.function fn)) :
    (fn.TakesValues → ∀ r s', (∃ fuel, s.eval fuel scope (.ref a) = .finished r s') ↔
      (∃ e s₂, EvalEach scope s₁ args (.error e) s₂ ∧ r = .error e ∧
        s' = { s₂ with depth := s.depth }) ∨
      ∃ values s₂, EvalEach scope s₁ args (.ok values) s₂ ∧
        ∃ fuel, ({ s₂ with depth := s.depth } : Interp).apply fuel scope f values =
          .finished r s') ∧
    (∀ c, fn = .closure c → c.kind = .expander →
      ∀ r s', (∃ fuel, s.eval fuel scope (.ref a) = .finished r s') ↔
      (∃ e,
        (∃ fuel, ({ s₁ with depth := s.depth } : Interp).apply fuel scope f args =
          .finished (.error e) s') ∧ r = .error e) ∨
      ∃ expansion s₂ s₃,
        (∃ fuel, ({ s₁ with depth := s.depth } : Interp).apply fuel scope f args =
          .finished (.ok expansion) s₂) ∧
        (∃ fuel, ({ s₂ with depth := s.depth + 1 } : Interp).eval fuel scope expansion =
          .finished r s₃) ∧
        s' = { s₃ with depth := s.depth }) ∧
    ∀ x, head = .sym x → fn = .native (.primitive .progn) →
      ∀ r s', (∃ fuel, s.eval fuel scope (.ref a) = .finished r s') ↔
      ∃ s₂,
        (∃ fuel, ({ s with depth := s.depth + 1 } : Interp).progn fuel scope args =
          .finished r s₂) ∧
        s' = { s₂ with depth := s.depth } := by
  have hhead := run_finished_iff.mp hhead
  simp only [eval, apply, progn, run_finished_iff]
  refine ⟨fun hfn r s' => ?_, fun c hfn hc r s' => ?_, ?_⟩
  · exact Eval.ends_call_iff_apply hroom ha hitems hhead hf hs hfn
  · exact Eval.ends_call_iff_expand hroom ha hitems hhead hf hfn hc
  · rintro x rfl hfn r s'
    obtain rfl := hhead.eq_of_symbol
    exact Eval.ends_call_iff_sequence hroom ha hitems hhead hf hfn

/-- A list is made of a number and of what a nested form comes to, with room for no more than two
levels: the form makes the list that applying the function to the two values makes. -/
theorem eval_agrees_with_apply_nested :
    let s₁ := ((bare ⟨2, 65536, false⟩ .empty 0).alloc (.function (.native (.primitive .list)))).2
    let s₂ := (s₁.alloc (.function (.native (.primitive .progn)))).2
    let s₃ := (s₂.alloc (.list #[.ref ⟨2⟩, .num 1, .num 2])).2
    let s := (s₃.alloc (.list #[.ref ⟨1⟩, .num 1, .ref ⟨3⟩])).2
    ∃ r s', (∃ fuel, s.eval fuel ⟨0⟩ (.ref ⟨4⟩) = .finished r s') ∧
      ∃ fuel, s.apply fuel ⟨0⟩ (.ref ⟨1⟩) [.num 1, .num 2] = .finished r s' := by
  intro s₁ s₂ s₃ s
  have hs : s.store.WellFormed :=
    ((((Store.WellFormed.empty.insert _).insert _).insert _).insert _).insert _
  have happly : (s.apply 20 ⟨0⟩ (.ref ⟨1⟩) [.num 1, .num 2]).isFinished = true := by decide +kernel
  obtain ⟨r, s', happly⟩ := Outcome.exists_of_isFinished happly
  have heach : EvalEach ⟨0⟩ { s with depth := 1 } [.num 1, .ref ⟨3⟩] (.ok [.num 1, .num 2])
      { s with depth := 1 } := by
    subst s s₃ s₂ s₁
    exact .cons ⟨1, rfl⟩ (.cons ⟨20, rfl⟩ (.nil _))
  have hform : s.store.get? ⟨4⟩ = some (.list #[.ref ⟨1⟩, .num 1, .ref ⟨3⟩]) := by
    subst s s₃ s₂ s₁
    rfl
  have hlist : ({ s with depth := 1 } : Interp).object? (.ref ⟨1⟩) =
      some (.function (.native (.primitive .list))) := by
    subst s s₃ s₂ s₁
    rfl
  have hhead : ∃ fuel, ({ s with depth := 1 } : Interp).eval fuel ⟨0⟩ (.ref ⟨1⟩) =
      .finished (.ok (.ref ⟨1⟩)) { s with depth := 1 } := by
    subst s s₃ s₂ s₁
    exact ⟨2, rfl⟩
  have hagree := eval_agrees_with_apply hs (by decide) hform rfl hhead hlist
  exact ⟨r, s', (hagree.1 trivial r s').mpr (.inr ⟨_, _, heach, 20, happly⟩), 20, happly⟩

end Interp

end HeapLisp
