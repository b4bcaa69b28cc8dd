import HeapLisp.Proofs.Machine.Levels
import HeapLisp.Proofs.Scope.Walk

namespace HeapLisp

namespace Eval

variable {α β : Type} {s s' : Interp}

/-- Begun in one interpreter, the evaluation ends with the result and leaves the other
interpreter. -/
inductive Ends : {α : Type} → Eval α → Interp → Except Addr α → Interp → Prop where
  | done {α : Type} (a : α) (s : Interp) : Ends (.done a) s (.ok a) s
  | fail {α : Type} (e : Addr) (s : Interp) : Ends (.fail e : Eval α) s (.error e) s
  | effect {α : Type} {e : Effect} {k : e.Reply → Eval α} {s s₁ s' : Interp} {reply : e.Reply}
    {r : Except Addr α}
    (he : e.perform s = some (reply, s₁)) (hk : Ends (k reply) s₁ r s') : Ends (.effect e k) s r s'
  /-- A call that the configuration has room for. -/
  | call {α : Type} {c : Call} {k : Except Addr Value → Eval α} {s s₁ s' : Interp}
    {r₁ : Except Addr Value} {r : Except Addr α}
    (hroom : s.depth < s.config.maxDepth)
    (hbody : Ends c.body { s with depth := s.depth + 1 } r₁ s₁)
    (hk : Ends (k r₁) { s₁ with depth := s₁.depth - 1 } r s') : Ends (.call c k) s r s'
  /-- A call that would be too deep. -/
  | refused {α : Type} {c : Call} {k : Except Addr Value → Eval α} {s s₁ s' : Interp}
    {r₁ : Except Addr Value}
    {r : Except Addr α} (hfull : ¬s.depth < s.config.maxDepth) (hrefusal : Ends c.refusal s r₁ s₁)
    (hk : Ends (k r₁) s₁ r s') : Ends (.call c k) s r s'
  | native {α : Type} {scope : Addr} {n : Native} {args : List Value}
    {k : Except Addr Value → Eval α} {s s₁ s' : Interp}
    {r₁ : Except Addr Value} {r : Except Addr α} (hn : Ends (runNative scope args n) s r₁ s₁)
    (hk : Ends (k r₁) s₁ r s') :
    Ends (.native scope n args k) s r s'
  /-- A turn after which the loop goes on. -/
  | again {α : Type} {l l' : Loop} {k : Except Addr Value → Eval α} {s s₁ s' : Interp}
    {r : Except Addr α}
    (hturn : Ends l.turn s (.ok (.again l')) s₁) (hloop : Ends (.loop l' k) s₁ r s') :
    Ends (.loop l k) s r s'
  /-- The last turn. -/
  | finished {α : Type} {l : Loop} {k : Except Addr Value → Eval α} {s s₁ s' : Interp} {v : Value}
    {r : Except Addr α}
    (hturn : Ends l.turn s (.ok (.finished v)) s₁) (hk : Ends (k (.ok v)) s₁ r s') :
    Ends (.loop l k) s r s'
  /-- A turn that fails. -/
  | broken {α : Type} {l : Loop} {k : Except Addr Value → Eval α} {s s₁ s' : Interp} {e : Addr}
    {r : Except Addr α}
    (hturn : Ends l.turn s (.error e) s₁) (hk : Ends (k (.error e)) s₁ r s') :
    Ends (.loop l k) s r s'

theorem Ends.depth_eq {x : Eval α} {r : Except Addr α} (h : x.Ends s r s') :
    s'.depth = s.depth := by
  induction h with
  | done | fail => rfl
  | effect he _ ih => exact ih.trans (Effect.perform_depth he)
  | call _ _ _ ihbody ih => rw [ih, ihbody, Nat.add_sub_cancel]
  | refused _ _ _ ihpart ih | native _ _ ihpart ih | again _ _ ihpart ih | finished _ _ ihpart ih
  | broken _ _ ihpart ih =>
    exact ih.trans ihpart

theorem Ends.config_eq {x : Eval α} {r : Except Addr α} (h : x.Ends s r s') :
    s'.config = s.config := by
  induction h with
  | done | fail => rfl
  | effect he _ ih => exact ih.trans (congrArg Prod.snd (Effect.perform_level he))
  | call _ _ _ ihpart ih | refused _ _ _ ihpart ih | native _ _ ihpart ih | again _ _ ihpart ih
  | finished _ _ ihpart ih
  | broken _ _ ihpart ih => exact ih.trans ihpart

theorem Ends.unique {x : Eval α} {r r' : Except Addr α} {s₁ s₂ : Interp} (h : x.Ends s r s₁)
    (h' : x.Ends s r' s₂) :
    r = r' ∧ s₁ = s₂ := by
  induction h generalizing s₂ with
  | done | fail =>
    cases h'
    exact ⟨rfl, rfl⟩
  | effect he _ ih =>
    cases h' with
    | effect he' hk' =>
      cases he.symm.trans he'
      exact ih hk'
  | call hroom _ _ ihbody ih =>
    cases h' with
    | call _ hbody' hk' =>
      obtain ⟨rfl, rfl⟩ := ihbody hbody'
      exact ih hk'
    | refused hfull => exact absurd hroom hfull
  | refused hfull _ _ ihrefusal ih =>
    cases h' with
    | call hroom => exact absurd hroom hfull
    | refused _ hrefusal' hk' =>
      obtain ⟨rfl, rfl⟩ := ihrefusal hrefusal'
      exact ih hk'
  | native _ _ ihn ih =>
    cases h' with
    | native hn' hk' =>
      obtain ⟨rfl, rfl⟩ := ihn hn'
      exact ih hk'
  | again _ _ ihturn ih =>
    cases h' with
    | again hturn' hloop' =>
      obtain ⟨hr, rfl⟩ := ihturn hturn'
      cases hr
      exact ih hloop'
    | finished hturn' => cases (ihturn hturn').1
    | broken hturn' => cases (ihturn hturn').1
  | finished _ _ ihturn ih =>
    cases h' with
    | again hturn' => cases (ihturn hturn').1
    | finished hturn' hk' =>
      obtain ⟨hr, rfl⟩ := ihturn hturn'
      cases hr
      exact ih hk'
    | broken hturn' => cases (ihturn hturn').1
  | broken _ _ ihturn ih =>
    cases h' with
    | again hturn' => cases (ihturn hturn').1
    | finished hturn' => cases (ihturn hturn').1
    | broken hturn' hk' =>
      obtain ⟨hr, rfl⟩ := ihturn hturn'
      cases hr
      exact ih hk'

theorem ends_ofExcept {r r' : Except Addr α} : (ofExcept r).Ends s r' s' ↔ r' = r ∧ s' = s := by
  constructor
  · intro h
    cases r with
    | ok a =>
      cases h
      exact ⟨rfl, rfl⟩
    | error e =>
      cases h
      exact ⟨rfl, rfl⟩
  · rintro ⟨rfl, rfl⟩
    cases r' with
    | ok a => exact .done a s'
    | error e => exact .fail e s'

/-- A call that there is room for ends as its body does one level deeper. -/
theorem ends_enter {c : Call} {r : Except Addr Value} (hroom : s.depth < s.config.maxDepth) :
    (enter c).Ends s r s' ↔ ∃ s₁, c.body.Ends { s with depth := s.depth + 1 } r s₁ ∧
    s' = { s₁ with depth := s.depth } := by
  constructor
  · intro h
    cases h with
    | call _ hbody hk =>
      obtain ⟨rfl, rfl⟩ := ends_ofExcept.mp hk
      exact ⟨_, hbody, by simp [hbody.depth_eq]⟩
    | refused hfull => exact absurd hroom hfull
  · intro h
    obtain ⟨s₁, hbody, rfl⟩ := h
    exact .call hroom hbody (ends_ofExcept.mpr ⟨rfl, by simp [hbody.depth_eq]⟩)

theorem ends_enter_of_full {c : Call} {r : Except Addr Value}
    (hfull : ¬s.depth < s.config.maxDepth) :
    (enter c).Ends s r s' ↔ c.refusal.Ends s r s' := by
  constructor
  · intro h
    cases h with
    | call hroom => exact absurd hroom hfull
    | refused _ hrefusal hk =>
      obtain ⟨rfl, rfl⟩ := ends_ofExcept.mp hk
      exact hrefusal
  · intro h
    exact .refused hfull h (ends_ofExcept.mpr ⟨rfl, rfl⟩)

theorem resume_ofExcept (x : Eval α) : x.resume ofExcept = x := by
  induction x with
  | done | fail => rfl
  | effect e _ ih => exact congrArg (Eval.effect e) (funext ih)
  | call c _ ih => exact congrArg (Eval.call c) (funext ih)
  | native scope n args _ ih => exact congrArg (Eval.native scope n args) (funext ih)
  | loop l _ ih => exact congrArg (Eval.loop l) (funext ih)

theorem Ends.resume {x : Eval α} {k : Except Addr α → Eval β} {s₁ : Interp} {r₁ : Except Addr α}
    {r : Except Addr β} (h : x.Ends s r₁ s₁) (hk : (k r₁).Ends s₁ r s') :
    (x.resume k).Ends s r s' := by
  induction h with
  | done | fail => exact hk
  | effect he _ ih => exact .effect he (ih hk)
  | call hroom hbody _ _ ih => exact .call hroom hbody (ih hk)
  | refused hfull hrefusal _ _ ih => exact .refused hfull hrefusal (ih hk)
  | native hn _ _ ih => exact .native hn (ih hk)
  | again hturn _ _ ih => exact .again hturn (ih hk)
  | finished hturn _ _ ih => exact .finished hturn (ih hk)
  | broken hturn _ _ ih => exact .broken hturn (ih hk)

end Eval

/-- Begun in one interpreter, the loop ends after the given number of turns. -/
inductive Loop.Takes : Loop → Interp → Nat → Except Addr Value → Interp → Prop where
  | again {l l' : Loop} {s s₁ s' : Interp} {n : Nat} {r : Except Addr Value}
    (hturn : l.turn.Ends s (.ok (.again l')) s₁)
    (h : Takes l' s₁ n r s') : Takes l s (n + 1) r s'
  | finished {l : Loop} {s s' : Interp} {v : Value} (hturn : l.turn.Ends s (.ok (.finished v)) s') :
    Takes l s 1 (.ok v) s'
  | broken {l : Loop} {s s' : Interp} {e : Addr} (hturn : l.turn.Ends s (.error e) s') :
    Takes l s 1 (.error e) s'

namespace Eval

variable {α β : Type} {s s' : Interp}

theorem Ends.of_takes {l : Loop} {k : Except Addr Value → Eval α} {n : Nat} {s₁ : Interp}
    {r₁ : Except Addr Value} {r : Except Addr α} (h : l.Takes s n r₁ s₁)
    (hk : (k r₁).Ends s₁ r s') : (loop l k).Ends s r s' := by
  induction h with
  | again hturn _ ih => exact .again hturn (ih hk)
  | finished hturn => exact .finished hturn hk
  | broken hturn => exact .broken hturn hk

theorem ends_loop {l : Loop} {k : Except Addr Value → Eval α} {r : Except Addr α} :
    (loop l k).Ends s r s' ↔ ∃ n r₁ s₁, l.Takes s n r₁ s₁ ∧ (k r₁).Ends s₁ r s' := by
  constructor
  · intro h
    generalize hx : loop l k = x at h
    induction h generalizing l with
    | again hturn _ _ ih =>
      cases hx
      obtain ⟨n, r₁, s₁, hloop, hk⟩ := ih rfl
      exact ⟨n + 1, r₁, s₁, .again hturn hloop, hk⟩
    | finished hturn hk =>
      cases hx
      exact ⟨1, _, _, .finished hturn, hk⟩
    | broken hturn hk =>
      cases hx
      exact ⟨1, _, _, .broken hturn, hk⟩
    | done | fail | effect | call | refused | native => cases hx
  · intro h
    obtain ⟨n, r₁, s₁, hloop, hk⟩ := h
    exact .of_takes hloop hk

/-- What goes on from the ending of an evaluation ends once that evaluation has ended. -/
theorem ends_resume {x : Eval α} {k : Except Addr α → Eval β} {r : Except Addr β} :
    (x.resume k).Ends s r s' ↔ ∃ r₁ s₁, x.Ends s r₁ s₁ ∧ (k r₁).Ends s₁ r s' := by
  constructor
  · intro h
    induction x generalizing s with
    | done a => exact ⟨_, s, .done a s, h⟩
    | fail e => exact ⟨_, s, .fail e s, h⟩
    | effect e next ih =>
      cases h with
      | effect he h =>
        obtain ⟨r₁, s₁, hx, hk⟩ := ih _ h
        exact ⟨r₁, s₁, .effect he hx, hk⟩
    | call c next ih =>
      cases h with
      | call hroom hbody h =>
        obtain ⟨r₁, s₁, hx, hk⟩ := ih _ h
        exact ⟨r₁, s₁, .call hroom hbody hx, hk⟩
      | refused hfull hrefusal h =>
        obtain ⟨r₁, s₁, hx, hk⟩ := ih _ h
        exact ⟨r₁, s₁, .refused hfull hrefusal hx, hk⟩
    | native scope n args next ih =>
      cases h with
      | native hn h =>
        obtain ⟨r₁, s₁, hx, hk⟩ := ih _ h
        exact ⟨r₁, s₁, .native hn hx, hk⟩
    | loop l next ih =>
      obtain ⟨n, r₂, s₂, hloop, h⟩ := ends_loop.mp h
      obtain ⟨r₁, s₁, hx, hk⟩ := ih _ h
      exact ⟨r₁, s₁, .of_takes hloop hx, hk⟩
  · intro h
    obtain ⟨r₁, s₁, hx, hk⟩ := h
    exact hx.resume hk

theorem ends_attempt {x : Eval α} {r : Except Addr (Except Addr α)} :
    x.attempt.Ends s r s' ↔ ∃ r₁, x.Ends s r₁ s' ∧ r = .ok r₁ := by
  rw [attempt, ends_resume]
  constructor
  · intro h
    obtain ⟨r₁, s₁, hx, hdone⟩ := h
    cases hdone
    exact ⟨r₁, hx, rfl⟩
  · intro h
    obtain ⟨r₁, hx, rfl⟩ := h
    exact ⟨r₁, s', hx, .done r₁ s'⟩

theorem bind_eq_resume (x : Eval α) (f : α → Eval β) :
    (x >>= f) = x.resume fun r => ofExcept r >>= f := by
  induction x with
  | done | fail => rfl
  | effect e _ ih => exact congrArg (Eval.effect e) (funext ih)
  | call c _ ih => exact congrArg (Eval.call c) (funext ih)
  | native scope n args _ ih => exact congrArg (Eval.native scope n args) (funext ih)
  | loop l _ ih => exact congrArg (Eval.loop l) (funext ih)

/-- What goes on from the value of an evaluation ends after it, or the evaluation fails and that is
the end. -/
theorem ends_bind {x : Eval α} {f : α → Eval β} {r : Except Addr β} :
    (x >>= f).Ends s r s' ↔
      (∃ a s₁, x.Ends s (.ok a) s₁ ∧ (f a).Ends s₁ r s') ∨ ∃ e, x.Ends s (.error e) s' ∧
      r = .error e := by
  rw [bind_eq_resume, ends_resume]
  constructor
  · intro h
    obtain ⟨r₁, s₁, hx, hk⟩ := h
    cases r₁ with
    | ok a => exact .inl ⟨a, s₁, hx, hk⟩
    | error e =>
      cases hk
      exact .inr ⟨e, hx, rfl⟩
  · intro h
    obtain ⟨a, s₁, hx, hk⟩ | ⟨e, hx, rfl⟩ := h
    · exact ⟨_, s₁, hx, hk⟩
    · exact ⟨_, s', hx, .fail e s'⟩

/-- An effect does not fail: what follows goes on with its answer. -/
theorem ends_perform_bind {e : Effect} {f : e.Reply → Eval β} {r : Except Addr β} :
    (perform e >>= f).Ends s r s' ↔ ∃ a s₁, e.perform s = some (a, s₁) ∧ (f a).Ends s₁ r s' := by
  constructor
  · intro h
    cases h with
    | effect he hk => exact ⟨_, _, he, hk⟩
  · intro h
    obtain ⟨a, s₁, he, hk⟩ := h
    exact .effect he hk

/-- What follows an attempt goes on with either ending. -/
theorem ends_attempt_bind {x : Eval α} {f : Except Addr α → Eval β} {r : Except Addr β} :
    (x.attempt >>= f).Ends s r s' ↔ ∃ r₁ s₁, x.Ends s r₁ s₁ ∧ (f r₁).Ends s₁ r s' := by
  rw [ends_bind]
  simp only [ends_attempt]
  constructor
  · intro h
    obtain ⟨a, s₁, ⟨r₁, hx, ha⟩, hf⟩ | ⟨e, ⟨r₁, hx, he⟩, rfl⟩ := h
    · cases ha
      exact ⟨_, s₁, hx, hf⟩
    · cases he
  · intro h
    obtain ⟨r₁, s₁, hx, hf⟩ := h
    exact .inl ⟨r₁, s₁, ⟨r₁, hx, rfl⟩, hf⟩

theorem ends_fetch_bind {a : Addr} {f : Object → Eval β} {r : Except Addr β} :
    (fetch a >>= f).Ends s r s' ↔ ∃ o, s.store.get? a = some o ∧ (f o).Ends s r s' := by
  constructor
  · intro h
    obtain ⟨o, s₁, hfetch, hf⟩ := ends_perform_bind.mp h
    rw [Effect.perform] at hfetch
    split at hfetch <;> cases hfetch
    exact ⟨_, ‹_›, hf⟩
  · intro h
    obtain ⟨o, ho, hf⟩ := h
    exact .effect (by rw [Effect.perform, ho]) hf

theorem Ends.of_lookup_bind {scope : Addr} {symbol : Symbol} {f : Option Value → Eval β}
    {r : Except Addr β} (h : (lookup scope symbol >>= f).Ends s r s') :
    ∃ found, (f found).Ends s r s' := by
  obtain ⟨found, s₁, hlookup, hf⟩ := ends_perform_bind.mp h
  rw [Effect.perform] at hlookup
  split at hlookup <;> cases hlookup
  exact ⟨_, hf⟩

theorem Ends.of_locate {scope : Addr} {r : Except Addr Location} (h : (locate scope).Ends s r s') :
    s' = s ∧ ∃ location, r = .ok location := by
  have ended {location : Location} {r : Except Addr Location}
      (h : (Eval.done location).Ends s r s') :
      s' = s ∧ ∃ location, r = .ok location := by
    cases h
    exact ⟨rfl, location, rfl⟩
  obtain ⟨name, h⟩ := h.of_lookup_bind
  split at h
  · obtain ⟨o, _, h⟩ := ends_fetch_bind.mp h
    split at h
    · obtain ⟨line, h⟩ := h.of_lookup_bind
      split at h
      · exact ended h
      · exact ended h
    · exact ended h
  · exact ended h

theorem Ends.of_raise {scope : Addr} {fault : Fault} {subject : Value} {r : Except Addr α}
    (h : (raise scope fault subject).Ends s r s') :
    ∃ location, r = .error s.store.next ∧
      s' = (s.alloc (.failure ⟨fault, location, subject⟩)).2 := by
  obtain ⟨location, s₁, hlocate, hrest⟩ | ⟨e, hlocate, _⟩ := ends_bind.mp h
  · obtain ⟨rfl, _⟩ := hlocate.of_locate
    obtain ⟨e, s₂, halloc, hfail⟩ := ends_perform_bind.mp hrest
    cases halloc
    cases hfail
    exact ⟨location, rfl, rfl⟩
  · obtain ⟨_, location, hr⟩ := hlocate.of_locate
    cases hr

/-- Where nothing is dangling an error can be located. -/
theorem ends_locate {env : Addr} (hs : s.store.Intact) (henv : s.store.contains env = true) :
    ∃ location, (locate env).Ends s (.ok location) s := by
  have hlookup (x : Symbol) :
      ∃ found, (Effect.lookup env x).perform s = some (found, s) ∧ ∀ v ∈ found, v.Live s.store := by
    obtain ⟨found, hfound, hlive⟩ := hs.exists_lookup henv x
    exact ⟨found, by rw [Effect.perform, hfound], hlive⟩
  obtain ⟨name, hname, hlive⟩ := hlookup .streamName
  obtain ⟨line, hline, _⟩ := hlookup .streamLine
  cases name with
  | none => exact ⟨_, .effect hname (.done _ _)⟩
  | some v =>
    cases v with
    | num | sym => exact ⟨_, .effect hname (.done _ _)⟩
    | ref a =>
      obtain ⟨o, ho⟩ := Store.contains_iff.mp (hlive _ rfl a rfl)
      have hfetch : (Effect.fetch a).perform s = some (o, s) := by rw [Effect.perform, ho]
      cases o with
      | str text =>
        rcases line with _ | ⟨_ | _ | _⟩ <;>
          exact ⟨_, .effect hname (.effect hfetch (.effect hline (.done _ _)))⟩
      | list | scope | function | failure | input | output =>
        exact ⟨_, .effect hname (.effect hfetch (.done _ _))⟩

/-- Raising an error ends, with the error stored at the next address. -/
theorem exists_raise_ends {env : Addr} (hs : s.store.Intact) (henv : s.store.contains env = true)
    (fault : Fault) (v : Value) :
    ∃ location, (raise env fault v : Eval α).Ends s (.error s.store.next)
      (s.alloc (.failure ⟨fault, location, v⟩)).2 := by
  obtain ⟨location, hlocate⟩ := ends_locate hs henv
  exact ⟨location, ends_bind.mpr (.inl ⟨location, s, hlocate, .effect rfl (.fail _ _)⟩)⟩

theorem ends_iterate {l : Loop} {r : Except Addr Value} :
    (iterate l).Ends s r s' ↔ ∃ n, l.Takes s n r s' := by
  rw [iterate, ends_loop]
  constructor
  · intro h
    obtain ⟨n, r₁, s₁, hloop, hk⟩ := h
    obtain ⟨rfl, rfl⟩ := ends_ofExcept.mp hk
    exact ⟨n, hloop⟩
  · intro h
    obtain ⟨n, hloop⟩ := h
    exact ⟨n, r, s', hloop, ends_ofExcept.mpr ⟨rfl, rfl⟩⟩

/-- The evaluation only looks, and comes to the value. -/
def Finds (s : Interp) (x : Eval α) (a : α) : Prop := ∀ r s', x.Ends s r s' ↔ r = .ok a ∧ s' = s

namespace Finds

theorem pure (s : Interp) (a : α) : Finds s (Pure.pure a) a := by
  intro r s'
  exact ends_ofExcept (r := .ok a)

/-- What follows goes on in the same state, with the value that was found. -/
theorem bind {x : Eval α} {f : α → Eval β} {a : α} {r : Except Addr β} (h : Finds s x a) :
    (x >>= f).Ends s r s' ↔ (f a).Ends s r s' := by
  rw [ends_bind]
  simp only [h _ _]
  constructor
  · rintro (⟨a', s₁, ⟨ha, rfl⟩, hf⟩ | ⟨e, ⟨he, _⟩, _⟩)
    · cases ha
      exact hf
    · cases he
  · intro hf
    exact .inl ⟨a, s, ⟨rfl, rfl⟩, hf⟩

theorem andThen {x : Eval α} {f : α → Eval β} {a : α} {b : β} (h : Finds s x a)
    (hf : Finds s (f a) b) : Finds s (x >>= f) b :=
  fun r s' => h.bind.trans (hf r s')

theorem perform {e : Effect} {a : e.Reply} (h : e.perform s = some (a, s)) :
    Finds s (perform e) a := by
  intro r s'
  constructor
  · intro hends
    cases hends with
    | effect he hk =>
      cases h.symm.trans he
      exact ends_ofExcept.mp hk
  · rintro ⟨rfl, rfl⟩
    exact .effect h (.done _ _)

theorem fetch {a : Addr} {o : Object} (h : s.store.get? a = some o) : Finds s (fetch a) o :=
  perform (by rw [Effect.perform, h])

end Finds

end Eval

/-- The callers that wait for a result go on with it one after the other, each one level up, to the
end. -/
inductive Unwinds : List Frame → Except Addr Value → Interp → Except Addr Value →
    Interp → Prop where
  | nil (r : Except Addr Value) (s : Interp) : Unwinds [] r s r s
  | cons {k : Frame} {stack : List Frame} {r r₁ r' : Except Addr Value} {s s₁ s' : Interp}
    (hk : (k r).Ends { s with depth := s.depth - 1 } r₁ s₁) (h : Unwinds stack r₁ s₁ r' s') :
    Unwinds (k :: stack) r s r' s'

namespace Machine

variable {x : Eval Value} {stack : List Frame} {s s' : Interp} {r : Except Addr Value}

/-- The end of a run is the end of the evaluation under way, and then of its callers. -/
theorem ends_of_run {fuel : Nat} (h : run fuel ⟨x, stack, s⟩ = .finished r s') :
    ∃ r₁ s₁, x.Ends s r₁ s₁ ∧ Unwinds stack r₁ s₁ r s' := by
  induction fuel generalizing x stack s with
  | zero => cases h
  | succ fuel ih =>
    rw [run] at h
    cases x with
    | done v =>
      cases stack with
      | nil =>
        cases h
        exact ⟨_, _, .done v _, .nil _ _⟩
      | cons k stack =>
        obtain ⟨r₁, s₁, hk, hrest⟩ := ih h
        exact ⟨_, _, .done v s, .cons hk hrest⟩
    | fail e =>
      cases stack with
      | nil =>
        cases h
        exact ⟨_, _, .fail e _, .nil _ _⟩
      | cons k stack =>
        obtain ⟨r₁, s₁, hk, hrest⟩ := ih h
        exact ⟨_, _, .fail e s, .cons hk hrest⟩
    | effect e k =>
      rw [step] at h
      cases he : e.perform s with
      | none =>
        rw [he] at h
        cases h
      | some answer =>
        rw [he] at h
        obtain ⟨r₁, s₁, hk, hrest⟩ := ih h
        exact ⟨r₁, s₁, .effect he hk, hrest⟩
    | call c k =>
      rw [step] at h
      by_cases hroom : s.depth < s.config.maxDepth
      · rw [if_pos hroom] at h
        obtain ⟨r₂, s₂, hbody, hwaiting⟩ := ih h
        cases hwaiting with
        | cons hk hrest => exact ⟨_, _, .call hroom hbody hk, hrest⟩
      · rw [if_neg hroom] at h
        obtain ⟨r₁, s₁, hx, hrest⟩ := ih h
        obtain ⟨r₂, s₂, hrefusal, hk⟩ := Eval.ends_resume.mp hx
        exact ⟨r₁, s₁, .refused hroom hrefusal hk, hrest⟩
    | native scope n args k =>
      obtain ⟨r₁, s₁, hx, hrest⟩ := ih h
      obtain ⟨r₂, s₂, hn, hk⟩ := Eval.ends_resume.mp hx
      exact ⟨r₁, s₁, .native hn hk, hrest⟩
    | loop l k =>
      obtain ⟨r₁, s₁, hx, hrest⟩ := ih h
      obtain ⟨r₂, s₂, hturn, hk⟩ := Eval.ends_resume.mp hx
      cases r₂ with
      | error e => exact ⟨r₁, s₁, .broken hturn hk, hrest⟩
      | ok turn =>
        cases turn with
        | again l => exact ⟨r₁, s₁, .again hturn hk, hrest⟩
        | finished v => exact ⟨r₁, s₁, .finished hturn hk, hrest⟩

/-- The end of a call is one level up, where its caller goes on. -/
theorem step_up (k : Frame) (r : Except Addr Value) :
    step ⟨.ofExcept r, k :: stack, s⟩ = .running ⟨k r, stack, { s with depth := s.depth - 1 }⟩ := by
  cases r <;> rfl

/-- The machine comes from an evaluation that ends to what follows it. -/
theorem reaches_of_ends {α : Type} {x : Eval α} {r : Except Addr α} (h : x.Ends s r s')
    (k : Except Addr α → Eval Value) (stack : List Frame) :
    Reaches ⟨x.resume k, stack, s⟩ ⟨k r, stack, s'⟩ := by
  induction h generalizing stack with
  | done | fail => exact .refl
  | effect he _ ih =>
    refine .head ?_ (ih k stack)
    rw [Eval.resume, step, he]
  | @call _ c next _ _ _ r₁ _ hroom _ _ ihbody ih =>
    have hbody := ihbody .ofExcept ((fun r => (next r).resume k) :: stack)
    rw [Eval.resume_ofExcept] at hbody
    refine .head ?_ (hbody.trans (.head (step_up _ _) (ih k stack)))
    rw [Eval.resume, step, if_pos hroom]
  | @refused _ c next _ _ _ _ _ hfull _ _ ihrefusal ih =>
    have hrefusal := ihrefusal (fun r => (next r).resume k) stack
    refine .head ?_ (hrefusal.trans (ih k stack))
    rw [Eval.resume, step, if_neg hfull]
  | native _ _ ihn ih => exact .head rfl ((ihn _ stack).trans (ih k stack))
  | again _ _ ihturn ih => exact .head rfl ((ihturn _ stack).trans (ih k stack))
  | finished _ _ ihturn ih => exact .head rfl ((ihturn _ stack).trans (ih k stack))
  | broken _ _ ihturn ih => exact .head rfl ((ihturn _ stack).trans (ih k stack))

theorem run_of_reaches {m m' : Machine} (h : m.Reaches m') (hend : m'.step = .finished r s') :
    ∃ fuel, m.run fuel = .finished r s' := by
  induction h using Relation.ReflTransGen.head_induction_on with
  | refl => exact ⟨1, by rw [run, hend]⟩
  | head hstep _ ih =>
    obtain ⟨fuel, hfuel⟩ := ih
    exact ⟨fuel + 1, by rw [run, hstep, ← hfuel]⟩

end Machine

/-- Whether a run came to an end. -/
def Outcome.isFinished : Outcome → Bool
  | finished _ _ => true
  | dangling | outOfFuel => false

theorem Outcome.exists_of_isFinished {o : Outcome} (h : o.isFinished = true) :
    ∃ r s, o = .finished r s := by
  cases o with
  | finished r s => exact ⟨r, s, rfl⟩
  | dangling | outOfFuel => cases h

/-- An evaluation ends in a way exactly if some run of it does. -/
theorem Interp.run_finished_iff {x : Eval Value} {s s' : Interp} {r : Except Addr Value} :
    (∃ fuel, s.run fuel x = .finished r s') ↔ x.Ends s r s' := by
  constructor
  · intro h
    obtain ⟨fuel, hrun⟩ := h
    obtain ⟨r₁, s₁, hx, hrest⟩ := Machine.ends_of_run hrun
    cases hrest
    exact hx
  · intro h
    have hreach := Machine.reaches_of_ends h .ofExcept []
    rw [Eval.resume_ofExcept] at hreach
    apply Machine.run_of_reaches hreach
    cases r <;> rfl

end HeapLisp
