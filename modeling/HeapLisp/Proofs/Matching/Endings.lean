import HeapLisp.Proofs.Machine.Endings
import HeapLisp.Proofs.Matching.States

namespace HeapLisp

/-- The evaluation asks for effects and nothing else. -/
inductive Eval.Plain {α : Type} : Eval α → Prop where
  | done (a : α) : Plain (.done a)
  | fail (e : Addr) : Plain (.fail e)
  | effect (e : Effect) {k : e.Reply → Eval α} (h : ∀ r, Plain (k r)) : Plain (.effect e k)

namespace Eval.Plain

variable {α β : Type}

theorem bind {x : Eval α} {f : α → Eval β} (h : x.Plain) (hf : ∀ a, (f a).Plain) :
    (x >>= f).Plain := by
  induction h with
  | done a => exact hf a
  | fail e => exact .fail e
  | effect e _ ih => exact .effect e ih

theorem perform (e : Effect) : (Eval.perform e).Plain := .effect e .done

theorem locate (scope : Addr) : (Eval.locate scope).Plain := by
  refine (perform _).bind fun name => ?_
  split
  · refine (perform _).bind fun o => ?_
    split
    · refine (perform _).bind fun line => ?_
      split <;> exact .done _
    · exact .done _
  · exact .done _

theorem raise (scope : Addr) (fault : Fault) (subject : Value) :
    (Eval.raise scope fault subject : Eval α).Plain :=
  (locate scope).bind fun _ => (perform _).bind fun e => .fail e

end Eval.Plain

namespace Simulation

variable {S : Simulation}

/-- An evaluation that only asks for effects ends, because matching states answer them. -/
theorem exists_ends (htimed : S.timed = true) {α : Type} {top : Bool} {P : Post α} {M : Matching}
    {x y : Eval α} {s t : Interp} (hx : Alike top P M x y) (hplain : x.Plain) (hs : S.states M s t)
    (hn : top = false → s.depth ≠ 0) :
    ∃ r s', x.Ends s r s' := by
  induction hx generalizing s t with
  | @done M a => exact ⟨_, s, .done a s⟩
  | @fail M e => exact ⟨_, s, .fail e s⟩
  | effect hask _ ih =>
    obtain ⟨N, a, b, s₁, t₁, ha, _, hq, hs₁⟩ :=
      S.answered hs hask hn fun hf => by simp [htimed] at hf
    rw [← Effect.perform_depth ha] at hn
    cases hplain with
    | effect _ hplain =>
      obtain ⟨r, s', hends⟩ := ih N a b hq (hplain a) hs₁ hn
      exact ⟨r, s', .effect ha hends⟩
  | call | native | loop => cases hplain

end Simulation

/-- Matching evaluations end alike, and if they are nested in others, what does not match is left
alone. -/
theorem States.ends {α : Type} {top : Bool} {P : Post α} {M : Matching} {x y : Eval α}
    {s s' t : Interp} {r : Except Addr α} (h : x.Ends s r s') (hx : Alike top P M x y)
    (hs : States true M s t) (hn : top = false → s.depth ≠ 0) :
    ∃ N r' t', y.Ends t r' t' ∧ P N r r' ∧ States true N s' t' ∧
      (top = false → M.Frames t.store N t'.store) := by
  induction h generalizing top M t with
  | done a s =>
    cases hx with
    | done hq => exact ⟨M, _, t, .done _ t, hq, hs, fun _ => .refl M _⟩
  | fail e s =>
    cases hx with
    | fail hq => exact ⟨M, _, t, .fail _ t, hq, hs, fun _ => .refl M _⟩
  | effect he _ ih =>
    cases hx with
    | effect hask hk =>
      obtain ⟨N, a, b, s₁, t₁, ha, hb, hq, hs₁, hf₁⟩ := hs.answered hask hn (by rintro ⟨⟩)
      cases he.symm.trans ha
      rw [← Effect.perform_depth he] at hn
      obtain ⟨N', q, t', hz, hP, hs', hf'⟩ := ih (hk N _ b hq) hs₁ hn
      exact ⟨N', q, t', .effect hb hz, hP, hs', fun ht => (hf₁ ht).trans (hf' ht)⟩
  | @call _ c k s s₁ s' r₁ _ hroom hbody _ ihbody ih =>
    cases hx with
    | @call _ _ d _ l hc hk =>
      -- one level deeper, and back
      have hdeeper : States true M { s with depth := s.depth + 1 }
          { t with depth := s.depth + 1 } :=
        { hs with depth := rfl }
      obtain ⟨N, q₁, t₁, hbody', hP₁, hs₁, hf₁⟩ :=
        ihbody (Alike.body hc) hdeeper fun _ => Nat.succ_ne_zero _
      have hback : States true N { s₁ with depth := s₁.depth - 1 }
          { t₁ with depth := s₁.depth - 1 } :=
        { hs₁ with depth := rfl }
      have hn' : top = false → ({ s₁ with depth := s₁.depth - 1 } : Interp).depth ≠ 0 := by
        simpa [hbody.depth_eq] using hn
      obtain ⟨N', q, t', hz, hP, hs', hf'⟩ := ih (hk N r₁ q₁ hP₁.1 hP₁.2) hback hn'
      refine ⟨N', q, t', .call ?_ (hs.depth ▸ hbody') (hs₁.depth ▸ hz), hP, hs', fun ht =>
        (hf₁ rfl).trans (hf' ht)⟩
      rwa [← hs.depth, ← hs.maxDepth]
  | refused hfull hrefusal _ ihrefusal ih =>
    cases hx with
    | call hc hk =>
      obtain ⟨N, q₁, t₁, hrefusal', hP₁, hs₁, hf₁⟩ := ihrefusal (Alike.refusal hc) hs hn
      rw [← hrefusal.depth_eq] at hn
      obtain ⟨N', q, t', hz, hP, hs', hf'⟩ := ih (hk N _ q₁ hP₁.1 hP₁.2) hs₁ hn
      refine ⟨N', q, t', .refused ?_ hrefusal' hz, hP, hs', fun ht => (hf₁ ht).trans (hf' ht)⟩
      rwa [← hs.depth, ← hs.maxDepth]
  | native hnative _ ihnative ih =>
    cases hx with
    | native htop ha hargs hk =>
      subst htop
      obtain ⟨N, q₁, t₁, hnative', hP₁, hs₁, hf₁⟩ := ihnative (Alike.runNative ha _ hargs) hs hn
      rw [← hnative.depth_eq] at hn
      obtain ⟨N', q, t', hz, hP, hs', hf'⟩ := ih (hk N _ q₁ hP₁.1 hP₁.2) hs₁ hn
      exact ⟨N', q, t', .native hnative' hz, hP, hs', fun ht => (hf₁ ht).trans (hf' ht)⟩
  | again hturn _ ihturn ih =>
    cases hx with
    | loop hl hk =>
      obtain ⟨N, q₁, t₁, hturn', hP₁, hs₁, hf₁⟩ := ihturn (Alike.turn hl) hs hn
      rw [← hturn.depth_eq] at hn
      cases hP₁ with
      | again hl' ha =>
        obtain ⟨N', q, t', hz, hP, hs', hf'⟩ :=
          ih (.loop hl' fun N₂ r t ha' he => hk N₂ r t (ha N₂ ha') he) hs₁ hn
        exact ⟨N', q, t', .again hturn' hz, hP, hs', fun ht => (hf₁ ht).trans (hf' ht)⟩
  | finished hturn _ ihturn ih =>
    cases hx with
    | loop hl hk =>
      obtain ⟨N, q₁, t₁, hturn', hP₁, hs₁, hf₁⟩ := ihturn (Alike.turn hl) hs hn
      rw [← hturn.depth_eq] at hn
      cases hP₁ with
      | finished hv ha =>
        obtain ⟨N', q, t', hz, hP, hs', hf'⟩ := ih (hk N _ _ ha (.ok hv)) hs₁ hn
        exact ⟨N', q, t', .finished hturn' hz, hP, hs', fun ht => (hf₁ ht).trans (hf' ht)⟩
  | broken hturn _ ihturn ih =>
    cases hx with
    | loop hl hk =>
      obtain ⟨N, q₁, t₁, hturn', hP₁, hs₁, hf₁⟩ := ihturn (Alike.turn hl) hs hn
      rw [← hturn.depth_eq] at hn
      cases hP₁ with
      | error he ha =>
        obtain ⟨N', q, t', hz, hP, hs', hf'⟩ := ih (hk N _ _ ha (.error he)) hs₁ hn
        exact ⟨N', q, t', .broken hturn' hz, hP, hs', fun ht => (hf₁ ht).trans (hf' ht)⟩

namespace States

variable {M : Matching} {s s' t : Interp} {a b : Addr} {x y v : Value}

theorem ends_enter (hs : States true M s t) {c d : Call} (hc : M.Calls c d)
    (h : (Eval.enter c).Ends s (.ok v) s') :
    ∃ N w t', (Eval.enter d).Ends t (.ok w) t' ∧ M ≤ N ∧ N.Values v w ∧ States true N s' t' ∧
      M.Frames t.store N t'.store := by
  by_cases hroom : s.depth < s.config.maxDepth
  · obtain ⟨s₁, hbody, rfl⟩ := (Eval.ends_enter hroom).mp h
    have hdeeper : States true M { s with depth := s.depth + 1 } { t with depth := t.depth + 1 } :=
      { hs with depth := congrArg (· + 1) hs.depth }
    obtain ⟨N, _, t₁, hbody', ⟨hle, hv⟩, hs₁, hframes⟩ :=
      States.ends hbody (Alike.body hc) hdeeper fun _ => Nat.succ_ne_zero _
    rw [hs.depth, hs.maxDepth] at hroom
    cases hv with
    | ok hv =>
      exact ⟨N, _, _, (Eval.ends_enter hroom).mpr ⟨t₁, hbody', rfl⟩, hle, hv,
        { hs₁ with depth := hs.depth }, hframes rfl⟩
  · obtain ⟨_, hr, _⟩ := ((Eval.ends_enter_of_full hroom).mp h).of_raise
    cases hr

/-- Forms that match have values that match, at any depth; what does not match is left alone. -/
theorem ends_evaluate (hs : States true M s t) (hp : M.Pair a b) (hx : M.Values x y)
    (h : (Eval.evaluate a x).Ends s (.ok v) s') :
    ∃ N w t', (Eval.evaluate b y).Ends t (.ok w) t' ∧ M ≤ N ∧ N.Values v w ∧ States true N s' t' ∧
      M.Frames t.store N t'.store := by
  cases hx with
  | num n =>
    cases h
    exact ⟨M, _, t, .done _ t, le_refl M, .num n, hs, .refl M _⟩
  | @sym x _ =>
    obtain ⟨r, r', hr, hr', hv⟩ := hs.stores.lookup hp x
    have hlookup : (Effect.lookup a x).perform s = some (r, s) := by rw [Effect.perform, hr]
    have hlookup' : (Effect.lookup b x).perform t = some (r', t) := by rw [Effect.perform, hr']
    obtain ⟨found, s₁, hfound, hrest⟩ := Eval.ends_perform_bind.mp h
    cases hlookup.symm.trans hfound
    cases hv with
    | none =>
      obtain ⟨_, hq, _⟩ := hrest.of_raise
      cases hq
    | some hv =>
      cases hrest
      exact ⟨M, _, t, .effect hlookup' (.done _ t), le_refl M, hv, hs, .refl M _⟩
  | @ref c d hcd =>
    obtain ⟨o, p, ho, hp', _, hop⟩ := hs.stores.get hcd
    obtain ⟨o', ho', hrest⟩ := Eval.ends_fetch_bind.mp h
    cases ho.symm.trans ho'
    have hitems := hop.items?
    rw [Eval.evaluate]
    simp only [Eval.ends_fetch_bind, hp', Option.some.injEq, exists_eq_left']
    generalize o.items? = is at hitems hrest
    generalize p.items? = js at hitems ⊢
    cases hitems with
    | none =>
      cases hrest
      exact ⟨M, _, t, .done _ t, le_refl M, .ref hcd, hs, .refl M _⟩
    | some hitems =>
      cases hitems with
      | nil =>
        cases hrest
        exact ⟨M, _, t, .done _ t, le_refl M, .ref hcd, hs, .refl M _⟩
      | cons hh ha => exact hs.ends_enter ⟨hp, .ref hcd, .combine hh ha⟩ hrest

end States

end HeapLisp
