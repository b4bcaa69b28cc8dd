import HeapLisp.Proofs.Host.Hosting

namespace HeapLisp

/-- The form of the closure is the symbol of its kind, a list of parameters and a body. -/
def Closure.WellFormed (c : Closure) (st : Store Object) : Prop :=
  ∃ p params body, st.get? c.form = some (.list (.sym c.kind.symbol :: .ref p :: body).toArray) ∧
    st.get? p = some (.list params)

namespace Matching

variable {M N : Matching} {st st' : Store Object} {a : Addr} {c : Closure}

theorem Stores.list_of_pairs (h : M.Stores st st) (hp : M.pairs .list a a) :
    ∃ items, st.get? a = some (.list items) := by
  obtain ⟨o, _, ho, _, hk, _⟩ := h.objects hp
  cases o with
  | list items => exact ⟨items, ho⟩
  | str | scope | function | failure | input | output => cases hk

theorem Seals.wellFormed (h : M.Seals st) (hc : st.get? a = some (.function (.closure c))) :
    c.WellFormed st := by
  obtain ⟨_, p, body, hget, hp, _⟩ := h.form (h.form_of_closure hc)
  obtain ⟨params, hparams⟩ := h.stores.list_of_pairs hp
  exact ⟨p, params, body, hget, hparams⟩

theorem Seals.not_pair_form (h : M.Seals st) (hc : st.get? a = some (.function (.closure c))) :
    ¬ M.Pair c.form c.form :=
  h.apart (h.form_of_closure hc)

theorem Seals.not_list_of_notList (h : M.Seals st) {f : Failure}
    (hf : st.get? a = some (.failure f)) (hfault : f.fault = .notList) {b : Addr}
    {items : Array Value} (hb : f.subject = .ref b) :
    st.get? b ≠ some (.list items) := by
  intro hitems
  have hno := (h.failures hf).2 hfault
  rw [hb] at hno
  cases hno with
  | ref hp hk =>
    obtain ⟨o, _, ho, _, hkind, _⟩ := h.stores.objects hp
    cases hitems.symm.trans ho
    exact hk hkind.symm

theorem Follows.closure (h : M.Follows st N st') (hM : M.Seals st) (hN : N.Seals st')
    (hc : st.get? a = some (.function (.closure c))) (ha : st'.contains a = true) :
    st'.get? a = some (.function (.closure c)) ∧ st'.get? c.form = st.get? c.form := by
  have hc' := h.function hc ha
  have hchild : c.form ∈ (Object.function (.closure c)).children := .head _
  have hlive := hN.stores.left.closed hc' c.form hchild
  exact ⟨hc', h.form (hM.form_of_closure hc) hlive⟩

end Matching

namespace Hosting

variable {M : Matching} {σ τ : Hosting} {a : Addr} {c : Closure}

/-- Neither the host nor an object that programs can look into refers to the address. -/
def Hides (σ : Hosting) (a : Addr) : Prop :=
  a ∉ σ.held ∧ ∀ b o, σ.store.get? b = some o → ¬ o.Mentions (.ref a)

/-- A step after which there still is the object at the address. -/
def StepKeeping (a : Addr) (σ τ : Hosting) : Prop := σ.Step τ ∧ τ.store.contains a = true

theorem Guarded.hides (h : σ.Guarded M) (hc : σ.store.get? a = some (.function (.closure c))) :
    σ.Hides c.form := by
  have hseals : M.Seals σ.store := h.stage.seals
  have hform := hseals.not_pair_form hc
  constructor
  · intro hheld
    exact hform (h.held c.form hheld)
  · intro b o ho hm
    exact hform (hseals.pair_of_mentions ho hm)

theorem Guarded.closure_kept (h : σ.Guarded M) (hc : σ.store.get? a = some (.function (.closure c)))
    (hpath : Relation.ReflTransGen (StepKeeping a) σ τ) :
    τ.store.get? a = some (.function (.closure c)) ∧ τ.store.get? c.form = σ.store.get? c.form := by
  have hall : ∃ N : Matching, τ.Guarded N ∧ τ.store.get? a = some (.function (.closure c)) ∧
      τ.store.get? c.form = σ.store.get? c.form := by
    induction hpath with
    | refl => exact ⟨M, h, hc, rfl⟩
    | tail _ hstep ih =>
      obtain ⟨N, hN, hclosure, hform⟩ := ih
      obtain ⟨N', hN', hfollows⟩ := hN.step hstep.1
      obtain ⟨hclosure', hform'⟩ := hfollows.closure hN.stage.seals hN'.stage.seals hclosure hstep.2
      exact ⟨N', hN', hclosure', hform'.trans hform⟩
  obtain ⟨_, _, hkept⟩ := hall
  exact hkept

/-- Whatever a host has come to, between requests or in the middle of one: the form of every closure
is well formed and hidden, and both stay as they are until the closure is collected. No error object
says that a form is malformed, and none says of a list, such as that of a closure's parameters, that
it is none. -/
theorem closure_forms_private (h : σ.Reached) :
    (∀ a c, σ.store.get? a = some (.function (.closure c)) →
      c.WellFormed σ.store ∧ σ.Hides c.form ∧
      ∀ τ, Relation.ReflTransGen (StepKeeping a) σ τ →
        τ.store.get? a = some (.function (.closure c)) ∧
        τ.store.get? c.form = σ.store.get? c.form) ∧
    ∀ e f, σ.store.get? e = some (.failure f) →
      f.fault ≠ .malformedFunction ∧
      (f.fault = .notList → ∀ b items, f.subject = .ref b →
        σ.store.get? b ≠ some (.list items)) := by
  obtain ⟨M, hM⟩ := h.guarded
  have hseals : M.Seals σ.store := hM.stage.seals
  constructor
  · intro a c hc
    exact ⟨hseals.wellFormed hc, hM.hides hc, fun τ hpath => hM.closure_kept hc hpath⟩
  · intro e f hf
    exact ⟨(hseals.failures hf).1, fun hfault b items hb => hseals.not_list_of_notList hf hfault hb⟩

end Hosting

/-- Whether a run ended with an error and with a closure as the value of the name, which a
collection keeps. -/
def Outcome.failedWithClosure (name : Bytes) : Outcome → Bool
  | .finished (.error _) s =>
    match s.global? name with
    | some (.ref a) =>
      match s.store.get? a with
      | some (.function (.closure _)) => (s.collect []).2.store.contains a
      | _ => false
    | _ => false
  | _ => false

theorem Outcome.exists_of_failedWithClosure {o : Outcome} {name : Bytes}
    (h : o.failedWithClosure name = true) :
    ∃ e s a c, o = .finished (.error e) s ∧ s.store.get? a = some (.function (.closure c)) ∧
      (s.collect []).2.store.contains a = true := by
  unfold failedWithClosure at h
  split at h
  · split at h
    · split at h
      · rename_i hget
        exact ⟨_, _, _, _, rfl, hget, h⟩
      · cases h
    · cases h
  · cases h

/-- A text that defines a function and calls it with too few arguments; then the host collects. -/
theorem Hosting.closure_forms_private_refused :
    let q := Request.evalText (Bytes.ofString "(defq f (lambda (x) (list f x))) (f)") []
    let s := Interp.new ⟨200, 0, false⟩ .empty 0
    ∃ e s' held a c, q.serve 200 s = .finished (.error e) s' ∧ Reached ⟨.idle s', held⟩ ∧ e ∈ held ∧
      s'.store.get? a = some (.function (.closure c)) ∧ c.WellFormed s'.store ∧
      Hides ⟨.idle s', held⟩ c.form ∧
      (s'.collect []).2.store.get? c.form = s'.store.get? c.form := by
  intro q s
  have hfailed : (q.serve 200 s).failedWithClosure (Bytes.ofString "f") = true := by decide +kernel
  obtain ⟨e, s', a, c, hserve, hc, hcollect⟩ := Outcome.exists_of_failedWithClosure hfailed
  have hasks : Asks s ∅ q := .empty rfl
  obtain ⟨held, hpath, hresult⟩ := exists_served hasks hserve
  have hreached : Reached ⟨.idle s', held⟩ := ⟨_, _, _, hpath⟩
  obtain ⟨hwell, hhides, hkept⟩ := (closure_forms_private hreached).1 a c hc
  have hstep : Step ⟨.idle s', held⟩ ⟨.idle (s'.collect []).2, _⟩ :=
    .grant (q := .collect []) (.empty rfl) rfl rfl
  have hform := (hkept _ (.single ⟨hstep, hcollect⟩)).2
  exact ⟨e, s', held, a, c, hserve, hreached, hresult e rfl, hc, hwell, hhides, hform⟩

end HeapLisp
