import HeapLisp.Proofs.Machine.Lasting
import HeapLisp.Proofs.Matching.Copies

namespace HeapLisp

/-- Who has the object can get hold of the value: it is an item of a list, bound in a scope, or what
an error is about. -/
def Object.Mentions (v : Value) : Object → Prop
  | list items => v ∈ items.toList
  | scope s => ∃ symbol, s.bindings.get? symbol = some v
  | failure f => f.subject = v
  | str _ | function _ | input _ | output _ => False

namespace Matching

variable {M N : Matching} {st st₁ st' : Store Object} {a b : Addr} {v w : Value}

theorem restrict_le (M : Matching) (st st' : Store Object) : M.restrict st st' ≤ M :=
  ⟨fun _ _ _ hp => hp.1, fun _ _ _ hf => hf.1, fun _ hs => hs⟩

theorem NoLists.restrict (h : M.NoLists v w) (hv : ∀ a, v = .ref a → st.contains a = true)
    (hw : ∀ b, w = .ref b → st'.contains b = true) : (M.restrict st st').NoLists v w := by
  cases h with
  | num n => exact .num n
  | sym hs => exact .sym hs
  | ref hp hk => exact .ref ⟨hp, hv _ rfl, hw _ rfl⟩ hk

/-- A matching with one more form of closures. -/
def conceal (M : Matching) (k : ClosureKind) (a : Addr) : Matching :=
  { M with form := fun l c d => M.form l c d ∨ l = k ∧ c = a ∧ d = a }

theorem le_conceal (M : Matching) (k : ClosureKind) (a : Addr) : M ≤ M.conceal k a :=
  ⟨fun _ _ _ hp => hp, fun _ _ _ hf => .inl hf, fun _ hs => hs⟩

/-- At `a` there is a form of closures of the kind: their symbol, a list of parameters and a body,
which may be shared with programs. -/
def FormAt (M : Matching) (st : Store Object) (k : ClosureKind) (a : Addr) : Prop :=
  ∃ p vs, st.get? a = some (.list (.sym k.symbol :: .ref p :: vs).toArray) ∧ M.pairs .list p p ∧
    M.Lists vs vs

theorem FormAt.mono {k : ClosureKind} (h : M.FormAt st k a) (hle : M ≤ N)
    (hkept : ∀ {o}, st.get? a = some o → st'.get? a = some o) : N.FormAt st' k a := by
  obtain ⟨p, vs, hget, hp, hs⟩ := h
  exact ⟨p, vs, hkept hget, hle.1 _ _ _ hp, hs.mono hle⟩

theorem FormAt.objects {k : ClosureKind} (h : M.FormAt st k a) :
    ∃ params body, st.get? a = some (.list (.sym k.symbol :: params :: body).toArray) ∧
      M.Lists (.sym k.symbol :: params :: body) (.sym k.symbol :: params :: body) := by
  obtain ⟨p, vs, hget, hp, hs⟩ := h
  exact ⟨.ref p, vs, hget, .cons (.wellKnown k.symbol_wellKnown) (.cons (.ref hp.pair) hs)⟩

/-- No error says that a form is malformed, or of a list that it is none. -/
def Admits (M : Matching) (f : Failure) : Prop :=
  f.fault ≠ .malformedFunction ∧ (f.fault = .notList → M.NoLists f.subject f.subject)

theorem Admits.mono {f : Failure} (h : M.Admits f) (hle : M ≤ N) : N.Admits f :=
  ⟨h.1, fun hf => (h.2 hf).mono hle⟩

/-- Every object of the store is one that programs can get hold of, or the form of closures. So the
matching of a store with itself that leaves out the forms tells what programs can get hold of. -/
structure Seals (M : Matching) (st : Store Object) : Prop where
  stores : M.Stores st st
  same : ∀ {a b}, M.Pair a b → a = b
  form : ∀ {k a b}, M.form k a b → a = b ∧ M.FormAt st k a
  apart : ∀ {k a}, M.form k a a → ¬ M.Pair a a
  total : ∀ {a o}, st.get? a = some o → M.Pair a a ∨ ∃ k, M.form k a a
  failures : ∀ {a f}, st.get? a = some (.failure f) → M.Admits f

/-- How a store goes on from one with forms (`M`): what is still live can be got hold of or not as
before, and neither forms nor functions have changed. -/
structure Follows (M : Matching) (st : Store Object) (N : Matching)
    (st' : Store Object) : Prop where
  le : M.restrict st' st' ≤ N
  form : ∀ {k a}, M.form k a a → st'.contains a = true → st'.get? a = st.get? a
  function : ∀ {a f}, st.get? a = some (.function f) → st'.contains a = true →
    st'.get? a = some (.function f)

namespace Follows

theorem refl (M : Matching) (st : Store Object) : M.Follows st M st where
  le := M.restrict_le st st
  form _ _ := rfl
  function hf _ := hf

theorem of_le {N' : Matching} (h : N.Follows st N' st') (hle : M ≤ N) : M.Follows st N' st' where
  le := by
    have hrestrict : M.restrict st' st' ≤ N.restrict st' st' :=
      ⟨fun _ _ _ hp => ⟨hle.1 _ _ _ hp.1, hp.2⟩, fun _ _ _ hf =>
        ⟨hle.2.1 _ _ _ hf.1, hf.2⟩, hle.2.2⟩
    exact hrestrict.trans h.le
  form hf := h.form (hle.2.1 _ _ _ hf)
  function := h.function

theorem of_kept (hst : M.Stores st st) (hle : M ≤ N)
    (hkept : ∀ {a o}, st.get? a = some o → st'.get? a = some o) :
    M.Follows st N st' where
  le := (M.restrict_le st' st').trans hle
  form hf _ := by
    obtain ⟨o, ho⟩ := Store.contains_iff.mp (hst.form hf).1
    rw [ho, hkept ho]
  function hf _ := hkept hf

/-- Nothing has been lost by the first step, and nothing has changed since then. -/
theorem grow (h : M.Follows st M st₁) (hst : M.Stores st₁ st₁)
    (hlive : ∀ {a}, st.contains a = true → st₁.contains a = true) (hle : M ≤ N)
    (hkept : ∀ {a o}, st₁.get? a = some o → st'.get? a = some o) : M.Follows st N st' where
  le := (M.restrict_le st' st').trans hle
  form hf ha := by
    rw [(of_kept hst hle hkept).form hf ha]
    exact h.form hf (hst.form hf).1
  function {a f} hf _ := by
    have ha := hlive (Store.contains_iff.mpr ⟨_, hf⟩)
    exact hkept (h.function hf ha)

end Follows

namespace Seals

theorem pair_of_values (h : M.Seals st) (hv : M.Values (.ref a) w) : M.Pair a a := by
  cases hv with
  | ref hp =>
    cases h.same hp
    exact hp

theorem ne_of_form (h : M.Seals st) {k : ClosureKind} (hf : M.form k a a) (hp : M.Pair b b) :
    a ≠ b := by
  intro hab
  subst hab
  exact h.apart hf hp

/-- What may be stored as an error is one that a sealed store has. -/
theorem admits_of_suits (h : M.Seals st) {f : Failure} (hs : M.Suits (.failure f) (.failure f)) :
    M.Admits f := by
  obtain ⟨fault, location, subject⟩ := f
  have hb : M.Blames fault subject subject := hs
  constructor
  · intro hfault
    cases hfault
    cases hb with
    | ref hf hp => exact h.apart hf hp
  · intro hfault
    cases hfault
    exact hb

theorem empty : Seals .nothing .empty where
  stores := ⟨.empty, .empty, .empty, .empty, fun h => h.elim, fun h => h.elim⟩
  same h := h.elim fun _ h => h.elim
  form h := h.elim
  apart h := h.elim
  total h := by simp [Store.get?_empty] at h
  failures h := by simp [Store.get?_empty] at h

theorem learn (h : M.Seals st) (x : Symbol) : (M.learn x).Seals st where
  stores := h.stores.learn x
  same := h.same
  form hf := (h.form hf).imp_right fun hat => hat.mono (M.le_learn x) id
  apart := h.apart
  total := h.total
  failures hf := (h.failures hf).mono (M.le_learn x)

/-- A new object, whose address is one that programs can get hold of or that of a form. -/
theorem grow (h : M.Seals st) {o : Object} (ho : M.Objects o o) (hle : M ≤ N)
    (hpairs : ∀ {k c d}, N.pairs k c d → M.pairs k c d ∨ k = o.kind ∧ c = st.next ∧ d = st.next)
    (hform : ∀ {k c d}, N.form k c d → M.form k c d ∨ (c = st.next ∧ d = st.next) ∧
      N.FormAt (st.insert o) k st.next)
    (hnew : N.Pair st.next st.next ∧ (∀ k, ¬ N.form k st.next st.next) ∨
      ¬ N.Pair st.next st.next ∧ ∃ k, N.form k st.next st.next)
    (hfailure : ∀ f, o = .failure f → N.Admits f) :
    N.Seals (st.insert o) ∧ M.Follows st N (st.insert o) := by
  have hw := h.stores.left.toWellFormed
  have hkept {a : Addr} {x : Object} (hx : st.get? a = some x) : (st.insert o).get? a = some x :=
    hw.get?_insert_of_get? o hx
  refine ⟨?_, .of_kept h.stores hle hkept⟩
  constructor
  · exact h.stores.grow ho hle hpairs fun hf => (hform hf).imp_right And.left
  · intro a b hp
    obtain ⟨k, hk⟩ := hp
    obtain hk | ⟨_, rfl, rfl⟩ := hpairs hk
    · exact h.same ⟨k, hk⟩
    · rfl
  · intro k a b hf
    obtain hf | ⟨⟨rfl, rfl⟩, hat⟩ := hform hf
    · obtain ⟨hab, hat⟩ := h.form hf
      exact ⟨hab, hat.mono hle hkept⟩
    · exact ⟨rfl, hat⟩
  · intro k a hf hp
    by_cases ha : a = st.next
    · subst ha
      exact hnew.elim (fun hn => hn.2 k hf) fun hn => hn.1 hp
    · obtain ⟨l, hl⟩ := hp
      have hold : M.form k a a := (hform hf).resolve_right fun hn => ha hn.1.1
      have hpair : M.pairs l a a := (hpairs hl).resolve_right fun hn => ha hn.2.1
      exact h.apart hold ⟨l, hpair⟩
  · intro a x hx
    obtain ⟨rfl, -⟩ | hx := hw.get?_insert_cases hx
    · exact hnew.imp And.left And.right
    · exact (h.total hx).imp (fun hp => hp.mono hle) fun ⟨k, hf⟩ => ⟨k, hle.2.1 _ _ _ hf⟩
  · intro a f hx
    obtain ⟨-, ho⟩ | hx := hw.get?_insert_cases hx
    · exact hfailure f ho
    · exact (h.failures hx).mono hle

theorem not_form_next (h : M.Seals st) (k : ClosureKind) : ¬ M.form k st.next st.next := by
  intro hf
  obtain ⟨_, p, vs, hget, _⟩ := h.form hf
  rw [h.stores.left.get?_next] at hget
  cases hget

/-- An object that programs can get hold of, at a new address. -/
theorem insert (h : M.Seals st) {o : Object} (ho : M.Objects o o) (hs : M.Suits o o) :
    ∃ N, M ≤ N ∧ N.knows = M.knows ∧ N.pairs o.kind st.next st.next ∧ N.Seals (st.insert o) ∧
      M.Follows st N (st.insert o) := by
  have hle := M.le_withPair o.kind st.next st.next h.stores.ne_next
  refine ⟨_, hle, rfl, .inr ⟨rfl, rfl, rfl⟩, h.grow ho hle (fun hk => hk) (fun hf => .inl hf) ?_ ?_⟩
  · exact .inl ⟨⟨o.kind, .inr ⟨rfl, rfl, rfl⟩⟩, h.not_form_next⟩
  · intro f hf
    subst hf
    exact (h.admits_of_suits hs).mono hle

theorem insertForm (h : M.Seals st) (k : ClosureKind) {vs : List Value} (hp : M.pairs .list a a)
    (hs : M.Lists vs vs) :
    ∃ N, M ≤ N ∧ N.knows = M.knows ∧ N.form k st.next st.next ∧
      N.Seals (st.insert (.list (.sym k.symbol :: .ref a :: vs).toArray)) ∧
      M.Follows st N (st.insert (.list (.sym k.symbol :: .ref a :: vs).toArray)) := by
  have hle := M.le_conceal k st.next
  have ho : M.Objects (.list (.sym k.symbol :: .ref a :: vs).toArray)
      (.list (.sym k.symbol :: .ref a :: vs).toArray) :=
    .list (.cons (.wellKnown k.symbol_wellKnown) (.cons (.ref hp.pair) hs))
  refine ⟨_, hle, rfl, .inr ⟨rfl, rfl, rfl⟩,
    h.grow ho hle (fun hk => .inl hk) (fun hf => hf.imp_right ?_) ?_ ?_⟩
  · intro hf
    obtain ⟨rfl, rfl, rfl⟩ := hf
    exact ⟨⟨rfl, rfl⟩, a, vs, h.stores.left.get?_insert_next _, hp, hs.mono hle⟩
  · refine .inr ⟨?_, k, .inr ⟨rfl, rfl, rfl⟩⟩
    intro hpair
    obtain ⟨l, hl⟩ := hpair
    exact (h.stores.ne_next hl).1 rfl
  · intro f hf
    cases hf

/-- A change of an object that programs can get hold of. -/
theorem modify (h : M.Seals st) (hp : M.Pair a a) {f : Object → Object}
    (hst : M.Stores (st.modify a f) (st.modify a f))
    (hf : ∀ o, st.get? a = some o → o.Becomes (f o)) :
    M.Seals (st.modify a f) ∧ M.Follows st M (st.modify a f) := by
  -- a form is at another address
  have hform {k : ClosureKind} {b : Addr} (hb : M.form k b b) :
      (st.modify a f).get? b = st.get? b := by
    rw [Store.get?_modify, if_neg (h.ne_of_form hb hp)]
  have hback {b : Addr} {x : Object} (hx : (st.modify a f).get? b = some x) :
      ∃ o, st.get? b = some o ∧ o.Becomes x := by
    obtain ⟨o, ho, rfl, rfl⟩ | hx := Store.get?_modify_cases hx
    · exact ⟨o, ho, hf o ho⟩
    · exact ⟨x, hx, .refl x⟩
  constructor
  · constructor
    · exact hst
    · exact h.same
    · intro k b c hb
      obtain ⟨rfl, hat⟩ := h.form hb
      exact ⟨rfl, hat.mono (le_refl M) fun ho => (hform hb).trans ho⟩
    · exact h.apart
    · intro b x hx
      obtain ⟨o, ho, _⟩ := hback hx
      exact h.total ho
    · intro b g hx
      obtain ⟨o, ho, hbecomes⟩ := hback hx
      cases hbecomes
      exact h.failures ho
  · constructor
    · exact M.restrict_le _ _
    · intro k b hb _
      exact hform hb
    · intro b g hg hlive
      obtain ⟨x, hx⟩ := Store.contains_iff.mp hlive
      obtain ⟨o, ho, hbecomes⟩ := hback hx
      cases ho.symm.trans hg
      cases hbecomes
      exact hx

theorem modifyBindings (h : M.Seals st) (hp : M.Pair a a) {f : Bindings → Bindings}
    (hf : ∀ x y, M.Binds x y → M.Binds (f x) (f y)) :
    M.Seals (st.modifyBindings a f) ∧ M.Follows st M (st.modifyBindings a f) :=
  h.modify hp (h.stores.modifyBindings hp hf) fun o _ => o.becomes_mapBindings f

theorem setStream (h : M.Seals st) (hp : M.Pair a a) {stream : InputStream}
    (ha : st.get? a = some (.input stream)) (next : InputStream) :
    M.Seals (st.set a (.input next)) ∧ M.Follows st M (st.set a (.input next)) := by
  apply h.modify hp (h.stores.setStream hp ha next)
  intro o ho
  cases ho.symm.trans ha
  exact .input stream next

/-- Copies are lists that programs can get hold of. -/
theorem deepCopy (h : M.Seals st) (hv : M.Values v v) :
    ∃ N r st', st.deepCopy v = some (r, st') ∧ M ≤ N ∧ N.knows = M.knows ∧ N.Values r r ∧
      N.Seals st' ∧ M.Follows st N st' := by
  obtain ⟨copies, st', he, hc⟩ := h.stores.left.deepCopy (h.stores.live_values hv)
  have hle := h.stores.le_withCopies hc hc
  refine ⟨h.stores.withCopies hc hc, _, st', he, hle, rfl, h.stores.redirect hv hc hc hv, ?_,
    .of_kept h.stores hle hc.old⟩
  have hlist {b c : Addr} (hb : copies[b.index]? = some c) :
      ∃ items, st.get? b = some (.list items) :=
    (hc.mem_iff.mp ⟨c, hb⟩).get?
  constructor
  · exact h.stores.stores_withCopies hv hc hc
  · intro a b hp
    obtain ⟨k, hk | ⟨_, c, d, hcd, ha, hb⟩⟩ := hp
    · exact h.same ⟨k, hk⟩
    · rw [h.same hcd, hb] at ha
      exact (Option.some.inj ha).symm
  · intro k a b hf
    obtain ⟨hab, hform⟩ := h.form hf
    exact ⟨hab, hform.mono hle hc.old⟩
  · intro k a hf hp
    obtain ⟨l, hl | ⟨_, c, _, _, ha, _⟩⟩ := hp
    · exact h.apart hf ⟨l, hl⟩
    · obtain ⟨_, p, vs, hget, _⟩ := h.form hf
      rw [hc.fresh ha] at hget
      cases hget
  · intro a o ho
    obtain hold | ⟨b, hb⟩ := hc.only ho
    · exact (h.total hold).imp_left fun hp => hp.mono hle
    · -- what is copied are lists within what programs have
      obtain ⟨c, hp, _⟩ := h.stores.listWithin hv (hc.mem_iff.mp ⟨a, hb⟩)
      cases h.same hp
      exact .inl ⟨.list, .inr ⟨rfl, b, b, hp, hb, hb⟩⟩
  · intro a f hf
    obtain hold | ⟨b, hb⟩ := hc.only hf
    · exact (h.failures hold).mono hle
    · obtain ⟨items, hitems⟩ := hlist hb
      cases hf.symm.trans (hc.new hb hitems)

theorem keeps (h : M.Seals st) {roots : List Addr} (hk : st.Keeps roots st') :
    (M.restrict st' st').Seals st' ∧ M.Follows st (M.restrict st' st') st' := by
  constructor
  · constructor
    · exact h.stores.keeps hk hk
    · intro a b hp
      obtain ⟨k, hp⟩ := hp
      exact h.same ⟨k, hp.1⟩
    · intro k a b hf
      obtain ⟨hf, ha, _⟩ := hf
      obtain ⟨hab, p, vs, hget, hp, hs⟩ := h.form hf
      obtain ⟨o, ho⟩ := Store.contains_iff.mp ha
      cases hget.symm.trans (hk.sub ho)
      have hlive (c : Addr) (hc : .ref c ∈ .sym k.symbol :: .ref p :: vs) : st'.contains c = true :=
        hk.intact.closed ho c (Object.mem_children_list.mpr hc)
      have hparams := hlive p (.tail _ (.head _))
      have hbody (c : Addr) (hc : .ref c ∈ vs) := hlive c (.tail _ (.tail _ hc))
      exact ⟨hab, p, vs, ho, ⟨hp, hparams, hparams⟩, hs.restrict hbody hbody⟩
    · intro k a hf hp
      obtain ⟨l, hl⟩ := hp
      exact h.apart hf.1 ⟨l, hl.1⟩
    · intro a o ho
      have ha : st'.contains a = true := Store.contains_iff.mpr ⟨o, ho⟩
      obtain ⟨k, hp⟩ | ⟨k, hf⟩ := h.total (hk.sub ho)
      · exact .inl ⟨k, hp, ha, ha⟩
      · exact .inr ⟨k, hf, ha, ha⟩
    · intro a f hf
      obtain ⟨hfault, hlist⟩ := h.failures (hk.sub hf)
      have hlive (c : Addr) (hc : f.subject = .ref c) : st'.contains c = true :=
        hk.intact.closed hf c (Object.mem_children_failure.mpr hc)
      exact ⟨hfault, fun hn => (hlist hn).restrict hlive hlive⟩
  · constructor
    · exact le_refl _
    · intro k a _ ha
      obtain ⟨o, ho⟩ := Store.contains_iff.mp ha
      rw [ho, hk.sub ho]
    · intro a f hf ha
      obtain ⟨o, ho⟩ := Store.contains_iff.mp ha
      cases hf.symm.trans (hk.sub ho)
      exact ho

/-- What is mentioned in any object is something that programs can get hold of. -/
theorem pair_of_mentions (h : M.Seals st) {o : Object} (ho : st.get? b = some o)
    (hm : o.Mentions (.ref a)) : M.Pair a a := by
  obtain hp | ⟨k, hf⟩ := h.total ho
  · obtain ⟨x, y, hx, hy, _, hxy⟩ := h.stores.get hp
    cases ho.symm.trans hx
    cases hxy with
    | list hs =>
      obtain ⟨w, _, hw⟩ := hs.exists_of_mem hm
      exact h.pair_of_values hw
    | scope hb _ =>
      obtain ⟨symbol, hsymbol⟩ := hm
      obtain ⟨w, _, hw⟩ := rel_some_left (hb.values symbol) hsymbol
      exact h.pair_of_values hw
    | failure fault location hv =>
      cases hm
      exact h.pair_of_values hv
    | str | function | input | output => exact hm.elim
  · -- a form mentions its parameters and what is in its body
    obtain ⟨params, body, hget, hs⟩ := (h.form hf).2.objects
    cases ho.symm.trans hget
    obtain ⟨w, _, hw⟩ := hs.exists_of_mem hm
    exact h.pair_of_values hw

/-- The form of a closure in the store is one of its kind. -/
theorem form_of_closure (h : M.Seals st) {c : Closure}
    (hc : st.get? a = some (.function (.closure c))) :
    M.form c.kind c.form c.form := by
  obtain hp | ⟨k, hf⟩ := h.total hc
  · obtain ⟨x, y, hx, hy, _, hxy⟩ := h.stores.get hp
    cases hc.symm.trans hx
    cases hc.symm.trans hy
    cases hxy with
    | function hf =>
      cases hf with
      | closure hcc => exact hcc.form
  · obtain ⟨params, body, hget, _⟩ := (h.form hf).2.objects
    cases hc.symm.trans hget

end Seals

end Matching

end HeapLisp
