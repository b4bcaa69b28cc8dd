import HeapLisp.Proofs.Machine.Endings
import HeapLisp.Proofs.Parameters.Fitting

namespace HeapLisp

/-- Binds symbols to values, one after the other. -/
def Bindings.insertAll (b : Bindings) (bs : List (Symbol × Value)) : Bindings :=
  bs.foldl (fun b p => b.insert p.1 p.2) b

/-- Of several bindings of a symbol the last one counts. -/
theorem Bindings.get?_insertAll (b : Bindings) (bs : List (Symbol × Value)) (x : Symbol) :
    (b.insertAll bs).get? x = (bs.reverse.lookup x).or (b.get? x) := by
  induction bs generalizing b with
  | nil => simp [insertAll]
  | cons p bs ih =>
    have hrest := ih (b.insert p.1 p.2)
    rw [Bindings.get?_insert] at hrest
    rw [insertAll, List.foldl_cons, List.reverse_cons, List.lookup_append, Option.or_assoc]
    refine hrest.trans ?_
    congr 1
    obtain ⟨y, v⟩ := p
    by_cases hx : x = y
    · simp [hx]
    · have hne : (x == y) = false := beq_eq_false_iff_ne.mpr hx
      simp [List.lookup_cons, hx, hne]

namespace Interp

variable {env : Addr} {s s₁ s' : Interp} {v : Value} {bs bs' : List (Symbol × Value)}

/-- A scope to bind in, in a store where nothing is dangling. -/
structure HasScope (env : Addr) (s : Interp) : Prop where
  intact : s.store.Intact
  isScope : ∃ scope, s.store.get? env = some (.scope scope)

theorem HasScope.live (h : s.HasScope env) : s.store.contains env = true := by
  obtain ⟨scope, hscope⟩ := h.isScope
  exact Store.contains_iff.mpr ⟨_, hscope⟩

/-- From one interpreter to the other, the bindings were made in the scope, objects were added, and
nothing else changed. -/
structure Rebinds (env : Addr) (bs : List (Symbol × Value)) (s s' : Interp) : Prop where
  intact : s'.store.Intact
  storeOnly : s' = { s with store := s'.store }
  kept : ∀ {a o}, a ≠ env → s.store.get? a = some o → s'.store.get? a = some o
  scope : ∀ {scope}, s.store.get? env = some (.scope scope) →
    s'.store.get? env = some (.scope { scope with bindings := scope.bindings.insertAll bs })

namespace Rebinds

theorem refl (h : s.HasScope env) : s.Rebinds env [] s where
  intact := h.intact
  storeOnly := rfl
  kept _ ha := ha
  scope ha := ha

theorem trans (h : s.Rebinds env bs s₁) (h' : s₁.Rebinds env bs' s') :
    s.Rebinds env (bs ++ bs') s' where
  intact := h'.intact
  storeOnly := by
    rw [h'.storeOnly, h.storeOnly]
  kept hne ha := h'.kept hne (h.kept hne ha)
  scope ha := by
    have hboth := h'.scope (h.scope ha)
    rwa [Bindings.insertAll, Bindings.insertAll, ← List.foldl_append] at hboth

theorem hasScope (h : s.Rebinds env bs s') (hs : s.HasScope env) : s'.HasScope env := by
  obtain ⟨scope, hscope⟩ := hs.isScope
  exact ⟨h.intact, _, h.scope hscope⟩

theorem list (h : s.Rebinds env bs s') (hs : s.HasScope env) {a : Addr} {items : Array Value}
    (ha : s.store.get? a = some (.list items)) : s'.store.get? a = some (.list items) := by
  refine h.kept ?_ ha
  rintro rfl
  obtain ⟨scope, hscope⟩ := hs.isScope
  cases ha.symm.trans hscope

theorem contains (h : s.Rebinds env bs s') (hs : s.HasScope env) {a : Addr}
    (ha : s.store.contains a = true) :
    s'.store.contains a = true := by
  by_cases hne : a = env
  · subst hne
    exact (h.hasScope hs).live
  · obtain ⟨o, ho⟩ := Store.contains_iff.mp ha
    exact Store.contains_iff.mpr ⟨o, h.kept hne ho⟩

theorem live (h : s.Rebinds env bs s') (hs : s.HasScope env) (hv : v.Live s.store) :
    v.Live s'.store := by
  intro a ha
  exact h.contains hs (hv a ha)

theorem new (h : s.Rebinds env bs s') (hs : s.HasScope env) {c : Addr}
    (hc : s'.store.get? c = none) : s.store.get? c = none := by
  by_contra hlive
  obtain ⟨o, ho⟩ := Option.ne_none_iff_exists'.mp hlive
  obtain ⟨p, hp⟩ := Store.contains_iff.mp (h.contains hs (Store.contains_iff.mpr ⟨o, ho⟩))
  cases hc.symm.trans hp

theorem sameLists (h : s.Rebinds env bs s') (hs : s.HasScope env) :
    Param.SameLists s.store s'.store where
  intact := hs.intact
  list_iff {a} ha items := by
    refine ⟨fun hlist => ?_, h.list hs⟩
    obtain ⟨o, ho⟩ := Store.contains_iff.mp ha
    by_cases hne : a = env
    · subst hne
      obtain ⟨scope, hscope⟩ := (h.hasScope hs).isScope
      cases hlist.symm.trans hscope
    · cases hlist.symm.trans (h.kept hne ho)
      exact ho

theorem alloc (hs : s.HasScope env) {o : Object}
    (ho : ∀ c ∈ o.children, s.store.contains c = true) :
    s.Rebinds env [] (s.alloc o).2 ∧ (s.alloc o).2.store.get? s.store.next = some o ∧
    s.store.get? s.store.next = none := by
  have hkept {a : Addr} {p : Object} (ha : s.store.get? a = some p) :
      (s.alloc o).2.store.get? a = some p :=
    hs.intact.get?_insert_of_get? o ha
  exact ⟨⟨hs.intact.insert ho, rfl, fun _ => hkept, hkept⟩, hs.intact.get?_insert_next o,
    hs.intact.get?_next⟩

theorem define (hs : s.HasScope env) (x : Symbol) (hv : v.Live s.store) :
    s.Rebinds env [(x, v)] { s with store := s.store.modifyBindings env (·.insert x v) } where
  intact := hs.intact.define env x hv
  storeOnly := rfl
  kept hne ha := by simpa [hne] using ha
  scope ha := Store.get?_modifyBindings_of_scope ha _

/-- What a call binds one level deeper is bound once it is back. -/
theorem up {n : Nat} (h : { s with depth := n }.Rebinds env bs s') :
    s.Rebinds env bs { s' with depth := s.depth } where
  intact := h.intact
  storeOnly := by rw [h.storeOnly]
  kept := h.kept
  scope := h.scope

end Rebinds

end Interp

/-- How binding in a scope ends: with bindings that `gives` describes, if it `fits`, and otherwise
with an error whose fault `blames` describes. -/
inductive Bound (env : Addr) (s : Interp) (fits : Prop)
    (gives : Store Object → List (Symbol × Value) → Prop) (blames : Fault → Prop) :
    Except Addr Unit → Interp → Prop where
  | ok {s' : Interp} {bs : List (Symbol × Value)} (hfits : fits) (h : s.Rebinds env bs s')
    (hgives : gives s'.store bs) :
    Bound env s fits gives blames (.ok ()) s'
  | error {s' : Interp} {bs : List (Symbol × Value)} {e : Addr} {f : Failure} (hfits : ¬fits)
    (h : s.Rebinds env bs s')
    (he : s'.store.get? e = some (.failure f)) (hf : blames f.fault) :
    Bound env s fits gives blames (.error e) s'

/-- The evaluation ends, and binds in a scope. -/
def Eval.Binds (env : Addr) (s : Interp) (fits : Prop)
    (gives : Store Object → List (Symbol × Value) → Prop) (blames : Fault → Prop)
    (x : Eval Unit) : Prop :=
  ∃ r s', x.Ends s r s' ∧ Bound env s fits gives blames r s'

namespace Eval

variable {env : Addr} {s : Interp} {v : Value} {fits fits' : Prop}
  {gives gives' : Store Object → List (Symbol × Value) → Prop} {blames blames' : Fault → Prop}

namespace Binds

/-- Raising an error binds nothing. -/
theorem raise (h : s.HasScope env) {fault : Fault} (hv : v.Live s.store) (hfits : ¬fits)
    (hf : blames fault) :
    (raise env fault v).Binds env s fits gives blames := by
  obtain ⟨location, hends⟩ := exists_raise_ends h.intact h.live fault v
  have hchildren : ∀ c ∈ (Object.failure ⟨fault, location, v⟩).children,
      s.store.contains c = true := by
    intro c hc
    exact hv c (Object.mem_children_failure.mp hc)
  obtain ⟨hrebinds, hget, _⟩ := Interp.Rebinds.alloc h hchildren
  exact ⟨_, _, hends, .error hfits hrebinds hget hf⟩

/-- Going on after an evaluation that binds too. -/
theorem bind {x y : Eval Unit} (hx : x.Binds env s fits' gives' blames')
    (herror : ¬fits' → ¬fits ∧ ∀ fault, blames fault)
    (hok : ∀ s₁ bs₁, fits' → s.Rebinds env bs₁ s₁ → gives' s₁.store bs₁ →
      y.Binds env s₁ fits (fun st bs => gives st (bs₁ ++ bs)) blames) :
    (x >>= fun _ => y).Binds env s fits gives blames := by
  obtain ⟨r, s₁, hends, hbound⟩ := hx
  cases hbound with
  | ok hfits hrebinds hgives =>
    obtain ⟨r', s', hends', hbound'⟩ := hok s₁ _ hfits hrebinds hgives
    refine ⟨r', s', ends_bind.mpr (.inl ⟨(), s₁, hends, hends'⟩), ?_⟩
    cases hbound' with
    | ok hfits' hrebinds' hgives' => exact .ok hfits' (hrebinds.trans hrebinds') hgives'
    | error hfits' hrebinds' he hf => exact .error hfits' (hrebinds.trans hrebinds') he hf
  | error hfits hrebinds he hf =>
    obtain ⟨hfits', hblames⟩ := herror hfits
    exact ⟨_, _, ends_bind.mpr (.inr ⟨_, hends, rfl⟩), .error hfits' hrebinds he (hblames _)⟩

theorem imp {x : Eval Unit} (hx : x.Binds env s fits' gives' blames') (hfits : fits' ↔ fits)
    (hgives : ∀ s' bs, fits → s.Rebinds env bs s' → gives' s'.store bs → gives s'.store bs)
    (hblames : ∀ fault, blames' fault → blames fault) :
    x.Binds env s fits gives blames := by
  obtain ⟨r, s', hends, hbound⟩ := hx
  refine ⟨r, s', hends, ?_⟩
  cases hbound with
  | ok hfits' h hgives' => exact .ok (hfits.mp hfits') h (hgives _ _ (hfits.mp hfits') h hgives')
  | error hfits' h he hf => exact .error (mt hfits.mpr hfits') h he (hblames _ hf)

/-- Going on with an object. -/
theorem fetch {a : Addr} {o : Object} {f : Object → Eval Unit} (ha : s.store.get? a = some o)
    (hf : (f o).Binds env s fits gives blames) : (fetch a >>= f).Binds env s fits gives blames := by
  have hperform : (Effect.fetch a).perform s = some (o, s) := by rw [Effect.perform, ha]
  obtain ⟨r, s', hends, hbound⟩ := hf
  exact ⟨r, s', .effect hperform hends, hbound⟩

/-- A call binds one level deeper. -/
theorem enter {name : Value} {items : List Value} (hroom : s.depth < s.config.maxDepth)
    (h : (bindParams env name items).Binds env { s with depth := s.depth + 1 } fits gives blames) :
    (discard (enter ⟨env, name, .bind name items⟩)).Binds env s fits gives blames := by
  obtain ⟨r, s', hends, hbound⟩ := h
  have hback : { s' with depth := s'.depth - 1 } = { s' with depth := s.depth } := by
    rw [hends.depth_eq]
    rfl
  cases hbound with
  | ok hfits h hgives =>
    have hbody : (Call.body ⟨env, name, .bind name items⟩).Ends { s with depth := s.depth + 1 }
        (.ok .nil) s' :=
      ends_bind.mpr (.inl ⟨(), s', hends, .done _ _⟩)
    refine ⟨_, _, .call hroom hbody (.done _ _), ?_⟩
    rw [hback]
    exact .ok hfits h.up hgives
  | error hfits h he hf =>
    have hbody : (Call.body ⟨env, name, .bind name items⟩).Ends { s with depth := s.depth + 1 }
        (.error _) s' :=
      ends_bind.mpr (.inr ⟨_, hends, rfl⟩)
    refine ⟨_, _, .call hroom hbody (.fail _ _), ?_⟩
    rw [hback]
    exact .error hfits h.up he hf

/-- Going on with a new list. -/
theorem newList {items : List Value} {f : Value → Eval Unit} (h : s.HasScope env)
    (hitems : ∀ v ∈ items, v.Live s.store)
    (hf : ∀ s₁ c, s.Rebinds env [] s₁ → s.store.get? c = none →
      s₁.store.get? c = some (.list items.toArray) →
      (f (.ref c)).Binds env s₁ fits gives blames) :
    (newList items >>= f).Binds env s fits gives blames := by
  have hchildren : ∀ c ∈ (Object.list items.toArray).children, s.store.contains c = true := by
    intro c hc
    have hmem := Object.mem_children_list.mp hc
    exact hitems _ hmem c rfl
  obtain ⟨hrebinds, hget, hnew⟩ := Interp.Rebinds.alloc h hchildren
  obtain ⟨r, s', hends, hbound⟩ := hf _ _ hrebinds hnew hget
  refine ⟨r, s', .effect rfl hends, ?_⟩
  cases hbound with
  | ok hfits h hgives => exact .ok hfits (hrebinds.trans h) hgives
  | error hfits h he hf => exact .error hfits (hrebinds.trans h) he hf

theorem refuseArgs {args : List Value} (h : s.HasScope env) (hargs : ∀ v ∈ args, v.Live s.store)
    (hfits : ¬fits) (hf : blames .wrongArgCount) :
    (refuseArgs env args).Binds env s fits gives blames := by
  apply newList h hargs
  intro s₁ c hrebinds _ hc
  exact raise (hrebinds.hasScope h) (Value.live_ref hc) hfits hf

end Binds

end Eval

end HeapLisp
