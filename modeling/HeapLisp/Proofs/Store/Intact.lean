import HeapLisp.Proofs.Store.Collection
import HeapLisp.Scope.Chain

namespace HeapLisp

namespace Bindings

variable (b : Bindings) (s r : Symbol) (v : Value)

theorem index_eq_iff {s r : Symbol} : compare s.index r.index = .eq ↔ r = s := by
  obtain ⟨i⟩ := s
  obtain ⟨j⟩ := r
  rw [Std.LawfulEqCmp.compare_eq_iff_eq, Symbol.mk.injEq]
  exact eq_comm

@[simp] theorem get?_empty : empty.get? s = none := by
  rw [get?, empty, Std.TreeMap.getElem?_emptyc]

@[simp, grind =] theorem get?_insert :
    (b.insert s v).get? r = if r = s then some v else b.get? r := by
  rw [get?, insert, Std.TreeMap.getElem?_insert]
  simp only [index_eq_iff]
  rfl

@[simp, grind =] theorem get?_erase : (b.erase s).get? r = if r = s then none else b.get? r := by
  rw [get?, erase, Std.TreeMap.getElem?_erase]
  simp only [index_eq_iff]
  rfl

@[simp, grind =] theorem get?_put (old : Option Value) :
    (b.put s old).get? r = if r = s then old else b.get? r := by
  cases old with
  | some v => exact get?_insert b s r v
  | none => exact get?_erase b s r

variable {b s v}

theorem mem_toList_iff : (s, v) ∈ b.toList ↔ b.get? s = some v := by
  rw [toList, get?, ← Std.TreeMap.mem_toList_iff_getElem?_eq_some, List.mem_map]
  constructor
  · rintro ⟨⟨i, w⟩, hm, he⟩
    cases he
    exact hm
  · intro hm
    exact ⟨(s.index, v), hm, rfl⟩

end Bindings

theorem Value.addr?_eq_some_iff {v : Value} {a : Addr} : v.addr? = some a ↔ v = .ref a := by
  cases v <;> simp [addr?]

namespace Object

variable {a : Addr}

@[simp] theorem mem_children_list {items : Array Value} :
    a ∈ (list items).children ↔ .ref a ∈ items.toList := by
  simp only [children, List.mem_filterMap, Value.addr?_eq_some_iff]
  constructor
  · rintro ⟨v, hv, rfl⟩
    exact hv
  · intro hv
    exact ⟨.ref a, hv, rfl⟩

@[simp] theorem mem_children_scope {s : Scope} :
    a ∈ (scope s).children ↔ (∃ r, s.bindings.get? r = some (.ref a)) ∨ s.parent = some a := by
  simp only [children, List.mem_append, List.mem_filterMap, Value.addr?_eq_some_iff,
    Option.mem_toList]
  refine or_congr_left ⟨?_, ?_⟩
  · rintro ⟨⟨r, v⟩, hm, rfl⟩
    exact ⟨r, Bindings.mem_toList_iff.mp hm⟩
  · rintro ⟨r, hr⟩
    exact ⟨(r, .ref a), Bindings.mem_toList_iff.mpr hr, rfl⟩

@[simp] theorem mem_children_failure {f : Failure} :
    a ∈ (failure f).children ↔ f.subject = .ref a := by
  rw [children, Option.mem_toList, Value.addr?_eq_some_iff]

end Object

/-- The symbol is in the object: it is an item, it is bound in the scope or something is bound to it
there, or the error is about it. -/
def Object.Uses (x : Symbol) : Object → Prop
  | list items => .sym x ∈ items.toList
  | scope s => (∃ v, s.bindings.get? x = some v) ∨ ∃ y, s.bindings.get? y = some (.sym x)
  | failure f => f.subject = .sym x
  | str _ | function _ | input _ | output _ => False

/-- The value is no dead address. -/
def Value.Live (st : Store Object) (v : Value) : Prop := ∀ a, v = .ref a → st.contains a = true

namespace Value

variable {st : Store Object}

theorem live_num (st : Store Object) (n : Int64) : (num n).Live st := by
  simp [Live]

theorem live_sym (st : Store Object) (s : Symbol) : (sym s).Live st := by
  simp [Live]

theorem live_ref {a : Addr} {o : Object} (ha : st.get? a = some o) : (ref a).Live st := by
  rintro _ ⟨⟩
  exact Store.contains_iff.mpr ⟨o, ha⟩

end Value

namespace Store

/-- Every symbol in an object of the store is one of the given ones. -/
def UsesOnly (st : Store Object) (P : Symbol → Prop) : Prop :=
  ∀ ⦃a o⦄, st.get? a = some o → ∀ x, o.Uses x → P x

namespace UsesOnly

variable {st st' : Store Object} {P Q : Symbol → Prop}

theorem mono (h : st.UsesOnly P) (hpq : ∀ x, P x → Q x) : st.UsesOnly Q :=
  fun _ _ ha x hx => hpq x (h ha x hx)

theorem empty : (Store.empty : Store Object).UsesOnly P := by simp [UsesOnly]

theorem insert (h : st.UsesOnly P) (hw : st.WellFormed) {o : Object} (ho : ∀ x, o.Uses x → P x) :
    (st.insert o).UsesOnly P := by
  intro a p ha
  obtain ⟨-, rfl⟩ | ha := hw.get?_insert_cases ha
  · exact ho
  · exact h ha

theorem modify (h : st.UsesOnly P) {a : Addr} {f : Object → Object}
    (hf : ∀ o, st.get? a = some o → ∀ x, (f o).Uses x → P x) : (st.modify a f).UsesOnly P := by
  intro b p hb
  obtain ⟨o, ho, -, rfl⟩ | hb := get?_modify_cases hb
  · exact hf o ho
  · exact h hb

theorem sub (h : st.UsesOnly P) (hsub : ∀ {a o}, st'.get? a = some o → st.get? a = some o) :
    st'.UsesOnly P := fun _ _ ha => h (hsub ha)

end UsesOnly

@[simp, grind =] theorem get?_modifyBindings (st : Store Object) (a b : Addr)
    (f : Bindings → Bindings) :
    (st.modifyBindings a f).get? b =
      if b = a then (st.get? b).map (Object.mapBindings f) else st.get? b :=
  get?_modify st a b _

@[simp, grind =] theorem contains_modifyBindings (st : Store Object) (a b : Addr)
    (f : Bindings → Bindings) : (st.modifyBindings a f).contains b = st.contains b :=
  contains_modify st a b _

theorem get?_modifyBindings_of_scope {st : Store Object} {a : Addr} {scope : Scope}
    (ha : st.get? a = some (.scope scope)) (f : Bindings → Bindings) :
    (st.modifyBindings a f).get? a = some (.scope { scope with bindings := f scope.bindings }) := by
  simp [ha, Object.mapBindings]

/-- Nothing refers to a dead address. -/
structure Intact (st : Store Object) : Prop extends st.WellFormed where
  closed : ∀ {a o}, st.get? a = some o → ∀ c ∈ o.children, st.contains c = true

namespace Intact

variable {st : Store Object}

theorem empty : (Store.empty : Store Object).Intact where
  toWellFormed := .empty
  closed h := by simp at h

theorem contains_insert (h : st.WellFormed) (o : Object) {a : Addr} (ha : st.contains a = true) :
    (st.insert o).contains a = true := by
  obtain ⟨p, hp⟩ := contains_iff.mp ha
  exact contains_iff.mpr ⟨p, h.get?_insert_of_get? o hp⟩

theorem insert (h : st.Intact) {o : Object} (ho : ∀ c ∈ o.children, st.contains c = true) :
    (st.insert o).Intact where
  toWellFormed := h.toWellFormed.insert o
  closed {a p} ha c hc := by
    refine contains_insert h.toWellFormed o ?_
    obtain ⟨-, rfl⟩ | ha := h.get?_insert_cases ha
    · exact ho c hc
    · exact h.closed ha c hc

theorem modify (h : st.Intact) {a : Addr} {f : Object → Object}
    (hf : ∀ o, st.get? a = some o → ∀ c ∈ (f o).children, st.contains c = true) :
    (st.modify a f).Intact where
  toWellFormed := h.toWellFormed.modify a f
  closed {b p} hb c hc := by
    rw [contains_modify]
    obtain ⟨o, ho, -, rfl⟩ | hb := get?_modify_cases hb
    · exact hf o ho c hc
    · exact h.closed hb c hc

theorem live_item (h : st.Intact) {a : Addr} {items : Array Value} {v : Value}
    (ha : st.get? a = some (.list items)) (hv : v ∈ items.toList) : v.Live st := by
  rintro b rfl
  exact h.closed ha b (Object.mem_children_list.mpr hv)

theorem live_bound (h : st.Intact) {a : Addr} {s : Scope} {x : Symbol} {v : Value}
    (ha : st.get? a = some (.scope s)) (hv : s.bindings.get? x = some v) : v.Live st := by
  rintro b rfl
  exact h.closed ha b (Object.mem_children_scope.mpr (.inl ⟨x, hv⟩))

theorem collect (h : st.Intact) (roots : List Addr) :
    (st.collect Object.children roots).1.Intact where
  toWellFormed := h.toWellFormed.collect _ _
  closed {a o} ha c hc := by
    obtain ⟨ho, hr⟩ := h.get?_collect.mp ha
    obtain ⟨p, hp⟩ := contains_iff.mp (h.closed ho c hc)
    exact contains_iff.mpr ⟨p, h.get?_collect.mpr ⟨hp, .child hr ho hc hp⟩⟩

end Intact

/-- What a collection keeps of a store, and so does doing nothing: what is a root stays, and nothing
is added or changed. -/
structure Keeps (st : Store Object) (roots : List Addr) (st' : Store Object) : Prop where
  intact : st'.Intact
  sub : ∀ {a o}, st'.get? a = some o → st.get? a = some o
  root : ∀ {a}, a ∈ roots → st.contains a = true → st'.contains a = true

theorem Intact.keeps_collect {st : Store Object} (h : st.Intact) (roots : List Addr) :
    st.Keeps roots (st.collect Object.children roots).1 where
  intact := h.collect roots
  sub ha := (h.get?_collect.mp ha).1
  root {a} hr ha := by
    obtain ⟨o, ho⟩ := contains_iff.mp ha
    exact contains_iff.mpr ⟨o, h.get?_collect.mpr ⟨ho, .root hr ho⟩⟩

theorem Intact.keeps_self {st : Store Object} (h : st.Intact) (roots : List Addr) :
    st.Keeps roots st where
  intact := h
  sub ha := ha
  root _ ha := ha

end Store

end HeapLisp
