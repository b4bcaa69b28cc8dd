import HeapLisp.Proofs.Store.Copying
import Mathlib.Data.Fintype.Card

namespace HeapLisp

mutual

/-- A template, with the addresses of its lists. -/
inductive Template where
  /-- What is no list. -/
  | leaf (v : Value)
  /-- A list `(unquote form)`. -/
  | unquote (a : Addr) (form : Value)
  /-- Any other list. -/
  | list (a : Addr) (parts : Template.Parts)

/-- The items of a list in a template. -/
inductive Template.Parts where
  | nil
  /-- An item that is a template itself. -/
  | item (T : Template) (rest : Template.Parts)
  /-- An item `(unquote-splicing form)`. -/
  | splice (a : Addr) (form : Value) (rest : Template.Parts)

end

/-- An expression to be evaluated at a level, in place of itself or of what its items are spliced
into. -/
structure Hole where
  level : Nat
  form : Value
  splices : Bool

/-- No list, and no dead address. -/
def Store.Atom (st : Store Object) (v : Value) : Prop :=
  ∀ a, v = .ref a → ∃ o, st.get? a = some o ∧ o.items? = none

namespace Store

variable {st : Store Object} {v : Value} {a b : Addr} {items : Array Value}

theorem ListWithin.of_item (ha : st.get? a = some (.list items)) (hv : v ∈ items.toList)
    (h : ListWithin st v b) :
    ListWithin st (.ref a) b := by
  induction h with
  | root hb hb' => exact .item (.root rfl ha) ha (hb ▸ hv) hb'
  | item _ hc hd hd' ih => exact .item ih hc hd hd'

/-- None of the lists inside the value is `(unquote form)` or `(unquote-splicing form)`. -/
def Quoted (st : Store Object) (v : Value) : Prop :=
  ∀ a form, st.ListWithin v a → st.get? a ≠ some (.list #[.sym .unquote, form]) ∧
    st.get? a ≠ some (.list #[.sym .splice, form])

theorem Quoted.item (h : st.Quoted (.ref a)) (ha : st.get? a = some (.list items))
    (hv : v ∈ items.toList) : st.Quoted v :=
  fun b form hb => h b form (.of_item ha hv hb)

theorem ListWithin.trans (h : ListWithin st v a) (h' : ListWithin st (.ref a) b) :
    ListWithin st v b := by
  induction h' with
  | root hb _ =>
    cases hb
    exact h
  | item _ hc hd hd' ih => exact .item ih hc hd hd'

/-- The first list is inside an item of the second. -/
def Below (st : Store Object) (b a : Addr) : Prop :=
  ∃ items item, st.get? a = some (.list items) ∧ item ∈ items.toList ∧ st.ListWithin item b

theorem Below.trans {c : Addr} (h : st.Below c b) (h' : st.Below b a) : st.Below c a := by
  obtain ⟨items, item, hb, hitem, hc⟩ := h
  obtain ⟨items', item', ha, hitem', hwithin⟩ := h'
  exact ⟨items', item', ha, hitem', hwithin.trans (.of_item hb hitem hc)⟩

/-- A list inside the value is inside one of its own items. -/
def Cyclic (st : Store Object) (v : Value) : Prop := ∃ a, st.ListWithin v a ∧ st.Below a a

/-- The lists inside a value that is not cyclic can be gone through from the innermost ones on. -/
theorem wellFounded_below (h : ¬st.Cyclic v) :
    WellFounded fun b a : {a // st.ListWithin v a} => st.Below b.1 a.1 := by
  have hbound (a : {a // st.ListWithin v a}) : a.1.index < st.capacity := by
    obtain ⟨items, hitems⟩ := a.2.get?
    exact index_lt_of_get? hitems
  have hfinite : Finite {a // st.ListWithin v a} := by
    apply Finite.of_injective fun a => (⟨a.1.index, hbound a⟩ : Fin st.capacity)
    intro a b hab
    exact Subtype.ext (Addr.eq_iff.mpr (Fin.mk.inj hab))
  have htrans : IsTrans {a // st.ListWithin v a} fun b a => st.Below b.1 a.1 :=
    ⟨fun _ _ _ h h' => h.trans h'⟩
  have hirrefl : Std.Irrefl fun b a : {a // st.ListWithin v a} => st.Below b.1 a.1 :=
    ⟨fun a ha => h ⟨a.1, a.2, ha⟩⟩
  exact Finite.wellFounded_of_trans_of_irrefl _

end Store

namespace Template

/-- The value that is the template. -/
def value : Template → Value
  | .leaf v => v
  | .unquote a _ => .ref a
  | .list a _ => .ref a

def Parts.values : Parts → List Value
  | .nil => []
  | .item T rest => T.value :: rest.values
  | .splice a _ rest => .ref a :: rest.values

mutual

/-- The lists that filling looks into. -/
def nodes : Template → List Addr
  | .leaf _ => []
  | .unquote a _ => [a]
  | .list a parts => a :: parts.nodes

def Parts.nodes : Parts → List Addr
  | .nil => []
  | .item T rest => T.nodes ++ rest.nodes
  | .splice a _ rest => a :: rest.nodes

end

mutual

/-- How many levels deep items are filled: none for an atom or an empty list, and one more than for
the items otherwise. -/
def height : Template → Nat
  | .leaf _ => 0
  | .unquote _ _ => 0
  | .list _ parts => parts.height

def Parts.height : Parts → Nat
  | .nil => 0
  | .item T rest => max (T.height + 1) rest.height
  | .splice _ _ rest => rest.height

end

mutual

/-- The outermost unquoted expressions from left to right, for a template that is filled at a
level. -/
def holes (level : Nat) : Template → List Hole
  | .leaf _ => []
  | .unquote _ form => [⟨level, form, false⟩]
  | .list _ parts => parts.holes level

def Parts.holes (level : Nat) : Parts → List Hole
  | .nil => []
  | .item T rest => T.holes (level + 1) ++ rest.holes level
  | .splice _ form rest => ⟨level, form, true⟩ :: rest.holes level

end

mutual

/-- The template is in the store, as the tree says. -/
def Stored (st : Store Object) : Template → Prop
  | .leaf v => st.Atom v
  | .unquote a form => st.get? a = some (.list #[.sym .unquote, form])
  | .list a parts =>
    st.get? a = some (.list parts.values.toArray) ∧ (∀ form, parts.values ≠ [.sym .unquote, form]) ∧
      parts.Stored st

/-- The items are in the store; those to be filled are no lists `(unquote-splicing form)`. -/
def Parts.Stored (st : Store Object) : Parts → Prop
  | .nil => True
  | .item T rest =>
    T.Stored st ∧ (∀ a form, T.value = .ref a → st.get? a ≠ some (.list #[.sym .splice, form])) ∧
      rest.Stored st
  | .splice a form rest => st.get? a = some (.list #[.sym .splice, form]) ∧ rest.Stored st

end

variable {st st' : Store Object} {T U : Template} {ps : Parts} {v : Value} {a : Addr}

theorem Stored.live (h : T.Stored st) (ha : T.value = .ref a) : st.contains a = true := by
  rw [Store.contains_iff]
  cases T with
  | leaf v =>
    obtain ⟨o, ho, _⟩ := h a ha
    exact ⟨o, ho⟩
  | unquote b form =>
    cases ha
    exact ⟨_, h⟩
  | list b parts =>
    cases ha
    exact ⟨_, h.1⟩

theorem Stored.cases_list {items : Array Value} (h : T.Stored st) (hv : T.value = .ref a)
    (ha : st.get? a = some (.list items)) :
    (∃ form, T = .unquote a form) ∨ ∃ parts, T = .list a parts ∧ parts.values = items.toList := by
  cases T with
  | leaf v =>
    obtain ⟨o, ho, hno⟩ := h a hv
    cases ha.symm.trans ho
    cases hno
  | unquote b form =>
    cases hv
    exact .inl ⟨form, rfl⟩
  | list b parts =>
    cases hv
    cases ha.symm.trans h.1
    exact .inr ⟨parts, rfl, rfl⟩

mutual

theorem Stored.node : (T : Template) → T.Stored st → a ∈ T.nodes →
    ∃ items, st.get? a = some (.list items)
  | .leaf _, _, ha => by cases ha
  | .unquote b form, hT, ha => by
    cases List.mem_singleton.mp ha
    exact ⟨_, hT⟩
  | .list b parts, hT, ha => by
    obtain rfl | ha := List.mem_cons.mp ha
    · exact ⟨_, hT.1⟩
    · exact Parts.Stored.node parts hT.2.2 ha

theorem Parts.Stored.node : (ps : Parts) → ps.Stored st → a ∈ ps.nodes →
    ∃ items, st.get? a = some (.list items)
  | .nil, _, ha => by cases ha
  | .item T rest, hp, ha => by
    obtain ha | ha := List.mem_append.mp ha
    · exact Stored.node T hp.1 ha
    · exact Parts.Stored.node rest hp.2.2 ha
  | .splice b form rest, hp, ha => by
    obtain rfl | ha := List.mem_cons.mp ha
    · exact ⟨_, hp.1⟩
    · exact Parts.Stored.node rest hp.2 ha

end

mutual

/-- The template is also in a store that has the same lists for it, and no lists where it has
none. -/
theorem Stored.mono (hatom : ∀ v, st.Atom v → st'.Atom v) :
    (T : Template) → (∀ a ∈ T.nodes, st'.get? a = st.get? a) →
    T.Stored st → T.Stored st'
  | .leaf v, _, hT => hatom v hT
  | .unquote a _, hnodes, hT => (hnodes a (.head _)).trans hT
  | .list a parts, hnodes, hT =>
    ⟨(hnodes a (.head _)).trans hT.1, hT.2.1,
      Parts.Stored.mono hatom parts (fun b hb => hnodes b (.tail _ hb)) hT.2.2⟩

theorem Parts.Stored.mono (hatom : ∀ v, st.Atom v → st'.Atom v) :
    (ps : Parts) → (∀ a ∈ ps.nodes, st'.get? a = st.get? a) →
    ps.Stored st → ps.Stored st'
  | .nil, _, _ => trivial
  | .item T rest, hnodes, hp => by
    have hT := Stored.mono hatom T (fun b hb => hnodes b (List.mem_append_left _ hb)) hp.1
    refine ⟨hT, ?_,
      Parts.Stored.mono hatom rest (fun b hb => hnodes b (List.mem_append_right _ hb)) hp.2.2⟩
    intro a form ha hsplice
    obtain ⟨form', rfl⟩ | ⟨parts, rfl, _⟩ := hT.cases_list ha hsplice
    · exact hp.2.1 a form rfl ((hnodes a (.head _)).symm.trans hsplice)
    · exact hp.2.1 a form rfl ((hnodes a (.head _)).symm.trans hsplice)
  | .splice a _ rest, hnodes, hp =>
    ⟨(hnodes a (.head _)).trans hp.1,
      Parts.Stored.mono hatom rest (fun b hb => hnodes b (.tail _ hb)) hp.2⟩

end

mutual

theorem Stored.unique : (T U : Template) → T.Stored st → U.Stored st → T.value = U.value → T = U
  | .leaf v, .leaf w, _, _, h => congrArg Template.leaf h
  | .leaf v, .unquote b form, hT, hU, h => by
    obtain ⟨o, ho, hno⟩ := hT b h
    cases ho.symm.trans hU
    cases hno
  | .leaf v, .list b parts, hT, hU, h => by
    obtain ⟨o, ho, hno⟩ := hT b h
    cases ho.symm.trans hU.1
    cases hno
  | .unquote a form, U, hT, hU, h => by
    obtain ⟨form', rfl⟩ | ⟨parts, rfl, hparts⟩ := hU.cases_list h.symm hT
    · cases hT.symm.trans hU
      rfl
    · exact absurd hparts (hU.2.1 form)
  | .list a parts, U, hT, hU, h => by
    obtain ⟨form, rfl⟩ | ⟨parts', rfl, hparts⟩ := hU.cases_list h.symm hT.1
    · have hsame := hT.1.symm.trans hU
      simp only [Option.some.injEq, Object.list.injEq] at hsame
      exact absurd (congrArg Array.toList hsame) (hT.2.1 form)
    · rw [Parts.Stored.unique parts parts' hT.2.2 hU.2.2 hparts.symm]

theorem Parts.Stored.unique : (ps qs : Parts) → ps.Stored st → qs.Stored st →
    ps.values = qs.values → ps = qs
  | .nil, .nil, _, _, _ => rfl
  | .nil, .item _ _, _, _, h => by cases h
  | .nil, .splice _ _ _, _, _, h => by cases h
  | .item _ _, .nil, _, _, h => by cases h
  | .splice _ _ _, .nil, _, _, h => by cases h
  | .item T ps, .item U qs, hp, hq, h => by
    obtain ⟨hhead, htail⟩ := List.cons.inj h
    rw [Stored.unique T U hp.1 hq.1 hhead, Parts.Stored.unique ps qs hp.2.2 hq.2.2 htail]
  | .item T ps, .splice b form qs, hp, hq, h => absurd hq.1 (hp.2.1 b form (List.cons.inj h).1)
  | .splice a form ps, .item U qs, hp, hq, h => absurd hp.1 (hq.2.1 a form (List.cons.inj h).1.symm)
  | .splice a form ps, .splice b form' qs, hp, hq, h => by
    obtain ⟨hhead, htail⟩ := List.cons.inj h
    cases hhead
    cases hp.1.symm.trans hq.1
    rw [Parts.Stored.unique ps qs hp.2 hq.2 htail]

end

theorem Parts.exists_stored {vs : List Value}
    (h : ∀ v ∈ vs, ∃ T : Template, T.Stored st ∧ T.value = v) :
    ∃ ps : Parts, ps.Stored st ∧ ps.values = vs := by
  induction vs with
  | nil => exact ⟨.nil, trivial, rfl⟩
  | cons v vs ih =>
    obtain ⟨ps, hps, hvalues⟩ := ih fun w hw => h w (.tail _ hw)
    by_cases hsplice : ∃ a form, v = .ref a ∧ st.get? a = some (.list #[.sym .splice, form])
    · obtain ⟨a, form, rfl, ha⟩ := hsplice
      exact ⟨.splice a form ps, ⟨ha, hps⟩, congrArg (_ :: ·) hvalues⟩
    · obtain ⟨T, hT, rfl⟩ := h v (.head _)
      exact ⟨.item T ps, ⟨hT, fun a form ha hget => hsplice ⟨a, form, ha, hget⟩, hps⟩,
        congrArg (_ :: ·) hvalues⟩

theorem exists_stored_of_list (hlive : ∀ a, v = .ref a → st.contains a = true)
    (h : ∀ a items, v = .ref a → st.get? a = some (.list items) → ∃ T : Template, T.Stored st ∧
      T.value = v) :
    ∃ T : Template, T.Stored st ∧ T.value = v := by
  by_cases hatom : st.Atom v
  · exact ⟨.leaf v, hatom, rfl⟩
  · unfold Store.Atom at hatom
    push Not at hatom
    obtain ⟨a, ha, hlist⟩ := hatom
    obtain ⟨o, ho⟩ := Store.contains_iff.mp (hlive a ha)
    cases o with
    | list items => exact h a items ha ho
    | str | scope | function | failure | input | output => exact absurd rfl (hlist _ ho)

theorem exists_stored (hst : st.Intact) (hlive : ∀ a, v = .ref a → st.contains a = true)
    (hacyclic : ¬st.Cyclic v) :
    ∃ T : Template, T.Stored st ∧ T.value = v := by
  have hlists (a : {a // st.ListWithin v a}) :
      ∃ T : Template, T.Stored st ∧ T.value = .ref a.1 := by
    induction a using (Store.wellFounded_below hacyclic).induction with
    | _ a ih =>
      obtain ⟨a, hwithin⟩ := a
      obtain ⟨items, ha⟩ := hwithin.get?
      by_cases hunquote : ∃ form, items.toList = [.sym .unquote, form]
      · obtain ⟨form, hitems⟩ := hunquote
        have hsame : items = #[.sym .unquote, form] := Array.toList_inj.mp hitems
        subst hsame
        exact ⟨.unquote a form, ha, rfl⟩
      · have hparts : ∃ ps : Parts, ps.Stored st ∧ ps.values = items.toList := by
          apply Parts.exists_stored
          intro w hw
          apply exists_stored_of_list
          · intro b hb
            exact hst.closed ha b (Object.mem_children_list.mpr (hb ▸ hw))
          · intro b items' hb hb'
            subst hb
            exact ih ⟨b, .item hwithin ha hw hb'⟩ ⟨items, _, ha, hw, .root rfl hb'⟩
        obtain ⟨ps, hps, hvalues⟩ := hparts
        refine ⟨.list a ps, ⟨?_, ?_, hps⟩, rfl⟩
        · rw [ha, hvalues, Array.toArray_toList]
        · intro form hform
          exact hunquote ⟨form, hvalues ▸ hform⟩
  apply exists_stored_of_list hlive
  intro a items ha hitems
  obtain ⟨T, hT, hvalue⟩ := hlists ⟨a, .root ha hitems⟩
  exact ⟨T, hT, hvalue.trans ha.symm⟩

/-- A template `(unquote-splicing form)` as a whole is a list like others. -/
theorem Stored.eq_of_splice {form : Value} (h : T.Stored st) (hv : T.value = .ref a)
    (ha : st.get? a = some (.list #[.sym .splice, form])) :
    ∃ rest, T = .list a (.item (.leaf (.sym .splice)) rest) := by
  obtain ⟨form', rfl⟩ | ⟨parts, rfl, hparts⟩ := h.cases_list hv ha
  · cases ha.symm.trans h
  · cases parts with
    | nil => cases hparts
    | splice b form' rest => cases hparts
    | item U rest =>
      have hU : U.value = .sym .splice := (List.cons.inj hparts).1
      cases U with
      | leaf w =>
        cases hU
        exact ⟨rest, rfl⟩
      | unquote b form' => cases hU
      | list b parts => cases hU

mutual

theorem Stored.holes_eq_nil : (T : Template) → T.Stored st → st.Quoted T.value →
    ∀ level, T.holes level = []
  | .leaf _, _, _, _ => rfl
  | .unquote a form, hT, hq, _ => absurd hT (hq a form (.root rfl hT)).1
  | .list _ parts, hT, hq, level =>
    Parts.Stored.holes_eq_nil parts hT.2.2 (fun _ hv => hq.item hT.1 hv) level

theorem Parts.Stored.holes_eq_nil : (ps : Parts) → ps.Stored st → (∀ v ∈ ps.values, st.Quoted v) →
    ∀ level, ps.holes level = []
  | .nil, _, _, _ => rfl
  | .item T rest, hp, hq, level => by
    have hT := Stored.holes_eq_nil T hp.1 (hq _ (.head _)) (level + 1)
    have hrest := Parts.Stored.holes_eq_nil rest hp.2.2 (fun v hv => hq v (.tail _ hv)) level
    rw [Parts.holes, hT, hrest, List.append_nil]
  | .splice a form rest, hp, hq, _ => absurd hp.1 (hq (.ref a) (.head _) a form (.root rfl hp.1)).2

end

theorem Parts.Stored.exists_item : (ps : Parts) → ps.Stored st → (∀ v ∈ ps.values, st.Quoted v) →
    v ∈ ps.values →
    ∃ T : Template, T.Stored st ∧ T.value = v ∧ T.height < ps.height
  | .nil, _, _, hv => by cases hv
  | .item T rest, hp, hq, hv => by
    rw [Parts.height]
    obtain rfl | hv := List.mem_cons.mp hv
    · exact ⟨T, hp.1, rfl, by omega⟩
    · obtain ⟨U, hU, hvalue, hlt⟩ := exists_item rest hp.2.2 (fun v hv => hq v (.tail _ hv)) hv
      exact ⟨U, hU, hvalue, by omega⟩
  | .splice a form rest, hp, hq, _ => absurd hp.1 (hq (.ref a) (.head _) a form (.root rfl hp.1)).2

theorem Stored.exists_item {items : Array Value} (h : T.Stored st) (hq : st.Quoted T.value)
    (hT : T.value = .ref a) (ha : st.get? a = some (.list items)) (hv : v ∈ items.toList) :
    ∃ U : Template, U.Stored st ∧ U.value = v ∧ U.height < T.height := by
  obtain ⟨form, rfl⟩ | ⟨parts, rfl, hparts⟩ := h.cases_list hT ha
  · exact absurd h (hq a form (.root rfl h)).1
  · exact Parts.Stored.exists_item parts h.2.2 (fun w hw => hq.item h.1 hw) (hparts ▸ hv)

theorem Stored.exists_within (h : T.Stored st) (hq : st.Quoted T.value)
    (ha : st.ListWithin T.value a) :
    ∃ U : Template, U.Stored st ∧ U.value = .ref a ∧ st.Quoted (.ref a) ∧ U.height ≤ T.height := by
  generalize hv : T.value = v at hq ha
  induction ha with
  | root hroot ha =>
    subst hroot
    exact ⟨T, h, hv, hq, le_refl _⟩
  | item _ ha hb hb' ih =>
    obtain ⟨U, hU, hvalue, hquoted, hle⟩ := ih
    obtain ⟨V, hV, hvalue', hlt⟩ := hU.exists_item (hvalue ▸ hquoted) hvalue ha hb
    exact ⟨V, hV, hvalue', hquoted.item ha hb, by omega⟩

/-- A cyclic value has no tree: the tree of a list on the cycle would be lower than itself. -/
theorem Stored.not_cyclic (h : T.Stored st) (hq : st.Quoted T.value) : ¬st.Cyclic T.value := by
  intro hcyclic
  obtain ⟨a, hwithin, items, item, ha, hitem, hback⟩ := hcyclic
  obtain ⟨U, hU, hvalue, hquoted, _⟩ := h.exists_within hq hwithin
  obtain ⟨V, hV, hvalue', hlt⟩ := hU.exists_item (hvalue ▸ hquoted) hvalue ha hitem
  have hquoted' := hquoted.item ha hitem
  obtain ⟨W, hW, hvalue'', _, hle⟩ := hV.exists_within (hvalue' ▸ hquoted') (hvalue' ▸ hback)
  have hsame := Stored.unique W U hW hU (hvalue''.trans hvalue.symm)
  subst hsame
  omega

mutual

/-- The value is the template filled with what its holes give, in order: every list is a new one,
among those that were `made` in order, and what is spliced in stands in the place of its hole. -/
inductive Filled (st : Store Object) : Template → List (List Value) → List Addr → Value → Prop where
  | leaf (v : Value) : Filled st (.leaf v) [] [] v
  | unquote (a : Addr) (form v : Value) : Filled st (.unquote a form) [[v]] [] v
  | list (a : Addr) {c : Addr} {parts : Parts} {plugs : List (List Value)} {made : List Addr}
    {vs : List Value}
    (h : parts.Filled st plugs made vs) (hc : st.get? c = some (.list vs.toArray)) :
    Filled st (.list a parts) plugs (made ++ [c]) (.ref c)

inductive Parts.Filled (st : Store Object) : Parts → List (List Value) → List Addr →
    List Value → Prop where
  | nil : Parts.Filled st .nil [] [] []
  | item {T : Template} {rest : Parts} {plugs plugs' : List (List Value)} {made made' : List Addr}
    {v : Value} {vs : List Value}
    (hT : T.Filled st plugs made v) (hrest : rest.Filled st plugs' made' vs) :
    Parts.Filled st (.item T rest) (plugs ++ plugs') (made ++ made') (v :: vs)
  | splice (a : Addr) (form : Value) (plug : List Value) {rest : Parts} {plugs : List (List Value)}
    {made : List Addr}
    {vs : List Value} (hrest : rest.Filled st plugs made vs) :
    Parts.Filled st (.splice a form rest) (plug :: plugs) made (plug ++ vs)

end

mutual

/-- It stays filled as long as the lists that were made stay as they are. -/
theorem Filled.mono {T : Template} {plugs : List (List Value)} {made : List Addr} {v : Value}
    (hkept : ∀ c ∈ made, ∀ o, st.get? c = some o → st'.get? c = some o) :
    T.Filled st plugs made v → T.Filled st' plugs made v
  | .leaf v => .leaf v
  | .unquote a form v => .unquote a form v
  | .list a h hc =>
    .list a (Parts.Filled.mono (fun c hm => hkept c (List.mem_append_left _ hm)) h)
      (hkept _ (List.mem_append_right _ (.head _)) _ hc)

theorem Parts.Filled.mono {ps : Parts} {plugs : List (List Value)} {made : List Addr}
    {vs : List Value} (hkept : ∀ c ∈ made, ∀ o, st.get? c = some o → st'.get? c = some o) :
    ps.Filled st plugs made vs → ps.Filled st' plugs made vs
  | .nil => .nil
  | .item hT hrest =>
    .item (Filled.mono (fun c hm => hkept c (List.mem_append_left _ hm)) hT)
      (Parts.Filled.mono (fun c hm => hkept c (List.mem_append_right _ hm)) hrest)
  | .splice a form plug hrest => .splice a form plug (Parts.Filled.mono hkept hrest)

end

end Template

end HeapLisp
