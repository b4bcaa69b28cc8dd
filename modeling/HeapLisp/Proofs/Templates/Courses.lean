import HeapLisp.Proofs.Host.Soundness
import HeapLisp.Proofs.Matching.Endings
import HeapLisp.Proofs.Templates.Trees

namespace HeapLisp

theorem Interp.list?_of_list {s : Interp} {a : Addr} {items : Array Value}
    (ha : s.store.get? a = some (.list items)) :
    s.list? (.ref a) = some items.toList := by
  simp [list?, object?, Value.addr?, ha, Object.items?]

namespace Eval

variable {s s' : Interp} {env a : Addr} {v form : Value} {items : Array Value}
  {before vs : List Value}

/-- Going on with the items of what may be a list. -/
theorem ends_itemsOf_bind {α : Type} {f : Option (List Value) → Eval α} {r : Except Addr α}
    (hv : v.Live s.store) :
    (itemsOf v >>= f).Ends s r s' ↔ (f (s.list? v)).Ends s r s' := by
  cases v with
  | num n => exact Iff.rfl
  | sym x => exact Iff.rfl
  | ref a =>
    obtain ⟨o, ho⟩ := Store.contains_iff.mp (hv a rfl)
    have hlist : s.list? (.ref a) = o.items? := by
      simp [Interp.list?, Interp.object?, Value.addr?, ho]
    have hbind : (itemsOf (.ref a) >>= f) = fetch a >>= fun o => f o.items? := rfl
    rw [hbind, ends_fetch_bind, ho, hlist]
    simp

theorem ends_fill_atom (hv : s.store.Atom v) : (fill env v).Ends s (.ok v) s := by
  cases v with
  | num n => exact .done _ s
  | sym x => exact .done _ s
  | ref a =>
    obtain ⟨o, ho, hno⟩ := hv a rfl
    have hlist : s.list? (.ref a) = none := by
      simp [Interp.list?, Interp.object?, Value.addr?, ho, hno]
    rw [fill, ends_itemsOf_bind (Value.live_ref ho), hlist]
    exact .done _ s

theorem ends_fill_unquote {r : Except Addr Value}
    (ha : s.store.get? a = some (.list #[.sym .unquote, form])) :
    (fill env (.ref a)).Ends s r s' ↔ (evaluate env form).Ends s r s' := by
  rw [fill, ends_itemsOf_bind (Value.live_ref ha), Interp.list?_of_list ha]
  exact Iff.rfl

theorem ends_fill_list {r : Except Addr Value} (ha : s.store.get? a = some (.list items))
    (hno : ∀ form, items.toList ≠ [.sym .unquote, form]) :
    (fill env (.ref a)).Ends s r s' ↔ (fillItems env [] items.toList >>= newList).Ends s r s' := by
  rw [fill, ends_itemsOf_bind (Value.live_ref ha), Interp.list?_of_list ha]
  split
  · contradiction
  · rename_i form hitems
    exact absurd (Option.some.inj hitems) (hno form)
  · rename_i hitems
    cases hitems
    rfl

/-- An item that is not spliced is filled one level deeper. -/
theorem ends_fillItems_item {r : Except Addr (List Value)} (hv : v.Live s.store)
    (hno : ∀ a form, v = .ref a → s.store.get? a ≠ some (.list #[.sym .splice, form])) :
    (fillItems env before (v :: vs)).Ends s r s' ↔
      (enter ⟨env, v, .fill v⟩ >>= fun w => fillItems env (w :: before) vs).Ends s r s' := by
  rw [fillItems, ends_itemsOf_bind hv]
  split
  · rename_i form hlist
    cases v with
    | num n => cases hlist
    | sym x => cases hlist
    | ref a =>
      obtain ⟨o, ho⟩ := Store.contains_iff.mp (hv a rfl)
      cases o with
      | list items =>
        rw [Interp.list?_of_list ho, Option.some.injEq] at hlist
        have hsame : items = #[.sym .splice, form] := Array.toList_inj.mp hlist
        exact absurd (hsame ▸ ho) (hno a form rfl)
      | str | scope | function | failure | input | output =>
        simp [Interp.list?, Interp.object?, Value.addr?, ho, Object.items?] at hlist
  · rfl

/-- The items of a spliced list are put in its place. -/
theorem ends_fillItems_splice {r : Except Addr (List Value)} {b : Addr} {s₁ : Interp}
    {values : List Value} (ha : s.store.get? a = some (.list #[.sym .splice, form]))
    (hform : (evaluate env form).Ends s (.ok (.ref b)) s₁)
    (hb : s₁.store.get? b = some (.list values.toArray))
    (h : (fillItems env (values.reverse ++ before) vs).Ends s₁ r s') :
    (fillItems env before (.ref a :: vs)).Ends s r s' := by
  rw [fillItems, ends_itemsOf_bind (Value.live_ref ha), Interp.list?_of_list ha]
  refine ends_bind.mpr (.inl ⟨_, s₁, hform, ?_⟩)
  rw [ends_itemsOf_bind (Value.live_ref hb), Interp.list?_of_list hb]
  exact h

end Eval

/-- What a hole gives, once its expression has a value: the value itself, or the items of the list
that it is. -/
inductive Hole.Gives (st : Store Object) : Hole → Value → List Value → Prop where
  | value (level : Nat) (form v : Value) : Gives st ⟨level, form, false⟩ v [v]
  | items (level : Nat) (form : Value) {a : Addr} {vs : List Value}
    (ha : st.get? a = some (.list vs.toArray)) :
    Gives st ⟨level, form, true⟩ (.ref a) vs

/-- The expressions of the holes are evaluated one after the other, each at its level, and leave the
lists at `nodes` as they are. In between lists are `made`. -/
inductive Course (env : Addr) (nodes : List Addr) : List Hole → Interp → List (List Value) →
    List Addr → Interp → Prop where
  | nil (s : Interp) : Course env nodes [] s [] [] s
  | hole {h : Hole} {holes : List Hole} {s s₁ s' : Interp} {fuel : Nat} {v : Value}
    {plug : List Value}
    {plugs : List (List Value)} {made : List Addr}
    (heval : Interp.eval fuel env h.form { s with depth := h.level } = .finished (.ok v) s₁)
    (hplug : h.Gives s₁.store v plug)
    (hnodes : ∀ a ∈ nodes, s₁.store.get? a = s.store.get? a)
    (rest : Course env nodes holes { s₁ with depth := s.depth } plugs made s') :
    Course env nodes (h :: holes) s (plug :: plugs) made s'
  | copy {holes : List Hole} {s s' : Interp} {plugs : List (List Value)} {made : List Addr}
    (items : List Value)
    (rest : Course env nodes holes (s.alloc (.list items.toArray)).2 plugs made s') :
    Course env nodes holes s plugs (s.store.next :: made) s'

namespace Course

variable {env : Addr} {nodes : List Addr} {holes holes' : List Hole} {s s₁ s' : Interp}
  {plugs plugs' : List (List Value)} {made made' : List Addr}

theorem depth_eq (h : Course env nodes holes s plugs made s') : s'.depth = s.depth := by
  induction h with
  | nil => rfl
  | hole _ _ _ _ ih => exact ih
  | copy _ _ ih => exact ih

theorem withDepth (h : Course env nodes holes s plugs made s') (n : Nat) :
    Course env nodes holes { s with depth := n } plugs made { s' with depth := n } := by
  induction h with
  | nil s => exact .nil _
  | hole heval hplug hnodes _ ih => exact .hole heval hplug hnodes ih
  | copy items _ ih => exact .copy items ih

theorem append (h : Course env nodes holes s plugs made s₁)
    (h' : Course env nodes holes' s₁ plugs' made' s') :
    Course env nodes (holes ++ holes') s (plugs ++ plugs') (made ++ made') s' := by
  induction h with
  | nil => exact h'
  | hole heval hplug hnodes _ ih => exact .hole heval hplug hnodes (ih h')
  | copy items _ ih => exact .copy items (ih h')

/-- A course without copying is that of the first holes and then that of the others. -/
theorem split (h : Course env nodes (holes ++ holes') s plugs [] s') :
    ∃ plugs₁ plugs₂ s₁, plugs = plugs₁ ++ plugs₂ ∧ Course env nodes holes s plugs₁ [] s₁ ∧
      Course env nodes holes' s₁ plugs₂ [] s' := by
  induction holes generalizing s plugs with
  | nil => exact ⟨[], plugs, s, rfl, .nil s, h⟩
  | cons hole holes ih =>
    cases h with
    | hole heval hplug hnodes rest =>
      obtain ⟨plugs₁, plugs₂, s₁, rfl, h₁, h₂⟩ := ih rest
      exact ⟨_, plugs₂, s₁, rfl, .hole heval hplug hnodes h₁, h₂⟩

/-- Without holes nothing changes but the lists that are made. -/
theorem eq_of_no_holes (h : Course env nodes [] s plugs made s') (hs : s.store.WellFormed) :
    s' = { s with store := s'.store } ∧ ∀ a, a ∉ made → s'.store.get? a = s.store.get? a := by
  generalize hholes : ([] : List Hole) = holes at h
  induction h with
  | nil s => exact ⟨rfl, fun _ _ => rfl⟩
  | hole => cases hholes
  | @copy _ s s' _ _ items _ ih =>
    obtain ⟨hstore, hkept⟩ := ih (hs.insert _) hholes
    refine ⟨hstore, fun a ha => ?_⟩
    rw [List.mem_cons, not_or] at ha
    rw [hkept a ha.2]
    exact (hs.get?_insert _ a).trans (if_neg ha.1)

end Course

theorem Store.Atom.live {st : Store Object} {v : Value} (h : st.Atom v) : v.Live st := by
  intro a ha
  obtain ⟨o, ho, _⟩ := h a ha
  exact Store.contains_iff.mpr ⟨o, ho⟩

/-- Two interpreters on their way through a template that was in the store of `s₀`: the first one
only evaluates, and the second one also makes lists, which match nothing. -/
structure Alongside (s₀ : Interp) (env : Addr) (nodes : List Addr) (M : Matching)
    (s t : Interp) : Prop where
  intact : s₀.store.Intact
  named : s₀.store.NamedBy s₀.symbols
  env : s₀.store.contains env = true
  lists : ∀ a ∈ nodes, ∃ items, s₀.store.get? a = some (.list items)
  self : Matching.self s₀ ≤ M
  states : States true M s t
  nodes : ∀ a ∈ nodes, s.store.get? a = s₀.store.get? a

namespace Alongside

variable {s₀ : Interp} {env : Addr} {nodes : List Addr} {M : Matching} {s t : Interp}
  {v : Value} {a : Addr}

theorem withDepth (h : Alongside s₀ env nodes M s t) (n : Nat) :
    Alongside s₀ env nodes M { s with depth := n } { t with depth := n } :=
  { h with states := { h.states with depth := rfl } }

theorem values (h : Alongside s₀ env nodes M s t) (hv : s₀.Owns v) : M.Values v v :=
  (Matching.self_values hv).mono h.self

/-- The lists of the template are where they were. -/
theorem get?_node (h : Alongside s₀ env nodes M s t) (ha : a ∈ nodes) :
    t.store.get? a = s₀.store.get? a := by
  obtain ⟨items, hitems⟩ := h.lists a ha
  have hpair : M.Pair a a := (Matching.self_pair (Store.contains_iff.mpr ⟨_, hitems⟩)).mono h.self
  obtain ⟨o, p, ho, hp, _, hop⟩ := h.states.stores.get hpair
  have hs := (h.nodes a ha).trans hitems
  cases hs.symm.trans ho
  cases hop with
  | @list _ items' hlists =>
    have hlive : ∀ v ∈ items.toList, v.Live s₀.store := fun v hv => h.intact.live_item hitems hv
    have hsame := Array.toList_inj.mp (Matching.lists_eq_of_self_le h.self hlive hlists)
    rw [hp, hitems, hsame]

theorem atom (h : Alongside s₀ env nodes M s t) (hv : s₀.store.Atom v) : t.store.Atom v := by
  intro a ha
  obtain ⟨o, ho, hno⟩ := hv a ha
  have hpairs : M.pairs o.kind a a := h.self.1 _ _ _ ⟨rfl, o, ho, rfl⟩
  obtain ⟨x, p, _, hp, hkind, hop⟩ := h.states.stores.objects hpairs
  refine ⟨p, hp, ?_⟩
  rw [hop.kind_eq] at hkind
  cases p with
  | list items =>
    cases o with
    | list => cases hno
    | str | scope | function | failure | input | output => cases hkind
  | str | scope | function | failure | input | output => rfl

theorem parts_stored {ps : Template.Parts} (h : Alongside s₀ env nodes M s t)
    (hp : ps.Stored s₀.store) (hnodes : ps.nodes ⊆ nodes) :
    ps.Stored t.store :=
  Template.Parts.Stored.mono (fun _ => h.atom) ps (fun _ ha => h.get?_node (hnodes ha)) hp

end Alongside

/-- The second interpreter has come from `t` to `t'` while the first one has come to `s'`. It has
evaluated the same expressions, to values that match, and the lists that it has `made` are new and
match nothing. -/
structure Follows (s₀ : Interp) (env : Addr) (nodes : List Addr) (holes : List Hole)
    (plugs : List (List Value)) (M : Matching) (t : Interp) (N : Matching) (s' t' : Interp)
    (plugs' : List (List Value)) (made : List Addr) : Prop where
  along : Alongside s₀ env nodes N s' t'
  course : Course env nodes holes t plugs' made t'
  config : t'.config = t.config
  le : M ≤ N
  frames : M.Frames t.store N t'.store
  plugs : List.Forall₂ N.Lists plugs plugs'
  new : ∀ c ∈ made, t.store.get? c = none
  apart : ∀ c ∈ made, t'.store.contains c = true ∧ ∀ a, ¬N.Pair a c
  nodup : made.Nodup

namespace Follows

variable {s₀ : Interp} {env : Addr} {nodes : List Addr} {holes holes' : List Hole}
  {plugs plugs₁ plugs' plugs₂ : List (List Value)} {M N N' : Matching} {s s₁ s' t t₁ t' : Interp}
    {made made' : List Addr}

theorem refl (h : Alongside s₀ env nodes M s t) : Follows s₀ env nodes [] [] M t M s t [] [] where
  along := h
  course := .nil t
  config := rfl
  le := le_refl M
  frames := .refl M _
  plugs := .nil
  new := List.forall_mem_nil _
  apart := List.forall_mem_nil _
  nodup := .nil

/-- What was made stays as it is. -/
theorem kept (h : Follows s₀ env nodes holes plugs M t N s₁ t₁ plugs₁ made)
    (h' : Follows s₀ env nodes holes' plugs' N t₁ N' s' t' plugs₂ made') {c : Addr} (hc : c ∈ made)
    {o : Object} (ho : t₁.store.get? c = some o) : t'.store.get? c = some o :=
  h'.frames.kept ho (h.apart c hc).2

theorem trans (h : Follows s₀ env nodes holes plugs M t N s₁ t₁ plugs₁ made)
    (h' : Follows s₀ env nodes holes' plugs' N t₁ N' s' t' plugs₂ made') :
    Follows s₀ env nodes (holes ++ holes') (plugs ++ plugs') M t N' s' t' (plugs₁ ++ plugs₂)
      (made ++ made') where
  along := h'.along
  course := h.course.append h'.course
  config := h'.config.trans h.config
  le := h.le.trans h'.le
  frames := h.frames.trans h'.frames
  plugs := List.rel_append (h.plugs.imp fun _ _ hp => hp.mono h'.le) h'.plugs
  new c hc := by
    obtain hc | hc := List.mem_append.mp hc
    · exact h.new c hc
    · cases ht : t.store.get? c with
      | none => rfl
      | some o =>
        have hlive := h.frames.live (Store.contains_iff.mpr ⟨o, ht⟩)
        rw [Store.contains, h'.new c hc] at hlive
        cases hlive
  apart c hc := by
    obtain hc | hc := List.mem_append.mp hc
    · obtain ⟨hlive, hno⟩ := h.apart c hc
      obtain ⟨o, ho⟩ := Store.contains_iff.mp hlive
      exact ⟨h'.frames.live hlive, h'.frames.unmatched ho hno⟩
    · exact h'.apart c hc
  nodup := by
    refine h.nodup.append h'.nodup fun c hc hc' => ?_
    have hlive := (h.apart c hc).1
    rw [Store.contains, h'.new c hc'] at hlive
    cases hlive

/-- What is filled one level deeper is filled once that level is left. -/
theorem up {n : Nat}
    (h : Follows s₀ env nodes holes plugs M { t with depth := n } N s' t' plugs' made) :
    Follows s₀ env nodes holes plugs M t N { s' with depth := t.depth }
      { t' with depth := t.depth } plugs' made :=
  { h with along := h.along.withDepth t.depth, course := h.course.withDepth t.depth }

/-- A list of live values is made. -/
theorem copy (h : Alongside s₀ env nodes M s t) {vs : List Value}
    (hvs : ∀ v ∈ vs, v.Live t.store ∧ M.Known v) :
    Follows s₀ env nodes [] [] M t M s (t.alloc (.list vs.toArray)).2 [] [t.store.next] := by
  have hwf := h.states.stores.right.toWellFormed
  have hchildren : ∀ c ∈ (Object.list vs.toArray).children, t.store.contains c = true := by
    intro c hc
    exact (hvs _ (Object.mem_children_list.mp hc)).1 c rfl
  have hlive : (t.store.insert (.list vs.toArray)).contains t.store.next = true :=
    Store.contains_iff.mpr ⟨_, hwf.get?_insert_next _⟩
  refine ⟨{ h with states := ?_ }, .copy vs (.nil _), rfl, le_refl M, .insert hwf _ .inl, .nil, ?_,
    ?_, List.nodup_singleton _⟩
  · have hstores := h.states.stores.insert_right hchildren fun x hx => (hvs _ hx).2 x rfl
    exact h.states.withStore (le_refl M) rfl h.states.overt hstores
  · intro c hc
    cases List.mem_singleton.mp hc
    exact hwf.get?_next
  · intro c hc
    cases List.mem_singleton.mp hc
    refine ⟨hlive, fun a hp => ?_⟩
    have hold := h.states.stores.live_right hp
    rw [Store.contains, hwf.get?_next] at hold
    cases hold

/-- An expression that evaluates without copying does so with it, to what matches. -/
theorem hole {h : Hole} (hal : Alongside s₀ env nodes M s t) (hlevel : h.level = t.depth)
    (hform : s₀.Owns h.form) (hc : Course env nodes [h] s plugs [] s') :
    ∃ N w t' plug', (Eval.evaluate env h.form).Ends t (.ok w) t' ∧ h.Gives t'.store w plug' ∧
      (∀ v ∈ plug', v.Live t'.store ∧ N.Known v) ∧
      Follows s₀ env nodes [h] plugs M t N s' t' [plug'] [] := by
  cases hc with
  | @hole _ _ _ s₁ _ fuel v plug _ _ heval hplug hnodes rest =>
    cases rest
    have hdepth : h.level = s.depth := hlevel.trans hal.states.depth.symm
    rw [hdepth] at heval
    have hends := Interp.run_finished_iff.mp ⟨fuel, heval⟩
    have hpair : M.Pair env env := (Matching.self_pair hal.env).mono hal.self
    obtain ⟨N, w, t', hends', hle, hv, hstates, hframes⟩ :=
      hal.states.ends_evaluate hpair (hal.values hform) hends
    obtain ⟨fuel', hrun⟩ := Interp.run_finished_iff.mpr hends'
    have heval' : Interp.eval fuel' env h.form { t with depth := h.level } =
        .finished (.ok w) t' := by
      rw [hlevel]
      exact hrun
    have hback : ({ s₁ with depth := s.depth } : Interp) = s₁ := by rw [← hends.depth_eq]
    have hback' : ({ t' with depth := t.depth } : Interp) = t' := by rw [← hends'.depth_eq]
    rw [hback]
    have halong : Alongside s₀ env nodes N s₁ t' :=
      { hal with
        self := hal.self.trans hle
        states := hstates
        nodes := fun a ha => (hnodes a ha).trans (hal.nodes a ha) }
    have hgives : ∃ plug', h.Gives t'.store w plug' ∧ N.Lists plug plug' := by
      cases hplug with
      | value level form v => exact ⟨[w], .value level form w, .cons hv .nil⟩
      | items level form ha =>
        cases hv with
        | ref hp =>
          obtain ⟨o, p, ho, hp', _, hop⟩ := hstates.stores.get hp
          cases ho.symm.trans ha
          cases hop with
          | @list _ items hlists => exact ⟨items.toList, .items level form hp', hlists⟩
    obtain ⟨plug', hgives, hlists⟩ := hgives
    have hlive : ∀ v ∈ plug', v.Live t'.store ∧ N.Known v := by
      intro v hv
      obtain ⟨_, _, hvalues⟩ := hlists.flip.exists_of_mem hv
      exact ⟨hstates.stores.flip.live_values hvalues, hvalues.known⟩
    refine ⟨N, w, t', plug', hends', hgives, hlive, halong, ?_, hends'.config_eq, hle, hframes,
      .cons hlists .nil, List.forall_mem_nil _, List.forall_mem_nil _, .nil⟩
    refine .hole heval' hgives (fun a ha => ?_) ?_
    · rw [halong.get?_node ha, hal.get?_node ha]
    · rw [hback']
      exact .nil t'

end Follows

namespace Template

variable {s₀ : Interp} {env : Addr} {nodes : List Addr}

mutual

/-- Filling a template follows the evaluation of its expressions. -/
theorem exists_fill_ends :
    (T : Template) → ∀ {M : Matching} {s t s' : Interp} {plugs : List (List Value)},
    Alongside s₀ env nodes M s t → T.Stored s₀.store → T.nodes ⊆ nodes →
    t.depth + T.height ≤ t.config.maxDepth → Course env nodes (T.holes t.depth) s plugs [] s' →
    ∃ N t' plugs' made v, (Eval.fill env T.value).Ends t (.ok v) t' ∧
      Follows s₀ env nodes (T.holes t.depth) plugs M t N s' t' plugs' made ∧
      T.Filled t'.store plugs' made v ∧ v.Live t'.store ∧ (T.value.Named s₀.symbols → N.Known v)
  | .leaf v, M, s, t, s', plugs, hal, hT, hnodes, hroom, hc => by
    cases hc
    have hatom := hal.atom hT
    exact ⟨M, t, [], [], v, Eval.ends_fill_atom hatom, .refl hal, .leaf v, hatom.live,
      fun hv x hx => hal.self.2.2 x (.inl (hv x hx))⟩
  | .unquote a form, M, s, t, s', plugs, hal, hT, hnodes, hroom, hc => by
    have hget := (hal.get?_node (hnodes (.head _))).trans hT
    have hmem : form ∈ [.sym .unquote, form] := .tail _ (.head _)
    have hform : s₀.Owns form := ⟨hal.intact.live_item hT hmem, hal.named.item hT hmem⟩
    obtain ⟨N, w, t', plug', hends, hgives, hlive, hfollows⟩ := Follows.hole hal rfl hform hc
    cases hgives
    exact ⟨N, t', _, [], w, (Eval.ends_fill_unquote hget).mpr hends, hfollows, .unquote a form w,
      (hlive w (.head _)).1, fun _ => (hlive w (.head _)).2⟩
  | .list a parts, M, s, t, s', plugs, hal, hT, hnodes, hroom, hc => by
    have hget := (hal.get?_node (hnodes (.head _))).trans hT.1
    obtain ⟨N, t₁, plugs', made, vs, hends, hfollows, hfilled, hlive⟩ :=
      Parts.exists_fillItems_ends parts hal hT.2.2 (fun _ hv => hal.named.item hT.1 hv)
        (List.subset_of_cons_subset hnodes) hroom hc []
    have hcopy := Follows.copy hfollows.along hlive
    have hall := hfollows.trans hcopy
    simp only [List.append_nil] at hall
    have hnew : (t₁.alloc (.list vs.toArray)).2.store.get? t₁.store.next =
        some (.list vs.toArray) :=
      hfollows.along.states.stores.right.get?_insert_next _
    refine ⟨N, _, plugs', made ++ [t₁.store.next], .ref t₁.store.next, ?_, hall,
      .list a (hfilled.mono fun c hc o => hfollows.kept hcopy hc) hnew, Value.live_ref hnew,
      fun _ => by simp [Matching.Known]⟩
    rw [value, Eval.ends_fill_list hget hT.2.1]
    exact Eval.ends_bind.mpr (.inl ⟨vs, t₁, hends, .effect rfl (.done _ _)⟩)

theorem Parts.exists_fillItems_ends :
    (ps : Parts) → ∀ {M : Matching} {s t s' : Interp} {plugs : List (List Value)},
    Alongside s₀ env nodes M s t → ps.Stored s₀.store → (∀ v ∈ ps.values, v.Named s₀.symbols) →
    ps.nodes ⊆ nodes → t.depth + ps.height ≤ t.config.maxDepth →
    Course env nodes (ps.holes t.depth) s plugs [] s' → ∀ before,
    ∃ N t' plugs' made vs, (Eval.fillItems env before ps.values).Ends t
      (.ok (before.reverse ++ vs)) t' ∧
      Follows s₀ env nodes (ps.holes t.depth) plugs M t N s' t' plugs' made ∧
      ps.Filled t'.store plugs' made vs ∧
      ∀ v ∈ vs, v.Live t'.store ∧ N.Known v
  | .nil, M, s, t, s', plugs, hal, hp, hx, hnodes, hroom, hc, before => by
    cases hc
    refine ⟨M, t, [], [], [], ?_, .refl hal, .nil, List.forall_mem_nil _⟩
    rw [List.append_nil]
    exact .done _ t
  | .item T rest, M, s, t, s', plugs, hal, hp, hx, hnodes, hroom, hc, before => by
    rw [Parts.height] at hroom
    obtain ⟨hnodes₁, hnodes₂⟩ := List.append_subset.mp hnodes
    obtain ⟨plugs₁, plugs₂, s₁, rfl, hc₁, hc₂⟩ := hc.split
    have hroom₁ : t.depth < t.config.maxDepth := by omega
    have hdeeper : t.depth + 1 + T.height ≤ t.config.maxDepth := by omega
    obtain ⟨N, t₁, plugs₁', made₁, v, hends₁, hfollows₁, hfilled₁, hlive₁, hknown₁⟩ :=
      exists_fill_ends T (hal.withDepth (t.depth + 1)) hp.1 hnodes₁ hdeeper
        (hc₁.withDepth (t.depth + 1))
    -- back on this level the first interpreter is where its course has led
    have hback : ({ s₁ with depth := t.depth } : Interp) = s₁ := by
      rw [← hal.states.depth, ← hc₁.depth_eq]
    have hfollows₁ := hfollows₁.up
    dsimp only at hfollows₁
    rw [hback] at hfollows₁
    have hroom₂ : t.depth + rest.height ≤ t₁.config.maxDepth := by
      rw [hfollows₁.config]
      omega
    obtain ⟨N', t', plugs₂', made₂, vs, hends₂, hfollows₂, hfilled₂, hlive₂⟩ :=
      Parts.exists_fillItems_ends rest hfollows₁.along hp.2.2
        (fun w hw => hx w (.tail _ hw)) hnodes₂ hroom₂ hc₂
        (v :: before)
    refine ⟨N', t', plugs₁' ++ plugs₂', made₁ ++ made₂, v :: vs, ?_, hfollows₁.trans hfollows₂,
      .item (hfilled₁.mono fun c hc o => hfollows₁.kept hfollows₂ hc) hfilled₂, ?_⟩
    · have hstored := hal.parts_stored hp hnodes
      rw [Parts.values, Eval.ends_fillItems_item (fun a => hstored.1.live) hstored.2.1]
      rw [List.reverse_cons, List.append_assoc] at hends₂
      exact Eval.ends_bind.mpr (.inl ⟨v, _, (Eval.ends_enter hroom₁).mpr ⟨t₁, hends₁, rfl⟩, hends₂⟩)
    · intro w hw
      obtain rfl | hw := List.mem_cons.mp hw
      · exact ⟨fun a ha => hfollows₂.frames.live (hlive₁ a ha),
          (hknown₁ (hx _ (.head _))).mono hfollows₂.le⟩
      · exact hlive₂ w hw
  | .splice a form rest, M, s, t, s', plugs, hal, hp, hx, hnodes, hroom, hc, before => by
    have hget := (hal.get?_node (hnodes (.head _))).trans hp.1
    have hmem : form ∈ [.sym .splice, form] := .tail _ (.head _)
    have hform : s₀.Owns form := ⟨hal.intact.live_item hp.1 hmem, hal.named.item hp.1 hmem⟩
    have hc : Course env nodes ([⟨t.depth, form, true⟩] ++ rest.holes t.depth) s plugs [] s' := hc
    obtain ⟨plugs₁, plugs₂, s₁, rfl, hc₁, hc₂⟩ := hc.split
    obtain ⟨N, w, t₁, plug, hends₁, hgives, hlive₁, hfollows₁⟩ := Follows.hole hal rfl hform hc₁
    have hroom₂ : t₁.depth + rest.height ≤ t₁.config.maxDepth := by
      rw [hfollows₁.config, hends₁.depth_eq]
      exact hroom
    rw [← hends₁.depth_eq] at hc₂
    obtain ⟨N', t', plugs₂', made₂, vs, hends₂, hfollows₂, hfilled₂, hlive₂⟩ :=
      Parts.exists_fillItems_ends rest hfollows₁.along hp.2 (fun w hw => hx w (.tail _ hw))
        (List.subset_of_cons_subset hnodes) hroom₂ hc₂ (plug.reverse ++ before)
    rw [hends₁.depth_eq] at hfollows₂
    cases hgives with
    | items _ _ hb =>
      refine ⟨N', t', plug :: plugs₂', made₂, plug ++ vs, ?_, hfollows₁.trans hfollows₂,
        .splice a form plug hfilled₂, ?_⟩
      · rw [List.reverse_append, List.reverse_reverse, List.append_assoc] at hends₂
        exact Eval.ends_fillItems_splice hget hends₁ hb hends₂
      · intro v hv
        obtain hv | hv := List.mem_append.mp hv
        · exact ⟨fun a ha => hfollows₂.frames.live ((hlive₁ v hv).1 a ha),
            (hlive₁ v hv).2.mono hfollows₂.le⟩
        · exact hlive₂ v hv

end

end Template

end HeapLisp
