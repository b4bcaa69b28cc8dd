import HeapLisp.Proofs.Matching.Basic
import HeapLisp.Proofs.Store.Intact

namespace HeapLisp.Matching

variable {M N : Matching} {v w : Value} {a b : Addr} {o p : Object}

/-- The same matching seen from the other side. -/
def flip (M : Matching) : Matching where
  pairs k a b := M.pairs k b a
  form k a b := M.form k b a
  knows := M.knows
  unique h h' := (M.unique h h').symm
  wellKnown := M.wellKnown

theorem Pair.flip (h : M.Pair a b) : M.flip.Pair b a := h

theorem rel_flip {α β : Type} {R : α → β → Prop} {x : Option α} {y : Option β}
    (h : Option.Rel R x y) :
    Option.Rel (fun b a => R a b) y x := by
  cases h with
  | none => exact .none
  | some h => exact .some h

theorem Values.flip (h : M.Values v w) : M.flip.Values w v := by
  cases h with
  | num n => exact .num n
  | sym hs => exact .sym hs
  | ref h => exact .ref h

theorem rel_values_flip {x y : Option Value} (h : Option.Rel M.Values x y) :
    Option.Rel M.flip.Values y x := by
  cases h with
  | none => exact .none
  | some h => exact .some h.flip

theorem Lists.flip {vs ws : List Value} (h : M.Lists vs ws) : M.flip.Lists ws vs :=
  (List.Forall₂.flip h).imp fun _ _ h => Values.flip h

theorem Lists.exists_of_mem {vs ws : List Value} (h : M.Lists vs ws) (hv : v ∈ vs) :
    ∃ w ∈ ws, M.Values v w := by
  induction h with
  | nil => cases hv
  | cons hx _ ih =>
    cases hv with
    | head => exact ⟨_, .head _, hx⟩
    | tail _ hv =>
      obtain ⟨w, hw, h⟩ := ih hv
      exact ⟨w, .tail _ hw, h⟩

theorem rel_some_left {α β : Type} {R : α → β → Prop} {x : Option α} {y : Option β} {u : α}
    (h : Option.Rel R x y) (hx : x = some u) : ∃ v, y = some v ∧ R u v := by
  subst hx
  cases h with
  | some h => exact ⟨_, rfl, h⟩

theorem Binds.flip {x y : Bindings} (h : M.Binds x y) : M.flip.Binds y x where
  values s := rel_values_flip (h.values s)
  knows {s w} hs := by
    obtain ⟨v, hv, _⟩ := rel_some_left (rel_values_flip (h.values s)) hs
    exact h.knows hv

theorem Objects.flip (h : M.Objects o p) : M.flip.Objects p o := by
  cases h with
  | str text => exact .str text
  | list h => exact .list h.flip
  | scope hb hp => exact .scope hb.flip (rel_flip hp)
  | function h =>
    cases h with
    | native n => exact .function (.native n)
    | closure h => exact .function (.closure ⟨h.kind.symm, h.kind ▸ h.form, h.scope⟩)
  | failure fault location h => exact .failure fault location h.flip
  | input stream => exact .input stream
  | output written => exact .output written

theorem Binds.put {x y : Bindings} {s : Symbol} {old old' : Option Value} (h : M.Binds x y)
    (hs : M.knows s) (hv : Option.Rel M.Values old old') :
    M.Binds (x.put s old) (y.put s old') where
  values r := by
    simp only [Bindings.get?_put]
    split
    · exact hv
    · exact h.values r
  knows {r u} hr := by
    simp only [Bindings.get?_put] at hr
    split at hr
    · rename_i he
      rwa [he]
    · exact h.knows hr

theorem Binds.insert {x y : Bindings} {s : Symbol} (h : M.Binds x y) (hs : M.knows s)
    (hv : M.Values v w) : M.Binds (x.insert s v) (y.insert s w) := h.put hs (.some hv)

/-- Matching addresses hold objects of their kind that match, nothing in either store refers to a
dead address, and all symbols in them are known. -/
structure Stores (M : Matching) (st st' : Store Object) : Prop where
  left : st.Intact
  right : st'.Intact
  leftUses : st.UsesOnly M.knows
  rightUses : st'.UsesOnly M.knows
  objects : ∀ {k a b}, M.pairs k a b → ∃ o p, st.get? a = some o ∧ st'.get? b = some p ∧
    o.kind = k ∧ M.Objects o p
  form : ∀ {k a b}, M.form k a b → st.contains a = true ∧ st'.contains b = true

theorem Objects.knows {x : Symbol} (h : M.Objects o p) (hx : o.Uses x) : M.knows x := by
  have known {w : Value} (hv : M.Values (.sym x) w) : M.knows x := by
    cases hv with
    | sym hs => exact hs
  cases h with
  | list hs =>
    obtain ⟨w, _, hw⟩ := hs.exists_of_mem hx
    exact known hw
  | scope hb _ =>
    obtain ⟨v, hv⟩ | ⟨y, hy⟩ := hx
    · exact hb.knows hv
    · obtain ⟨w, _, hw⟩ := rel_some_left (hb.values y) hy
      exact known hw
  | failure fault location hv =>
    cases hx
    exact known hv
  | str | function | input | output => exact hx.elim

/-- A closure's form is an object like any other. -/
def Overt (M : Matching) : Prop := ∀ k a b, M.form k a b → M.Pair a b

namespace Stores

variable {st st' : Store Object}

theorem flip (h : M.Stores st st') : M.flip.Stores st' st where
  left := h.right
  right := h.left
  leftUses := h.rightUses
  rightUses := h.leftUses
  objects hp := by
    obtain ⟨o, p, ho, hp, hk, hop⟩ := h.objects hp
    exact ⟨p, o, hp, ho, hop.kind_eq ▸ hk, hop.flip⟩
  form hf := (h.form hf).symm

theorem get (h : M.Stores st st') (hp : M.Pair a b) :
    ∃ o p, st.get? a = some o ∧ st'.get? b = some p ∧ M.pairs o.kind a b ∧ M.Objects o p := by
  obtain ⟨k, hk⟩ := hp
  obtain ⟨o, p, ho, hp, rfl, hop⟩ := h.objects hk
  exact ⟨o, p, ho, hp, hk, hop⟩

theorem live_left (h : M.Stores st st') (hp : M.Pair a b) : st.contains a = true := by
  obtain ⟨o, _, ho, _⟩ := h.get hp
  exact Store.contains_iff.mpr ⟨o, ho⟩

theorem live_right (h : M.Stores st st') (hp : M.Pair a b) : st'.contains b = true :=
  h.flip.live_left hp

theorem live_values (h : M.Stores st st') (hv : M.Values v w) : v.Live st := by
  rintro a rfl
  cases hv with
  | ref hp => exact h.live_left hp

/-- What matching objects refer to is live. -/
theorem children_live_left (h : M.Stores st st') (ho : M.Objects o p) :
    ∀ c ∈ o.children, st.contains c = true := by
  intro c hc
  cases ho with
  | list hs =>
    obtain ⟨w, _, hv⟩ := hs.exists_of_mem (Object.mem_children_list.mp hc)
    exact h.live_values hv _ rfl
  | scope hb hp =>
    obtain ⟨r, hr⟩ | hparent := Object.mem_children_scope.mp hc
    · obtain ⟨w, _, hv⟩ := rel_some_left (hb.values r) hr
      exact h.live_values hv _ rfl
    · obtain ⟨d, _, hp⟩ := rel_some_left hp hparent
      exact h.live_left hp
  | function hf =>
    cases hf with
    | native n => cases hc
    | closure hcd =>
      simp only [Object.children, List.mem_cons, List.not_mem_nil, or_false] at hc
      obtain rfl | rfl := hc
      · exact (h.form hcd.form).1
      · exact h.live_left hcd.scope
  | failure fault location hv =>
    cases Object.mem_children_failure.mp hc
    exact h.live_values hv _ rfl
  | str | input | output => cases hc

theorem children_live_right (h : M.Stores st st') (ho : M.Objects o p) :
    ∀ d ∈ p.children, st'.contains d = true :=
  h.flip.children_live_left ho.flip

end Stores

/-- The matching of nothing with nothing. -/
def nothing : Matching where
  pairs _ _ _ := False
  form _ _ _ := False
  knows s := s.index < Symbol.wellKnown.length
  unique h := h.elim
  wellKnown h := h

/-- A matching that knows one more symbol. -/
def learn (M : Matching) (s : Symbol) : Matching where
  pairs := M.pairs
  form := M.form
  knows x := M.knows x ∨ x = s
  unique := M.unique
  wellKnown h := .inl (M.wellKnown h)

theorem le_learn (M : Matching) (s : Symbol) : M ≤ M.learn s :=
  ⟨fun _ _ _ hp => hp, fun _ _ _ hf => hf, fun _ hs => .inl hs⟩

theorem Stores.learn {st st' : Store Object} (h : M.Stores st st') (s : Symbol) :
    (M.learn s).Stores st st' where
  left := h.left
  right := h.right
  leftUses := h.leftUses.mono (M.le_learn s).2.2
  rightUses := h.rightUses.mono (M.le_learn s).2.2
  objects hp := by
    obtain ⟨o, p, ho, hp, hk, hop⟩ := h.objects hp
    exact ⟨o, p, ho, hp, hk, hop.mono (M.le_learn s)⟩
  form hf := h.form hf

/-- A matching with one more pair of addresses. -/
def withPair (M : Matching) (k : Kind) (a b : Addr) (h : ∀ {l c d}, M.pairs l c d → c ≠ a ∧ d ≠ b) :
    Matching where
  pairs l c d := M.pairs l c d ∨ l = k ∧ c = a ∧ d = b
  form := M.form
  knows := M.knows
  wellKnown := M.wellKnown
  unique := by
    rintro l l' c d c' d' (hc | ⟨rfl, rfl, rfl⟩) (hc' | ⟨rfl, rfl, rfl⟩)
    · exact M.unique hc hc'
    · simp [h hc]
    · simp [(h hc').1.symm, (h hc').2.symm]
    · simp

theorem le_withPair (M : Matching) (k : Kind) (a b : Addr)
    (h : ∀ {l c d}, M.pairs l c d → c ≠ a ∧ d ≠ b) :
    M ≤ M.withPair k a b h := ⟨fun _ _ _ hp => .inl hp, fun _ _ _ hf => hf, fun _ hs => hs⟩

/-- A matching with one more pair of addresses, which are also a form to closures. -/
def extend (M : Matching) (k : Kind) (a b : Addr) (h : ∀ {l c d}, M.pairs l c d → c ≠ a ∧ d ≠ b) :
    Matching :=
  { M.withPair k a b h with form := fun l c d => M.form l c d ∨ c = a ∧ d = b }

theorem le_extend (M : Matching) (k : Kind) (a b : Addr)
    (h : ∀ {l c d}, M.pairs l c d → c ≠ a ∧ d ≠ b) :
    M ≤ M.extend k a b h := ⟨fun _ _ _ hp => .inl hp, fun _ _ _ hf => .inl hf, fun _ hs => hs⟩

/-- How the second of two stores goes on under a matching that grows: what matches there has matched
before or is new, and what did not match is as it was. -/
structure Frames (M : Matching) (st : Store Object) (N : Matching) (st' : Store Object) : Prop where
  old : ∀ {a b}, N.Pair a b → M.Pair a b ∨ st.get? b = none
  kept : ∀ {b p}, st.get? b = some p → (∀ a, ¬M.Pair a b) → st'.get? b = some p
  live : ∀ {b}, st.contains b = true → st'.contains b = true

namespace Frames

variable {N' : Matching} {st st₁ st' : Store Object}

theorem refl (M : Matching) (st : Store Object) : M.Frames st M st where
  old hp := .inl hp
  kept hp _ := hp
  live hb := hb

theorem learn (M : Matching) (st : Store Object) (s : Symbol) : M.Frames st (M.learn s) st where
  old hp := .inl hp
  kept hp _ := hp
  live hb := hb

/-- What is there and does not match will not match. -/
theorem unmatched (h : M.Frames st N st') (hb : st.get? b = some p) (hno : ∀ a, ¬M.Pair a b) :
    ∀ a, ¬N.Pair a b := by
  intro a hp
  obtain hp | hnone := h.old hp
  · exact hno a hp
  · cases hnone.symm.trans hb

theorem trans (h : M.Frames st N st₁) (h' : N.Frames st₁ N' st') : M.Frames st N' st' where
  old {a b} hp := by
    obtain hp | hnone := h'.old hp
    · exact h.old hp
    · refine .inr (Option.eq_none_iff_forall_ne_some.mpr fun p hp => ?_)
      obtain ⟨p', hp'⟩ := Store.contains_iff.mp (h.live (Store.contains_iff.mpr ⟨p, hp⟩))
      cases hnone.symm.trans hp'
  kept hb hno := h'.kept (h.kept hb hno) (h.unmatched hb hno)
  live hb := h'.live (h.live hb)

/-- A change of an object that matches. -/
theorem modify (hp : M.Pair a b) (f : Object → Object) : M.Frames st M (st.modify b f) where
  old hp := .inl hp
  kept {c p} hc hno := by
    rw [Store.get?_modify, if_neg, hc]
    intro h
    subst h
    exact hno a hp
  live hc := by rwa [Store.contains_modify]

/-- A new object, whose address may match from now on. -/
theorem insert (h : st.WellFormed) (p : Object)
    (hpairs : ∀ {c d}, N.Pair c d → M.Pair c d ∨ d = st.next) :
    M.Frames st N (st.insert p) where
  old {c d} hp := by
    obtain hp | rfl := hpairs hp
    · exact .inl hp
    · exact .inr h.get?_next
  kept hc _ := h.get?_insert_of_get? p hc
  live hc := by
    obtain ⟨x, hx⟩ := Store.contains_iff.mp hc
    exact Store.contains_iff.mpr ⟨x, h.get?_insert_of_get? p hx⟩

end Frames

namespace Stores

variable {st st' : Store Object}

/-- Matching objects stored at new addresses, which may match from now on or be a form to
closures. -/
theorem grow (h : M.Stores st st') (ho : M.Objects o p) (hle : M ≤ N)
    (hpairs : ∀ {k c d}, N.pairs k c d → M.pairs k c d ∨ k = o.kind ∧ c = st.next ∧ d = st'.next)
    (hform : ∀ {k c d}, N.form k c d → M.form k c d ∨ c = st.next ∧ d = st'.next) :
    N.Stores (st.insert o) (st'.insert p) where
  left := h.left.insert (h.children_live_left ho)
  right := h.right.insert (h.children_live_right ho)
  leftUses := (h.leftUses.mono hle.2.2).insert h.left.toWellFormed fun _ hx =>
    (ho.mono hle).knows hx
  rightUses :=
    (h.rightUses.mono hle.2.2).insert h.right.toWellFormed fun _ hx => (ho.mono hle).flip.knows hx
  objects := by
    intro k c d hk
    obtain hold | ⟨rfl, rfl, rfl⟩ := hpairs hk
    · obtain ⟨x, y, hx, hy, hkind, hxy⟩ := h.objects hold
      exact ⟨x, y, h.left.get?_insert_of_get? o hx, h.right.get?_insert_of_get? p hy, hkind,
        hxy.mono hle⟩
    · refine ⟨o, p, ?_, ?_, rfl, ho.mono hle⟩
      · exact h.left.get?_insert_next o
      · exact h.right.get?_insert_next p
  form := by
    intro k c d hk
    obtain hold | ⟨rfl, rfl⟩ := hform hk
    · have hlive := h.form hold
      exact ⟨Store.Intact.contains_insert h.left.toWellFormed o hlive.1,
        Store.Intact.contains_insert h.right.toWellFormed p hlive.2⟩
    · rw [Store.contains_iff, Store.contains_iff]
      exact ⟨⟨o, h.left.get?_insert_next o⟩, p, h.right.get?_insert_next p⟩

/-- What matches is at no new address. -/
theorem ne_next (h : M.Stores st st') {k : Kind} (hp : M.pairs k a b) :
    a ≠ st.next ∧ b ≠ st'.next := by
  obtain ⟨x, y, hx, hy, _⟩ := h.objects hp
  constructor
  · rintro rfl
    rw [h.left.get?_next] at hx
    cases hx
  · rintro rfl
    rw [h.right.get?_next] at hy
    cases hy

/-- Objects stored at new addresses: the addresses match from now on. -/
theorem insert (h : M.Stores st st') (hov : M.Overt) (ho : M.Objects o p) :
    ∃ N, M ≤ N ∧ N.knows = M.knows ∧ N.pairs o.kind st.next st'.next ∧
      (∀ k, N.form k st.next st'.next) ∧ N.Overt ∧ N.Stores (st.insert o) (st'.insert p) ∧
      M.Frames st' N (st'.insert p) := by
  have hle := M.le_extend o.kind st.next st'.next h.ne_next
  refine ⟨_, hle, rfl, .inr ⟨rfl, rfl, rfl⟩, fun _ => .inr ⟨rfl, rfl⟩, ?_,
    h.grow ho hle (fun hk => hk) fun hf => hf, ?_⟩
  · rintro k c d (hf | ⟨rfl, rfl⟩)
    · exact (hov _ _ _ hf).mono hle
    · exact ⟨o.kind, .inr ⟨rfl, rfl, rfl⟩⟩
  · refine .insert h.right.toWellFormed p ?_
    rintro c d ⟨k, hk | ⟨_, _, hd⟩⟩
    · exact .inl ⟨k, hk⟩
    · exact .inr hd

/-- An object that only the second store gets does not match. -/
theorem insert_right (h : M.Stores st st') (hp : ∀ c ∈ p.children, st'.contains c = true)
    (hx : ∀ x, p.Uses x → M.knows x) : M.Stores st (st'.insert p) where
  left := h.left
  right := h.right.insert hp
  leftUses := h.leftUses
  rightUses := h.rightUses.insert h.right.toWellFormed hx
  objects {k a b} hk := by
    obtain ⟨x, y, hx, hy, hkind, hxy⟩ := h.objects hk
    exact ⟨x, y, hx, h.right.get?_insert_of_get? p hy, hkind, hxy⟩
  form hf := ⟨(h.form hf).1, Store.Intact.contains_insert h.right.toWellFormed p (h.form hf).2⟩

/-- Matching changes at matching addresses, which leave the kind of the object there. -/
theorem modify (h : M.Stores st st') (hp : M.Pair a b) {f g : Object → Object}
    (hf : ∀ o p, st.get? a = some o → M.Objects o p → (f o).kind = o.kind ∧ M.Objects (f o) (g p)) :
    M.Stores (st.modify a f) (st'.modify b g) where
  left := by
    obtain ⟨o, p, ho, _, _, hop⟩ := h.get hp
    refine h.left.modify fun o' ho' => ?_
    cases ho.symm.trans ho'
    exact h.children_live_left (hf o p ho hop).2
  right := by
    obtain ⟨o, p, ho, hp, _, hop⟩ := h.get hp
    refine h.right.modify fun p' hp' => ?_
    cases hp.symm.trans hp'
    exact h.children_live_right (hf o p ho hop).2
  leftUses := by
    obtain ⟨o, p, ho, _, _, hop⟩ := h.get hp
    refine h.leftUses.modify fun o' ho' x hx => ?_
    cases ho.symm.trans ho'
    exact (hf o p ho hop).2.knows hx
  rightUses := by
    obtain ⟨o, p, ho, hp, _, hop⟩ := h.get hp
    refine h.rightUses.modify fun p' hp' x hx => ?_
    cases hp.symm.trans hp'
    exact (hf o p ho hop).2.flip.knows hx
  objects {k c d} hk := by
    obtain ⟨o, p, ho, hp', rfl, hop⟩ := h.objects hk
    rw [Store.get?_modify, Store.get?_modify, ho, hp']
    by_cases hc : c = a
    · rw [if_pos hc, if_pos ((Pair.eq_iff ⟨_, hk⟩ hp).mp hc)]
      subst hc
      obtain ⟨hkind, hfg⟩ := hf o p ho hop
      exact ⟨f o, g p, rfl, rfl, hkind, hfg⟩
    · rw [if_neg hc, if_neg (mt (Pair.eq_iff ⟨_, hk⟩ hp).mpr hc)]
      exact ⟨o, p, rfl, rfl, rfl, hop⟩
  form hf := by
    simpa using h.form hf

/-- Matching changes of bindings at matching addresses; what is no scope stays as it is. -/
theorem modifyBindings (h : M.Stores st st') (hp : M.Pair a b) {f g : Bindings → Bindings}
    (hf : ∀ x y, M.Binds x y → M.Binds (f x) (g y)) :
    M.Stores (st.modify a (Object.mapBindings f)) (st'.modify b (Object.mapBindings g)) := by
  refine h.modify hp fun o p _ hop => ?_
  cases hop with
  | scope hb hparent => exact ⟨rfl, .scope (hf _ _ hb) hparent⟩
  | str text => exact ⟨rfl, .str text⟩
  | list hs => exact ⟨rfl, .list hs⟩
  | function hf => exact ⟨rfl, .function hf⟩
  | failure fault location hv => exact ⟨rfl, .failure fault location hv⟩
  | input stream => exact ⟨rfl, .input stream⟩
  | output written => exact ⟨rfl, .output written⟩

theorem updateItems (h : M.Stores st st') (hp : M.Pair a b) {f g : Array Value → Array Value}
    (hf : ∀ xs ys, M.Lists (Array.toList xs) (Array.toList ys) →
      M.Lists (f xs).toList (g ys).toList) :
    M.Stores (st.modify a (Object.mapItems f)) (st'.modify b (Object.mapItems g)) := by
  refine h.modify hp fun o p _ hop => ?_
  cases hop with
  | list hs => exact ⟨rfl, .list (hf _ _ hs)⟩
  | str text => exact ⟨rfl, .str text⟩
  | scope hb hparent => exact ⟨rfl, .scope hb hparent⟩
  | function hf => exact ⟨rfl, .function hf⟩
  | failure fault location hv => exact ⟨rfl, .failure fault location hv⟩
  | input stream => exact ⟨rfl, .input stream⟩
  | output written => exact ⟨rfl, .output written⟩

theorem append (h : M.Stores st st') (hp : M.Pair a b) (bytes : Bytes) :
    M.Stores (st.modify a (Object.append bytes)) (st'.modify b (Object.append bytes)) := by
  refine h.modify hp fun o p _ hop => ?_
  cases hop with
  | output written => exact ⟨rfl, .output _⟩
  | list hs => exact ⟨rfl, .list hs⟩
  | str text => exact ⟨rfl, .str text⟩
  | scope hb hparent => exact ⟨rfl, .scope hb hparent⟩
  | function hf => exact ⟨rfl, .function hf⟩
  | failure fault location hv => exact ⟨rfl, .failure fault location hv⟩
  | input stream => exact ⟨rfl, .input stream⟩

/-- A stream that is an object has gone on in both stores. -/
theorem setStream (h : M.Stores st st') (hp : M.Pair a b) {stream : InputStream}
    (ha : st.get? a = some (.input stream)) (next : InputStream) :
    M.Stores (st.set a (.input next)) (st'.set b (.input next)) := by
  refine h.modify hp fun o p ho _ => ?_
  cases ho.symm.trans ha
  exact ⟨rfl, .input next⟩

end Stores

/-- The part of a matching whose addresses are live in both stores. -/
def restrict (M : Matching) (st st' : Store Object) : Matching where
  pairs k a b := M.pairs k a b ∧ st.contains a = true ∧ st'.contains b = true
  form k a b := M.form k a b ∧ st.contains a = true ∧ st'.contains b = true
  knows := M.knows
  unique h h' := M.unique h.1 h'.1
  wellKnown := M.wellKnown

section Restrict

variable {st st' : Store Object}

theorem Values.restrict (h : M.Values v w) (hv : ∀ a, v = .ref a → st.contains a = true)
    (hw : ∀ b, w = .ref b → st'.contains b = true) : (M.restrict st st').Values v w := by
  cases h with
  | num n => exact .num n
  | sym hs => exact .sym hs
  | ref hp =>
    obtain ⟨k, hk⟩ := hp
    exact .ref ⟨k, hk, hv _ rfl, hw _ rfl⟩

theorem Lists.restrict {vs ws : List Value} (h : M.Lists vs ws)
    (hv : ∀ a, .ref a ∈ vs → st.contains a = true) (hw : ∀ b, .ref b ∈ ws → st'.contains b = true) :
    (M.restrict st st').Lists vs ws := by
  induction h with
  | nil => exact .nil
  | cons hx _ ih =>
    refine .cons (hx.restrict ?_ ?_) (ih ?_ ?_)
    · rintro a rfl
      exact hv a (.head _)
    · rintro b rfl
      exact hw b (.head _)
    · exact fun a ha => hv a (.tail _ ha)
    · exact fun b hb => hw b (.tail _ hb)

theorem rel_values_restrict {x y : Option Value} (h : Option.Rel M.Values x y)
    (hx : ∀ a, x = some (.ref a) → st.contains a = true)
    (hy : ∀ b, y = some (.ref b) → st'.contains b = true) :
    Option.Rel (M.restrict st st').Values x y := by
  cases h with
  | none => exact .none
  | some h => exact .some (h.restrict (fun a ha => hx a (ha ▸ rfl)) fun b hb => hy b (hb ▸ rfl))

theorem rel_pair_restrict {x y : Option Addr} (h : Option.Rel M.Pair x y)
    (hx : ∀ a, x = some a → st.contains a = true) (hy : ∀ b, y = some b → st'.contains b = true) :
    Option.Rel (M.restrict st st').Pair x y := by
  cases h with
  | none => exact .none
  | some h =>
    obtain ⟨k, hk⟩ := h
    exact .some ⟨k, hk, hx _ rfl, hy _ rfl⟩

/-- Matching objects whose children all stay live. -/
theorem Objects.restrict (h : M.Objects o p) (ho : ∀ c ∈ o.children, st.contains c = true)
    (hp : ∀ d ∈ p.children, st'.contains d = true) : (M.restrict st st').Objects o p := by
  cases h with
  | str text => exact .str text
  | input stream => exact .input stream
  | output written => exact .output written
  | list hs =>
    exact .list (hs.restrict (fun a ha => ho a (Object.mem_children_list.mpr ha)) fun b hb =>
      hp b (Object.mem_children_list.mpr hb))
  | scope hb hparent =>
    refine .scope ⟨fun s => rel_values_restrict (hb.values s) (fun a ha => ?_) fun b hb => ?_,
      hb.knows⟩ (rel_pair_restrict hparent (fun a ha => ?_) fun b hb => ?_)
    · exact ho a (Object.mem_children_scope.mpr (.inl ⟨s, ha⟩))
    · exact hp b (Object.mem_children_scope.mpr (.inl ⟨s, hb⟩))
    · exact ho a (Object.mem_children_scope.mpr (.inr ha))
    · exact hp b (Object.mem_children_scope.mpr (.inr hb))
  | failure fault location hv =>
    exact .failure fault location
        (hv.restrict (fun a ha => ho a (Object.mem_children_failure.mpr ha)) fun b hb =>
      hp b (Object.mem_children_failure.mpr hb))
  | function hf =>
    cases hf with
    | native n => exact .function (.native n)
    | @closure c d hcd =>
      obtain ⟨k, hk⟩ := hcd.scope
      have live (a : Addr) (ha : a ∈ [c.form, c.scope]) := ho a ha
      have live' (b : Addr) (hb : b ∈ [d.form, d.scope]) := hp b hb
      exact .function (.closure ⟨hcd.kind, ⟨hcd.form, live _ (.head _), live' _ (.head _)⟩,
        ⟨k, hk, live _ (.tail _ (.head _)), live' _ (.tail _ (.head _))⟩⟩)

end Restrict

/-- Whatever either store has lost, the rest matches. -/
theorem Stores.keeps {st st' st₁ st₁' : Store Object} {roots roots' : List Addr}
    (h : M.Stores st st') (hk : st.Keeps roots st₁) (hk' : st'.Keeps roots' st₁') :
    (M.restrict st₁ st₁').Stores st₁ st₁' where
  left := hk.intact
  right := hk'.intact
  leftUses := h.leftUses.sub hk.sub
  rightUses := h.rightUses.sub hk'.sub
  objects {k a b} hp := by
    obtain ⟨hp, ha, hb⟩ := hp
    obtain ⟨o, p, ho, hp, hkind, hop⟩ := h.objects hp
    obtain ⟨x, hx⟩ := Store.contains_iff.mp ha
    obtain ⟨y, hy⟩ := Store.contains_iff.mp hb
    cases ho.symm.trans (hk.sub hx)
    cases hp.symm.trans (hk'.sub hy)
    exact ⟨o, p, hx, hy, hkind, hop.restrict (hk.intact.closed hx) (hk'.intact.closed hy)⟩
  form hf := hf.2

theorem Overt.restrict (h : M.Overt) (st st' : Store Object) : (M.restrict st st').Overt := by
  intro k a b hf
  obtain ⟨hf, ha, hb⟩ := hf
  obtain ⟨l, hl⟩ := h k a b hf
  exact ⟨l, hl, ha, hb⟩

end HeapLisp.Matching
