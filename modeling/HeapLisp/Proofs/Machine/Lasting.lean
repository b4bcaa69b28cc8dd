import HeapLisp.Proofs.Machine.Endings
import HeapLisp.Proofs.Reader.Sources
import HeapLisp.Proofs.Store.Copying
import Mathlib.Data.Set.Basic

namespace HeapLisp

/-- What an object may be later on. -/
inductive Object.Becomes : Object → Object → Prop where
  | str (text : ByteArray) : Becomes (.str text) (.str text)
  | list (old new : Array Value) : Becomes (.list old) (.list new)
  | scope (old new : Bindings) (parent : Option Addr) :
    Becomes (.scope ⟨old, parent⟩) (.scope ⟨new, parent⟩)
  | function (f : Function) : Becomes (.function f) (.function f)
  | failure (f : Failure) : Becomes (.failure f) (.failure f)
  | input (old new : InputStream) : Becomes (.input old) (.input new)
  | output (old new : ByteArray) : Becomes (.output old) (.output new)

namespace Object

theorem Becomes.refl (o : Object) : o.Becomes o := by
  cases o <;> constructor

theorem Becomes.trans {o p q : Object} (h : o.Becomes p) (h' : p.Becomes q) : o.Becomes q := by
  cases h <;> cases h' <;> constructor

theorem becomes_mapItems (f : Array Value → Array Value) (o : Object) :
    o.Becomes (o.mapItems f) := by
  cases o <;> constructor

theorem becomes_mapBindings (f : Bindings → Bindings) (o : Object) :
    o.Becomes (o.mapBindings f) := by
  cases o <;> constructor

theorem becomes_append (bytes : Bytes) (o : Object) : o.Becomes (o.append bytes) := by
  cases o <;> constructor

end Object

namespace Store

variable {A : Set Addr} {st st₁ st' : Store Object}

/-- The second store is well formed and still has every object of the first one at the given
addresses, or what may become of it. -/
structure Lasts (A : Set Addr) (st st' : Store Object) : Prop where
  wellFormed : st'.WellFormed
  becomes : ∀ a ∈ A, ∀ o, st.get? a = some o → ∃ o', st'.get? a = some o' ∧ o.Becomes o'

namespace Lasts

theorem refl (h : st.WellFormed) : st.Lasts A st := ⟨h, fun _ _ o ho => ⟨o, ho, .refl o⟩⟩

theorem trans (h : st.Lasts A st₁) (h' : st₁.Lasts A st') : st.Lasts A st' where
  wellFormed := h'.wellFormed
  becomes a ha o ho := by
    obtain ⟨p, hp, hop⟩ := h.becomes a ha o ho
    obtain ⟨q, hq, hpq⟩ := h'.becomes a ha p hp
    exact ⟨q, hq, hop.trans hpq⟩

/-- Nothing has changed where there was an object. -/
theorem of_kept (h : st'.WellFormed) (hkept : ∀ {a o}, st.get? a = some o → st'.get? a = some o) :
    st.Lasts A st' :=
  ⟨h, fun _ _ o ho => ⟨o, hkept ho, .refl o⟩⟩

theorem insert (h : st.WellFormed) (o : Object) : st.Lasts A (st.insert o) :=
  .of_kept (h.insert o) fun ha => h.get?_insert_of_get? o ha

theorem modify (h : st.WellFormed) {a : Addr} {f : Object → Object}
    (hf : ∀ o, st.get? a = some o → o.Becomes (f o)) :
    st.Lasts A (st.modify a f) where
  wellFormed := h.modify a f
  becomes b _ o ho := by
    rw [get?_modify, ho]
    by_cases hb : b = a
    · rw [if_pos hb]
      exact ⟨f o, rfl, hf o (hb ▸ ho)⟩
    · rw [if_neg hb]
      exact ⟨o, rfl, .refl o⟩

/-- A collection loses none of its roots. -/
theorem collect (h : st.WellFormed) {roots : List Addr} (hroots : ∀ a ∈ A, a ∈ roots) :
    st.Lasts A (st.collect Object.children roots).1 where
  wellFormed := h.collect _ _
  becomes a ha o ho := ⟨o, h.get?_collect.mpr ⟨ho, .root (hroots a ha) ho⟩, .refl o⟩

end Lasts

/-- All copies made so far are lists. -/
def Copied (copies : Copies) (st : Store Object) : Prop :=
  ∀ (i : Nat) (c : Addr), copies[i]? = some c → ∃ items, st.get? c = some (.list items)

theorem Copied.lasts {copies : Copies} (h : st.Copied copies) (hst : st.Lasts .univ st') :
    st'.Copied copies := by
  intro i c hc
  obtain ⟨items, hitems⟩ := h i c hc
  obtain ⟨o, ho, hbecomes⟩ := hst.becomes c trivial _ hitems
  cases hbecomes
  exact ⟨_, ho⟩

theorem makeCopies_lasts {n : Nat} {pending : List Value} {copies copies' : Copies}
    (hw : st.WellFormed) (hc : st.Copied copies)
    (h : makeCopies n pending copies st = some (copies', st')) :
    st.Lasts .univ st' ∧ st'.Copied copies' := by
  induction n generalizing pending copies st with
  | zero =>
    cases h
    exact ⟨.refl hw, hc⟩
  | succ n ih =>
    rw [makeCopies] at h
    split at h
    · cases h
      exact ⟨.refl hw, hc⟩
    · split at h
      · cases h
      · rename_i a _
        split at h
        · have hgrown : st.Lasts .univ (st.insert (.list #[])) := .insert hw _
          have hc' : (st.insert (.list #[])).Copied (copies.insert a.index st.next) := by
            intro i c hi
            obtain ⟨rfl, rfl⟩ | ⟨_, hold⟩ := Copying.getElem?_insert_iff.mp hi
            · exact ⟨#[], hw.get?_insert_next _⟩
            · exact hc.lasts hgrown i c hold
          obtain ⟨hlasts, hcopied⟩ := ih hgrown.wellFormed hc' h
          exact ⟨hgrown.trans hlasts, hcopied⟩
        · cases h

theorem fill_lasts {copies : Copies} {l : List (Nat × Addr)} (hw : st.WellFormed)
    (hl : ∀ p ∈ l, ∃ items, st.get? p.2 = some (.list items)) :
    st.Lasts .univ (l.foldl (fillCopy copies) st) := by
  induction l generalizing st with
  | nil => exact .refl hw
  | cons p l ih =>
    have hfill : st.Lasts .univ (fillCopy copies st p) := by
      unfold fillCopy
      split
      · apply Lasts.modify hw
        intro o ho
        obtain ⟨items, hitems⟩ := hl p (.head _)
        cases ho.symm.trans hitems
        exact .list _ _
      · exact .refl hw
    apply hfill.trans
    apply ih hfill.wellFormed
    intro q hq
    obtain ⟨items, hitems⟩ := hl q (.tail _ hq)
    obtain ⟨o, ho, hbecomes⟩ := hfill.becomes q.2 trivial _ hitems
    cases hbecomes
    exact ⟨_, ho⟩

/-- A deep copy adds lists. -/
theorem deepCopy_lasts {v v' : Value} (hw : st.WellFormed) (h : st.deepCopy v = some (v', st')) :
    st.Lasts .univ st' := by
  unfold deepCopy at h
  split at h
  · cases h
  · rename_i copies st₁ hmake
    cases h
    have hnone : st.Copied ∅ := by
      intro i c hi
      simp at hi
    obtain ⟨hlasts, hcopied⟩ := makeCopies_lasts hw hnone hmake
    apply hlasts.trans
    apply fill_lasts hlasts.wellFormed
    intro p hp
    exact hcopied p.1 p.2 (Std.TreeMap.mem_toList_iff_getElem?_eq_some.mp hp)

end Store

namespace Effect

variable {A : Set Addr} {s s' : Interp}

theorem tidyUp_lasts {roots : List Value} (hw : s.store.WellFormed)
    (h : s.depth = 0 → ∀ a ∈ A, .ref a ∈ roots) :
    s.store.Lasts A (tidyUp roots s).store := by
  unfold tidyUp
  split
  · rename_i hdue
    apply Store.Lasts.collect hw
    intro a ha
    exact .tail _ (List.mem_filterMap.mpr ⟨.ref a, h hdue.1 a ha, rfl⟩)
  · exact .refl hw

theorem readFrom_lasts {source : Source} {mark : Bookmark} {r : Readout × Bookmark × Source}
    (hw : s.store.WellFormed) (h : readFrom source mark s = some (r, s')) :
    s.store.Lasts A s'.store := by
  have stored {t : Interp} (ht : t.store.WellFormed) (reading : Reading) :
      t.store.Lasts A (readout reading t).2.store := by
    have hgrows := (Interp.readout_reads ht reading).1
    exact .of_kept hgrows.wellFormed hgrows.kept
  cases source with
  | own stream =>
    cases h
    exact stored hw _
  | object a =>
    rw [readFrom] at h
    split at h
    · cases h
    · rename_i stream hget
      generalize stream.readForm s.disk s.config.maxDepth mark = read at h
      obtain ⟨reading, mark', stream'⟩ := read
      cases h
      have hset : s.store.Lasts A (s.store.set a (.input stream')) := by
        apply Store.Lasts.modify hw
        intro o ho
        cases ho.symm.trans hget
        exact .input stream stream'
      have hstored :
          Store.Lasts A _
              (readout reading { s with store := s.store.set a (.input stream') }).2.store :=
        stored hset.wellFormed reading
      exact hset.trans hstored
    · cases h
      exact .refl hw

/-- An effect keeps what there is; one that asks for a collection outside all evaluation has to
spare it. -/
theorem perform_lasts {e : Effect} {r : e.Reply} (hw : s.store.WellFormed)
    (he : s.depth = 0 → e.Spares A) (h : e.perform s = some (r, s')) :
    s.store.Lasts A s'.store := by
  cases e with
  | intern | gensym | print | echoes | clock | openFile | save =>
    cases h
    exact .refl hw
  | overrun => cases h
  | fetch | lookup | spelling | sameText | position | render =>
    rw [perform] at h
    split at h <;> cases h
    exact .refl hw
  | alloc o =>
    cases h
    exact .insert hw o
  | tidy roots =>
    cases h
    exact tidyUp_lasts hw he
  | copy v =>
    rw [perform] at h
    split at h
    · cases h
    · rename_i hcopy
      cases h
      have hlasts := Store.deepCopy_lasts hw hcopy
      exact ⟨hlasts.wellFormed, fun a _ => hlasts.becomes a trivial⟩
  | updateItems a f =>
    rw [perform] at h
    split at h <;> cases h
    exact .modify hw fun o _ => o.becomes_mapItems f
  | define =>
    rw [perform_define] at h
    split at h <;> cases h
    exact .modify hw fun o _ => o.becomes_mapBindings _
  | restore =>
    rw [perform] at h
    split at h <;> cases h
    exact .modify hw fun o _ => o.becomes_mapBindings _
  | append a bytes =>
    rw [perform] at h
    split at h <;> cases h
    exact .modify hw fun o _ => o.becomes_append bytes
  | assign =>
    obtain rfl | ⟨o, rfl⟩ := perform_assign h
    · exact .refl hw
    · exact .modify hw fun o _ => o.becomes_mapBindings _
  | readByte | readLine =>
    rw [perform] at h
    split at h
    · cases h
    · rename_i stream hget
      cases h
      apply Store.Lasts.modify hw
      intro o ho
      cases ho.symm.trans hget
      exact .input _ _
    · cases h
      exact .refl hw
  | readForm source mark => exact readFrom_lasts hw h

end Effect

/-- What an evaluation spares outside all calls lasts through all of it. -/
theorem Eval.Ends.lasts {α : Type} {A : Set Addr} {V : α → Prop} {x : Eval α} {s s' : Interp}
    {r : Except Addr α} (h : x.Ends s r s') (hw : s.store.WellFormed)
    (hx : s.depth = 0 → x.Spares A V) :
    s.store.Lasts A s'.store ∧ (s.depth = 0 → ∀ a, r = .ok a → V a) := by
  -- in each case a part ends at the depth where it began, and then what follows it
  have chain {β : Type} {W : β → Prop} {y : Eval β} {s s₁ s' : Interp} {t : Except Addr β}
    (hpart : s.store.Lasts A s₁.store)
      (hdepth : s₁.depth = s.depth) (hy : s.depth = 0 → y.Spares A W)
      (ih : s₁.store.WellFormed → (s₁.depth = 0 → y.Spares A W) →
        s₁.store.Lasts A s'.store ∧ (s₁.depth = 0 → ∀ b, t = .ok b → W b)) :
      s.store.Lasts A s'.store ∧ (s.depth = 0 → ∀ b, t = .ok b → W b) := by
    rw [hdepth] at ih
    obtain ⟨hrest, hvalue⟩ := ih hpart.wellFormed hy
    exact ⟨hpart.trans hrest, hvalue⟩
  induction h with
  | done a s =>
    refine ⟨.refl hw, ?_⟩
    intro htop b hb
    cases hb
    cases hx htop with
    | done ha => exact ha
  | fail e s => exact ⟨.refl hw, fun _ b hb => by cases hb⟩
  | effect he _ ih =>
    have hpart := Effect.perform_lasts hw (fun htop => (hx htop).of_effect.1) he
    exact chain hpart (Effect.perform_depth he) (fun htop => (hx htop).of_effect.2 _) ih
  | @call _ _ _ s s₁ _ _ _ _ hbody _ ihbody ih =>
    -- inside the call no collection is possible
    have hpart := (ihbody (V := fun _ => True) hw fun htop => absurd htop (Nat.succ_ne_zero _)).1
    have hup : s.store.Lasts A ({ s₁ with depth := s₁.depth - 1 } : Interp).store := hpart
    exact chain hup (by simp [hbody.depth_eq]) (fun htop => (hx htop).of_call _) ih
  | @refused _ c _ _ _ _ _ _ _ hrefusal _ ihrefusal ih =>
    have hpart := (ihrefusal (V := fun _ => True) hw fun _ => .raise c.scope .tooDeep c.subject).1
    exact chain hpart hrefusal.depth_eq (fun htop => (hx htop).of_call _) ih
  | @native _ _ _ _ _ s _ _ _ _ hn _ ihn ih =>
    have hnested : s.depth ≠ 0 := by
      intro htop
      cases hx htop
    have hpart := (ihn (V := fun _ => True) hw fun htop => absurd htop hnested).1
    exact chain hpart hn.depth_eq (fun htop => absurd htop hnested) ih
  | again hturn _ ihturn ih =>
    obtain ⟨hpart, hvalue⟩ := ihturn hw fun htop => .turn (hx htop).of_loop.1
    exact chain hpart hturn.depth_eq (fun htop => .loop (hvalue htop _ rfl) (hx htop).of_loop.2) ih
  | finished hturn _ ihturn ih =>
    have hpart := (ihturn hw fun htop => .turn (hx htop).of_loop.1).1
    exact chain hpart hturn.depth_eq (fun htop => (hx htop).of_loop.2 _) ih
  | broken hturn _ ihturn ih =>
    have hpart := (ihturn hw fun htop => .turn (hx htop).of_loop.1).1
    exact chain hpart hturn.depth_eq (fun htop => (hx htop).of_loop.2 _) ih

/-- Whatever is evaluated, inside a call or by a host that does not ask for reports, every object
stays where it is and of its kind, whether evaluation fails or not. Strings, functions and errors
stay as they are, and scopes keep their parents. -/
theorem Interp.evaluation_loses_nothing {s : Interp} (h : s.store.WellFormed) :
    (∀ op : Operation, op.reports = false ∨ s.depth ≠ 0 →
      ∀ fuel r s', op.run fuel s = .finished r s' →
      ∀ a o, s.store.get? a = some o → ∃ o', s'.store.get? a = some o' ∧ o.Becomes o') ∧
    ∀ code name fuel r s', s.evalText fuel code name = .finished r s' →
      ∀ a o, s.store.get? a = some o → ∃ o', s'.store.get? a = some o' ∧ o.Becomes o' := by
  have operations (op : Operation) (hop : op.reports = false ∨ s.depth ≠ 0) (fuel : Nat)
    (r : Except Addr Value) (s' : Interp)
      (hrun : op.run fuel s = .finished r s') (a : Addr) (o : Object)
          (ho : s.store.get? a = some o) :
      ∃ o', s'.store.get? a = some o' ∧ o.Becomes o' := by
    rw [op.run_eq] at hrun
    have hends := Interp.run_finished_iff.mp ⟨fuel, hrun⟩
    have hspares (htop : s.depth = 0) : op.evaluation.Spares .univ fun _ => True := by
      apply op.spares
      intro hreports
      obtain hsilent | hnested := hop
      · rw [hsilent] at hreports
        cases hreports
      · exact absurd htop hnested
    exact (hends.lasts h hspares).1.becomes a trivial o ho
  refine ⟨operations, ?_⟩
  intro code name fuel r s' hrun
  exact operations (.session s.root (.own (.memory code)) name false) (.inl rfl) fuel r s' hrun

/-- A string that nothing refers to lasts while a file is loaded with a collection due after each of
its forms. -/
theorem Interp.evaluation_loses_nothing_load :
    let disk := Disk.ofFiles [(Bytes.ofString "a", Bytes.ofString "\"b\" \"c\" )")]
    let s :=
      (((Interp.bare ⟨200, 0, false⟩ disk 0).alloc (.function (.native (.primitive .load)))).2.alloc
      (.str (Bytes.ofString "a").toByteArray)).2
    s.store.WellFormed ∧ ∃ r s', (Operation.apply ⟨0⟩ (.ref ⟨1⟩) [.ref ⟨2⟩]).run 100 s =
      .finished r s' ∧
      s'.store.get? ⟨2⟩ = some (.str (Bytes.ofString "a").toByteArray) := by
  intro disk s
  have hw : s.store.WellFormed := ((Store.WellFormed.empty.insert _).insert _).insert _
  have hfinished : ((Operation.apply ⟨0⟩ (.ref ⟨1⟩) [.ref ⟨2⟩]).run 100 s).isFinished = true := by
    decide +kernel
  obtain ⟨r, s', hrun⟩ := Outcome.exists_of_isFinished hfinished
  have hpath : s.store.get? ⟨2⟩ = some (.str (Bytes.ofString "a").toByteArray) := by
    subst s disk
    rfl
  obtain ⟨o, ho, hbecomes⟩ := (evaluation_loses_nothing hw).1 _ (.inl rfl) 100 r s' hrun ⟨2⟩ _ hpath
  cases hbecomes
  exact ⟨hw, r, s', hrun, ho⟩

end HeapLisp
