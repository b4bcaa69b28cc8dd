import HeapLisp.Proofs.Host.Soundness
import HeapLisp.Proofs.Parameters.Rebinding
import HeapLisp.Proofs.Primitives.Looking
import HeapLisp.Proofs.Scope.Updates
import HeapLisp.Proofs.Store.Bins

namespace HeapLisp

/-- Whether a run ended with an error. -/
def Outcome.failed : Outcome → Bool
  | .finished (.error _) _ => true
  | _ => false

theorem Outcome.exists_of_failed {o : Outcome} (h : o.failed = true) :
    ∃ e s, o = .finished (.error e) s := by
  cases o with
  | finished r s =>
    cases r with
    | ok v => cases h
    | error e => exact ⟨e, s, rfl⟩
  | dangling | outOfFuel => cases h

namespace Store

variable {st st' : Store Object} {x y : Symbol} {v : Value} {a b o : Addr}

theorem ownerWithin_succ (st : Store Object) (x : Symbol) (n : Nat) (a : Addr) :
    st.ownerWithin x (n + 1) a = (st.parent? a).bind fun next =>
      if (st.binding x a).isSome then some (some a) else next.elim (some none)
        (st.ownerWithin x n) := by
  rw [ownerWithin, parent?, binding, local?]
  cases st.get? a with
  | none => rfl
  | some o =>
    cases o with
    | scope scope =>
      obtain ⟨bindings, parent⟩ := scope
      cases parent <;> rfl
    | str | list | function | failure | input | output => rfl

/-- The search for a symbol sees who is around whom and which scopes bind the symbol, and nothing
else. -/
theorem ownerWithin_congr (hparent : ∀ b, st'.parent? b = st.parent? b)
    (hbinding : ∀ b, (st'.binding x b).isSome = (st.binding x b).isSome) (n : Nat) (a : Addr) :
    st'.ownerWithin x n a = st.ownerWithin x n a := by
  induction n generalizing a with
  | zero => rfl
  | succ n ih =>
    have hrest : st'.ownerWithin x n = st.ownerWithin x n := funext ih
    rw [ownerWithin_succ, ownerWithin_succ, hparent, hbinding, hrest]

theorem binding_of_ownerWithin {n : Nat} (h : st.ownerWithin x n a = some (some o)) :
    (st.binding x o).isSome := by
  induction n generalizing a with
  | zero => cases h
  | succ n ih =>
    rw [ownerWithin_succ] at h
    obtain ⟨next, _, h⟩ := Option.bind_eq_some_iff.mp h
    split at h
    · cases h
      assumption
    · cases next with
      | none => cases h
      | some parent => exact ih h

/-- Assigning a symbol where it is bound changes the owner of none. -/
theorem owner?_insert_of_owner (h : st.owner? a x = some (some o)) (v : Value) (b : Addr)
    (y : Symbol) :
    (st.modifyBindings o (·.insert x v)).owner? b y = st.owner? b y := by
  have hbound := binding_of_ownerWithin h
  obtain ⟨scope, ho⟩ := exists_scope_of_binding hbound
  rw [owner?, owner?, modifyBindings, capacity_modify]
  exact ownerWithin_congr (st.parent?_modifyBindings o _) (isSome_binding_insert ho hbound y) _ b

/-- The value is a list. -/
def IsList (st : Store Object) (v : Value) : Prop :=
  ∃ a items, v = .ref a ∧ st.get? a = some (.list items)

/-- The value is a scope. -/
def IsScope (st : Store Object) (v : Value) : Prop :=
  ∃ a scope, v = .ref a ∧ st.get? a = some (.scope scope)

theorem isList_modify {f : Array Value → Array Value} : (st.modify b (Object.mapItems f)).IsList v ↔
    st.IsList v := by
  refine exists_congr fun a => ?_
  have hlist : (∃ items, (st.modify b (Object.mapItems f)).get? a = some (.list items)) ↔
      ∃ items, st.get? a = some (.list items) := by
    by_cases hab : a = b
    · subst hab
      cases ho : st.get? a with
      | none => simp [ho]
      | some o => cases o <;> simp [ho, Object.mapItems]
    · simp [hab]
  rw [exists_and_left, exists_and_left, hlist]

end Store

namespace Eval

variable {s s' : Interp} {scope : Addr} {v : Value} {r : Except Addr Addr}

theorem Ends.error_of_raise {α : Type} {fault : Fault} {r : Except Addr α}
    (h : (raise scope fault v).Ends s r s') :
    ∃ e, r = .error e := by
  obtain ⟨_, hr, _⟩ := h.of_raise
  exact ⟨_, hr⟩

theorem Ends.of_listRefArg (h : (listRefArg scope v).Ends s r s') :
    (∃ a items, r = .ok a ∧ s' = s ∧ v = .ref a ∧ s.store.get? a = some (.list items)) ∨
      (∃ e, r = .error e) ∧ ¬s.store.IsList v := by
  cases v with
  | ref a =>
    obtain ⟨o, ho, h⟩ := ends_fetch_bind.mp h
    split at h
    · cases h
      exact .inl ⟨a, _, rfl, rfl, rfl, ho⟩
    · rename_i hnot
      refine .inr ⟨h.error_of_raise, ?_⟩
      rintro ⟨b, items, hb, hlist⟩
      cases hb
      cases ho.symm.trans hlist
      exact hnot items rfl
  | num | sym =>
    refine .inr ⟨h.error_of_raise, ?_⟩
    rintro ⟨b, items, hb, _⟩
    cases hb

theorem Ends.of_scopeArg (h : (scopeArg scope v).Ends s r s') :
    (∃ a found, r = .ok a ∧ s' = s ∧ v = .ref a ∧ s.store.get? a = some (.scope found)) ∨
      (∃ e, r = .error e) ∧ ¬s.store.IsScope v := by
  cases v with
  | ref a =>
    obtain ⟨o, ho, h⟩ := ends_fetch_bind.mp h
    split at h
    · cases h
      exact .inl ⟨a, _, rfl, rfl, rfl, ho⟩
    · rename_i hnot
      refine .inr ⟨h.error_of_raise, ?_⟩
      rintro ⟨b, found, hb, hscope⟩
      cases hb
      cases ho.symm.trans hscope
      exact hnot found rfl
  | num | sym =>
    refine .inr ⟨h.error_of_raise, ?_⟩
    rintro ⟨b, found, hb, _⟩
    cases hb

end Eval

namespace Interp

variable {s s₁ s' : Interp} {scope target e : Addr} {x : Symbol} {v : Value}

/-- What an object is once lists are cleared. -/
def cleared (lists : List Value) (a : Addr) (o : Object) : Object :=
  if .ref a ∈ lists then .list #[] else o

theorem Alters.clear {a : Addr} {items : Array Value} (hs : s.store.WellFormed)
    (ha : s.store.get? a = some (.list items)) :
    s.Alters (cleared [.ref a])
      { s with store := s.store.modify a (Object.mapItems fun _ => #[]) } := by
  refine (Alters.modify hs a (Object.mapItems fun _ => #[])).congr fun {b o} hb => ?_
  by_cases hba : b = a
  · cases hba
    cases ha.symm.trans hb
    simp [cleared, Object.mapItems]
  · simp [cleared, hba]

theorem clearAll_stops {last : Value} {vs : List Value} (hs : s.store.WellFormed)
    (h : (Eval.clearAll scope last vs).Ends s (.error e) s') :
    ∃ before bad after, vs = before ++ bad :: after ∧ (∀ v ∈ before, s.store.IsList v) ∧
      ¬s.store.IsList bad ∧
      s.Alters (cleared before) s' := by
  induction vs generalizing s last with
  | nil => cases h
  | cons v vs ih =>
    obtain ⟨a, s₁, harg, hgo⟩ | ⟨e, harg, _⟩ := Eval.ends_bind.mp h
    · obtain ⟨b, items, hb, rfl, rfl, ha⟩ | ⟨⟨e, he⟩, _⟩ := harg.of_listRefArg
      · cases hb
        obtain ⟨_, s₂, hupdate, hgo⟩ := Eval.ends_perform_bind.mp hgo
        rw [Effect.perform, if_pos (Store.contains_iff.mpr ⟨_, ha⟩)] at hupdate
        cases hupdate
        have hclear := Alters.clear hs ha
        obtain ⟨before, bad, after, rfl, hbefore, hbad, hrest⟩ := ih hclear.wellFormed hgo
        refine ⟨.ref a :: before, bad, after, rfl, ?_, fun hlist =>
          hbad (Store.isList_modify.mpr hlist), ?_⟩
        · intro v hv
          cases hv with
          | head => exact ⟨a, items, rfl, ha⟩
          | tail _ hv => exact Store.isList_modify.mp (hbefore v hv)
        · refine (hclear.trans hrest).congr fun {b o} _ => ?_
          by_cases hba : b = a
          · simp [cleared, hba]
          · simp [cleared, hba]
      · cases he
    · obtain ⟨b, items, hb, _⟩ | ⟨_, hbad⟩ := harg.of_listRefArg
      · cases hb
      · refine ⟨[], v, vs, rfl, fun v hv => ?_, hbad, (Eval.Looks.listRefArg scope v hs harg).congr
          fun _ => ?_⟩
        · cases hv
        · simp [cleared]

/-- What an object is once symbols are bound to values, each of them at its place. -/
def rebound (place : Symbol → Option Addr) (bs : List (Symbol × Value)) (a : Addr)
    (o : Object) : Object :=
  o.mapBindings (·.insertAll (bs.filter fun p => place p.1 = some a))

variable {place : Symbol → Option Addr} {bs : List (Symbol × Value)}

theorem rebound_nil (place : Symbol → Option Addr) (a : Addr) (o : Object) :
    rebound place [] a o = o := by
  cases o <;> rfl

theorem rebound_rebound (p : Symbol × Value) (a : Addr) (o : Object) :
    rebound place bs a (rebound place [p] a o) = rebound place (p :: bs) a o := by
  cases o with
  | scope scope =>
    by_cases hp : place p.1 = some a
    · simp [rebound, Object.mapBindings, hp, Bindings.insertAll]
    · simp [rebound, Object.mapBindings, hp, Bindings.insertAll]
  | str | list | function | failure | input | output => rfl

theorem Alters.rebind {b : Addr} (hs : s.store.WellFormed) (hplace : place x = some b) (v : Value) :
    s.Alters (rebound place [(x, v)])
      { s with store := s.store.modifyBindings b (·.insert x v) } := by
  refine (Alters.modify hs b (Object.mapBindings (·.insert x v))).congr fun {a o} _ => ?_
  by_cases hab : a = b
  · simp [rebound, hplace, hab, Bindings.insertAll]
  · have hne : place x ≠ some a := by simp [hplace, Ne.symm hab]
    simp only [hab, if_false]
    cases o <;> simp [rebound, hne, Object.mapBindings, Bindings.insertAll]

/-- Pairs are performed in turn up to one whose first value is no symbol that has a place; `before`
are those performed. -/
inductive Refused (place : Symbol → Option Addr) :
    List (Value × Value) → (before : List (Symbol × Value)) → Prop where
  | here {bad v : Value} {after : List (Value × Value)} (h : ∀ x, bad = .sym x → place x = none) :
    Refused place ((bad, v) :: after) []
  | next {x : Symbol} {v : Value} {pairs : List (Value × Value)} {before : List (Symbol × Value)}
    (hx : (place x).isSome)
    (h : Refused place pairs before) : Refused place ((.sym x, v) :: pairs) ((x, v) :: before)

/-- From one interpreter to the other the pairs before a refused one were performed, and nothing
else was changed. -/
def PerformsUntil (place : Symbol → Option Addr) (pairs : List (Value × Value))
    (s s' : Interp) : Prop :=
  ∃ before, Refused place pairs before ∧ s.Alters (rebound place before) s'

variable {pairs : List (Value × Value)}

theorem PerformsUntil.here {bad : Value} (hbad : ∀ x, bad = .sym x → place x = none)
    (h : s.OnlyAdds s') :
    s.PerformsUntil place ((bad, v) :: pairs) s' :=
  ⟨[], .here hbad, h.congr fun _ => (rebound_nil place _ _).symm⟩

theorem PerformsUntil.next (h : s₁.PerformsUntil place pairs s')
    (hx : s.Alters (rebound place [(x, v)]) s₁) (hplace : (place x).isSome) :
    s.PerformsUntil place ((.sym x, v) :: pairs) s' := by
  obtain ⟨before, hrefused, hbefore⟩ := h
  exact ⟨(x, v) :: before, .next hplace hrefused, (hx.trans hbefore).congr fun _ =>
    rebound_rebound _ _ _⟩

theorem onlyAdds_of_raise_bind {α β : Type} {fault : Fault} {f : α → Eval β} {r : Except Addr β}
    (hs : s.store.WellFormed) (h : ((Eval.raise scope fault v : Eval α) >>= f).Ends s r s') :
    s.OnlyAdds s' := by
  obtain ⟨a, s₁, hraise, _⟩ | ⟨e, hraise, _⟩ := Eval.ends_bind.mp h
  · obtain ⟨_, hr⟩ := hraise.error_of_raise
    cases hr
  · exact Eval.Looks.raise scope fault v hs hraise

theorem defineIn_stops {last : Value} (hs : s.store.WellFormed)
    (h : (Eval.defineIn scope target last pairs).Ends s (.error e) s') :
    s.PerformsUntil (fun _ => some target) pairs s' := by
  induction pairs generalizing s last with
  | nil => cases h
  | cons p pairs ih =>
    obtain ⟨name, v⟩ := p
    cases name with
    | sym x =>
      obtain ⟨_, s₁, hdefine, hgo⟩ := Eval.ends_perform_bind.mp h
      rw [Effect.perform_define] at hdefine
      split at hdefine <;> cases hdefine
      have hrebind : s.Alters (rebound (fun _ => some target) [(x, v)]) _ := .rebind hs rfl v
      exact (ih hrebind.wellFormed hgo).next hrebind rfl
    | num | ref =>
      refine .here (fun x hx => ?_) (onlyAdds_of_raise_bind hs h)
      cases hx

theorem assignIn_stops {last : Value} (hs : s.store.WellFormed)
    (hplace : ∀ x, (s.store.owner? target x).join = place x)
    (h : (Eval.assignIn scope target last pairs).Ends s (.error e) s') :
    s.PerformsUntil place pairs s' := by
  induction pairs generalizing s last with
  | nil => cases h
  | cons p pairs ih =>
    obtain ⟨name, v⟩ := p
    cases name with
    | sym x =>
      obtain ⟨found, s₁, hassign, hgo⟩ := Eval.ends_perform_bind.mp h
      have hx := hplace x
      rw [Effect.perform, Store.assign] at hassign
      rcases howner : s.store.owner? target x with _ | _ | o
      · rw [howner] at hassign
        cases hassign
      · rw [howner] at hassign hx
        cases hassign
        refine .here (fun y hy => ?_) (Eval.Looks.raise scope _ _ hs hgo)
        cases hy
        exact hx.symm
      · rw [howner] at hassign hx
        cases hassign
        have hrebind := Alters.rebind hs hx.symm v
        refine (ih hrebind.wellFormed (fun y => ?_) hgo).next hrebind (hx ▸ rfl)
        rw [Store.owner?_insert_of_owner howner, hplace]
    | num | ref =>
      refine .here (fun x hx => ?_) (onlyAdds_of_raise_bind hs h)
      cases hx

/-- Clearing fails without arguments, and at the first one that is no list. With what has become of
the objects by then. -/
inductive ClearingStops (st : Store Object) : List Value → (Addr → Object → Object) → Prop where
  | count : ClearingStops st [] fun _ o => o
  | argument {before after : List Value} {bad : Value} (hbefore : ∀ v ∈ before, st.IsList v)
    (hbad : ¬st.IsList bad) :
    ClearingStops st (before ++ bad :: after) (cleared before)

/-- Performing pairs fails without any, if there is half a pair, if there is no scope to start from,
and at the first pair that is refused. With what has become of the objects by then. -/
inductive PairingStops (st : Store Object) (place : Addr → Symbol → Option Addr) :
    List Value → (Addr → Object → Object) → Prop where
  | count {args : List Value} (h : args.length < 3 ∨ args.length % 2 = 0) :
    PairingStops st place args fun _ o =>
    o
  | target {v : Value} {rest : List Value} (h : ¬st.IsScope v) :
    PairingStops st place (v :: rest) fun _ o =>
    o
  | pair {target : Addr} {rest : List Value} {pairs : List (Value × Value)}
    {before : List (Symbol × Value)} (htarget : st.IsScope (.ref target))
    (hrest : Eval.pairs? rest = some pairs) (h : Refused (place target) pairs before) :
    PairingStops st place (.ref target :: rest) (rebound (place target) before)

theorem looks_inPairs (args : List Value) : (Eval.inPairs args).Looks := by
  unfold Eval.inPairs
  split
  · exact .pure _
  · exact .overrun

theorem looks_scopeAndPairs (scope : Addr) (args : List Value) :
    (Eval.scopeAndPairs scope args).Looks := by
  unfold Eval.scopeAndPairs
  split
  · exact .refuseArgs scope _
  · cases args with
    | nil => exact .overrun
    | cons v rest =>
      exact (Eval.Looks.scopeArg scope v).bind fun target => (looks_inPairs rest).bind
        fun _ => .pure _

theorem ends_inPairs {args : List Value} {r : Except Addr (List (Value × Value))}
    (h : (Eval.inPairs args).Ends s r s') :
    ∃ pairs, Eval.pairs? args = some pairs ∧ r = .ok pairs ∧ s' = s := by
  unfold Eval.inPairs at h
  split at h
  · cases h
    exact ⟨_, ‹_›, rfl, rfl⟩
  · obtain ⟨_, _, hover, _⟩ := Eval.ends_perform_bind.mp h
    cases hover

theorem ends_of_scopeAndPairs {args : List Value} {r : Except Addr (Addr × List (Value × Value))}
    (places : Addr → Symbol → Option Addr) (h : (Eval.scopeAndPairs scope args).Ends s r s') :
    (∃ target rest pairs, r = .ok (target, pairs) ∧ s' = s ∧ args = .ref target :: rest ∧
        s.store.IsScope (.ref target) ∧ Eval.pairs? rest = some pairs) ∨
      (∃ e, r = .error e) ∧ PairingStops s.store places args fun _ o => o := by
  unfold Eval.scopeAndPairs at h
  split at h
  · rename_i hcount
    obtain ⟨_, s₁, _, hraise⟩ := Eval.ends_perform_bind.mp h
    exact .inr ⟨hraise.error_of_raise, .count hcount⟩
  · cases args with
    | nil =>
      obtain ⟨_, _, hover, _⟩ := Eval.ends_perform_bind.mp h
      cases hover
    | cons v rest =>
      obtain ⟨a, s₁, harg, hrest⟩ | ⟨e, harg, hr⟩ := Eval.ends_bind.mp h
      · obtain ⟨b, found, hb, rfl, rfl, hscope⟩ | ⟨⟨e, he⟩, _⟩ := harg.of_scopeArg
        · cases hb
          obtain ⟨ps, s₂, hpairs, hpure⟩ | ⟨e, hpairs, _⟩ := Eval.ends_bind.mp hrest
          · obtain ⟨pairs, hsome, hps, rfl⟩ := ends_inPairs hpairs
            cases hps
            cases hpure
            exact .inl ⟨a, rest, _, rfl, rfl, rfl, ⟨a, found, rfl, hscope⟩, hsome⟩
          · obtain ⟨_, _, he, _⟩ := ends_inPairs hpairs
            cases he
        · cases he
      · obtain ⟨b, _, hb, _⟩ | ⟨_, hscope⟩ := harg.of_scopeArg
        · cases hb
        · exact .inr ⟨⟨e, hr⟩, .target hscope⟩

/-- The pairs that were performed are those before a refused one, unless it did not come to that. -/
theorem pairing_stops {args : List Value} {k : Addr × List (Value × Value) → Eval Value}
    {places : Addr → Symbol → Option Addr} (hs : s.store.WellFormed)
    (hk : ∀ {target pairs}, (k (target, pairs)).Ends s (.error e) s' →
      s.PerformsUntil (places target) pairs s')
    (h : (Eval.scopeAndPairs scope args >>= k).Ends s (.error e) s') :
    ∃ f, PairingStops s.store places args f ∧ s.Alters f s' := by
  obtain ⟨p, s₁, harg, hgo⟩ | ⟨e, harg, _⟩ := Eval.ends_bind.mp h
  · obtain ⟨target, rest, pairs, hp, rfl, rfl, htarget, hrest⟩ | ⟨⟨e, he⟩, _⟩ :=
      ends_of_scopeAndPairs places harg
    · cases hp
      obtain ⟨before, hrefused, hbefore⟩ := hk hgo
      exact ⟨_, .pair htarget hrest hrefused, hbefore⟩
    · cases he
  · obtain ⟨_, _, _, hr, _⟩ | ⟨_, hstops⟩ := ends_of_scopeAndPairs places harg
    · cases hr
    · exact ⟨_, hstops, looks_scopeAndPairs scope args hs harg⟩

theorem clearing_stops {args : List Value} (hs : s.store.WellFormed)
    (h : (Eval.runPrimitive scope .clear args).Ends s (.error e) s') :
    ∃ f, ClearingStops s.store args f ∧ s.Alters f s' := by
  cases args with
  | nil => exact ⟨_, .count, Eval.Looks.refuseArgs scope [] hs h⟩
  | cons list lists =>
    obtain ⟨before, bad, after, hargs, hbefore, hbad, hcleared⟩ := clearAll_stops hs h
    rw [hargs]
    exact ⟨_, .argument hbefore hbad, hcleared⟩

/-- What a primitive leaves behind that fails. Definitions are made in the scope that is the first
argument, and assignments where the symbol is bound, seen from there. -/
theorem failed_primitive_leaves {fuel : Nat} {p : Primitive} {args : List Value}
    (hs : s.store.WellFormed)
    (h : s.run fuel (Eval.runPrimitive scope p args) = .finished (.error e) s') :
    (p.checksFirst = true → s.OnlyAdds s') ∧
    (p = .clear → ∃ f, ClearingStops s.store args f ∧ s.Alters f s') ∧
    (p = .define → ∃ f, PairingStops s.store (fun target _ => some target) args f ∧ s.Alters f s') ∧
    (p = .assign →
      ∃ f, PairingStops s.store (fun target x => (s.store.owner? target x).join) args f ∧
        s.Alters f s') := by
  have hends := run_finished_iff.mp ⟨fuel, h⟩
  refine ⟨fun hp => Eval.runPrimitive_checksFirst hp scope args hs hends, ?_, ?_, ?_⟩
  · rintro rfl
    exact clearing_stops hs hends
  · rintro rfl
    exact pairing_stops hs (defineIn_stops hs) hends
  · rintro rfl
    exact pairing_stops hs (assignIn_stops hs fun _ => rfl) hends

/-- Clearing meets a number after a list that it is given twice; the second symbol of an assignment
is bound nowhere; a list shall take up the members of a number. -/
theorem failed_primitive_leaves_halfway :
    let s :=
      (((bare ⟨1, 65536, false⟩ .empty 0).alloc (.list #[.num 1])).2.alloc
        (.list #[.num 2])).2.defineGlobal .t .nil
    s.store.WellFormed ∧
    (∃ fuel e s' f,
      s.run fuel (Eval.runPrimitive ⟨0⟩ .clear [.ref ⟨1⟩, .ref ⟨1⟩, .num 5, .ref ⟨2⟩]) =
        .finished (.error e) s' ∧
      ClearingStops s.store [.ref ⟨1⟩, .ref ⟨1⟩, .num 5, .ref ⟨2⟩] f ∧ s.Alters f s') ∧
    (∃ fuel e s' f,
      s.run fuel (Eval.runPrimitive ⟨0⟩ .assign [.ref ⟨0⟩, .sym .t, .num 7, .sym .rest, .num 8]) =
        .finished (.error e) s' ∧
      PairingStops s.store (fun target x => (s.store.owner? target x).join)
        [.ref ⟨0⟩, .sym .t, .num 7, .sym .rest, .num 8] f ∧ s.Alters f s') ∧
    ∃ fuel e s', s.run fuel (Eval.runPrimitive ⟨0⟩ .merge [.ref ⟨1⟩, .num 5]) =
      .finished (.error e) s' ∧ s.OnlyAdds s' := by
  intro s
  have hs : s.store.WellFormed := (((Store.WellFormed.empty.insert _).insert _).insert _).modify _ _
  have hclear :
      (s.run 30 (Eval.runPrimitive ⟨0⟩ .clear [.ref ⟨1⟩, .ref ⟨1⟩, .num 5, .ref ⟨2⟩])).failed =
          true := by
    decide +kernel
  have hassign :
      (s.run 30
          (Eval.runPrimitive ⟨0⟩ .assign [.ref ⟨0⟩, .sym .t, .num 7, .sym .rest, .num 8])).failed =
              true := by
    decide +kernel
  have hmerge : (s.run 30 (Eval.runPrimitive ⟨0⟩ .merge [.ref ⟨1⟩, .num 5])).failed = true := by
    decide +kernel
  obtain ⟨e₁, s₁, hclear⟩ := Outcome.exists_of_failed hclear
  obtain ⟨e₂, s₂, hassign⟩ := Outcome.exists_of_failed hassign
  obtain ⟨e₃, s₃, hmerge⟩ := Outcome.exists_of_failed hmerge
  obtain ⟨f, hstops, hcleared⟩ := (failed_primitive_leaves hs hclear).2.1 rfl
  obtain ⟨g, hstops', hassigned⟩ := (failed_primitive_leaves hs hassign).2.2.2 rfl
  have hadds := (failed_primitive_leaves hs hmerge).1 rfl
  exact ⟨hs, ⟨30, e₁, s₁, f, hclear, hstops, hcleared⟩,
    ⟨30, e₂, s₂, g, hassign, hstops', hassigned⟩, 30, e₃, s₃, hmerge, hadds⟩

end Interp

end HeapLisp
