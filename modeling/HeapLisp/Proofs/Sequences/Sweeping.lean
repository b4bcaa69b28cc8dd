import HeapLisp.Proofs.Machine.Lasting
import HeapLisp.Proofs.Sequences.Elements

namespace HeapLisp

variable {s s₁ s' : Interp} {scope : Addr} {f v last : Value} {mode : Option Value}
  {seqs : List SeqRef} {ref : SeqRef} {i : Nat} {indices rest : List Nat}
    {results : List (Nat × Value)}

namespace Interp

/-- Binds the underscore to an index. -/
def bindIndex (s : Interp) (scope : Addr) (i : Nat) : Interp :=
  { s with store := s.store.modifyBindings scope (·.insert .underscore (.ofNat i)) }

theorem seqLength_bindIndex (s : Interp) (scope : Addr) (i : Nat) (ref : SeqRef) :
    (s.bindIndex scope i).seqLength ref = s.seqLength ref := by
  have hget (a : Addr) : (s.bindIndex scope i).store.get? a =
      if a = scope then (s.store.get? a).map (Object.mapBindings (·.insert .underscore (.ofNat i)))
          else s.store.get? a :=
    Store.get?_modifyBindings ..
  cases ref with
  | list a | str a =>
    rw [seqLength, seqLength, hget]
    -- Only a scope has bindings, and it has no length.
    by_cases ha : a = scope
    · rw [if_pos ha]
      cases s.store.get? a with
      | none => rfl
      | some o => cases o <;> rfl
    · rw [if_neg ha]
  | sym x => rfl

/-- The scope is there, in a well-formed store. -/
structure Lives (scope : Addr) (s : Interp) : Prop where
  wellFormed : s.store.WellFormed
  live : s.store.contains scope = true

theorem Lives.of_lasts (h : s.Lives scope) (hs : s.store.Lasts .univ s'.store) :
    s'.Lives scope := by
  obtain ⟨o, ho⟩ := Store.contains_iff.mp h.live
  obtain ⟨o', ho', _⟩ := hs.becomes scope trivial o ho
  exact ⟨hs.wellFormed, Store.contains_iff.mpr ⟨o', ho'⟩⟩

theorem bindIndex_lasts (h : s.store.WellFormed) (scope : Addr) (i : Nat) :
    s.store.Lasts .univ (s.bindIndex scope i).store :=
  .modify h fun o _ => o.becomes_mapBindings _

end Interp

namespace Eval

theorem ends_bindIndex {g : Unit → Eval Value} {r : Except Addr Value}
    (h : s.store.contains scope = true) :
    (define scope .underscore (.ofNat i) >>= g).Ends s r s' ↔
    (g ()).Ends (s.bindIndex scope i) r s' := by
  have hdefine : (Effect.define scope .underscore (.ofNat i)).perform s =
      some ((), s.bindIndex scope i) := by
    rw [Effect.perform_define, if_pos h]
    rfl
  constructor
  · intro hends
    cases hends with
    | effect he hg =>
      cases hdefine.symm.trans he
      exact hg
  · intro hg
    exact .effect hdefine hg

end Eval

/-- A visit that gives a result: the function is called with the elements at the index, and the
underscore is bound to it. -/
def Visited (scope : Addr) (f : Value) (seqs : List SeqRef) (i : Nat) (s : Interp) (v : Value)
    (s' : Interp) : Prop :=
  ∃ args s₁, (Eval.elemsAt scope i [] seqs).Ends s (.ok args) s₁ ∧
    List.Forall₂ (s₁.ElemAt i) seqs args ∧
    (Eval.apply scope f args).Ends (s₁.bindIndex scope i) (.ok v) s'

namespace Visited

theorem iff_ends (hs : s.Lives scope) :
    Visited scope f seqs i s v s' ↔ (Eval.visit scope f seqs i).Ends s (.ok v) s' := by
  have hlive {args : List Value} {s₁ : Interp}
      (h : (Eval.elemsAt scope i [] seqs).Ends s (.ok args) s₁) :
      s₁.store.contains scope = true := by
    obtain ⟨o, ho⟩ := Store.contains_iff.mp hs.live
    exact Store.contains_iff.mpr ⟨o, (h.of_elemsAt hs.wellFormed).1.changed ho⟩
  constructor
  · intro h
    obtain ⟨args, s₁, hargs, _, hcall⟩ := h
    exact Eval.ends_bind.mpr (.inl ⟨args, s₁, hargs, (Eval.ends_bindIndex (hlive hargs)).mpr hcall⟩)
  · intro h
    obtain ⟨args, s₁, hargs, hcall⟩ | ⟨e, _, hr⟩ := Eval.ends_bind.mp h
    · obtain ⟨_, elems, helems, hall⟩ := hargs.of_elemsAt hs.wellFormed
      cases helems
      exact ⟨_, s₁, hargs, hall, (Eval.ends_bindIndex (hlive hargs)).mp hcall⟩
    · cases hr

theorem lasts (h : Visited scope f seqs i s v s') (hw : s.store.WellFormed) :
    s.store.Lasts .univ s'.store := by
  obtain ⟨args, s₁, hargs, _, hcall⟩ := h
  obtain ⟨hadds, _⟩ := hargs.of_elemsAt hw
  have hbind := Interp.bindIndex_lasts hadds.wellFormed scope i
  have happly : (s₁.bindIndex scope i).store.Lasts .univ s'.store :=
    (hcall.lasts hbind.wellFormed fun _ => .apply scope f args).1
  exact ((Store.Lasts.of_kept hadds.wellFormed hadds.changed).trans hbind).trans happly

theorem lives (h : Visited scope f seqs i s v s') (hs : s.Lives scope) : s'.Lives scope :=
  hs.of_lasts (h.lasts hs.wellFormed)

end Visited

/-- Visits one after the other, each with its index and its result. -/
inductive Visits (scope : Addr) (f : Value) (seqs : List SeqRef) :
    List (Nat × Value) → Interp → Interp → Prop where
  | nil (s : Interp) : Visits scope f seqs [] s s
  | cons {i : Nat} {v : Value} {results : List (Nat × Value)} {s s₁ s' : Interp}
    (h : Visited scope f seqs i s v s₁)
    (hrest : Visits scope f seqs results s₁ s') : Visits scope f seqs ((i, v) :: results) s s'

theorem Visits.snoc (h : Visits scope f seqs results s s₁)
    (hlast : Visited scope f seqs i s₁ v s') :
    Visits scope f seqs (results ++ [(i, v)]) s s' := by
  induction h with
  | nil s => exact .cons hlast (.nil s')
  | cons hfirst _ ih => exact .cons hfirst (ih hlast)

theorem Visits.lasts (h : Visits scope f seqs results s s') (hw : s.store.WellFormed) :
    s.store.Lasts .univ s'.store := by
  induction h with
  | nil s => exact .refl hw
  | cons hfirst _ ih =>
    have hlasts := hfirst.lasts hw
    exact hlasts.trans (ih hlasts.wellFormed)

theorem Visits.room (h : Visits scope f seqs results s s') (hroom : s.depth < s.config.maxDepth) :
    s'.depth < s'.config.maxDepth := by
  induction h with
  | nil s => exact hroom
  | cons hfirst _ ih =>
    obtain ⟨args, s₁, hargs, _, hcall⟩ := hfirst
    apply ih
    rw [hcall.depth_eq, hcall.config_eq]
    show s₁.depth < s₁.config.maxDepth
    rwa [hargs.depth_eq, hargs.config_eq]

/-- The results that end an iteration: none, those that are not nil, or with any other mode those
that are. -/
def stops : Option Value → Value → Bool
  | none, _ => false
  | some mode, v => if mode.isNil then !v.isNil else v.isNil

theorem find?_stops {values : List Value} (h : ∀ v ∈ values, stops mode v = false) :
    values.find? (stops mode) = none := by
  apply List.find?_eq_none.mpr
  intro v hv
  simp [h v hv]

/-- How an iteration ends that has come to `last`: all indices are visited, a result stops it, or a
visit fails. -/
inductive Sweeps (scope : Addr) (f : Value) (seqs : List SeqRef) (mode : Option Value)
    (last : Value) (indices : List Nat) (s : Interp) : Except Addr Value → Interp → Prop where
  | through {results : List (Nat × Value)} {s' : Interp} (h : Visits scope f seqs results s s')
    (hindices : results.map Prod.fst = indices)
    (hgo : ∀ v ∈ results.map Prod.snd, stops mode v = false) :
    Sweeps scope f seqs mode last indices s (.ok ((results.map Prod.snd).getLastD last)) s'
  | stopped {results : List (Nat × Value)} {i : Nat} {v : Value} {s₁ s' : Interp}
    (h : Visits scope f seqs results s s₁)
    (hindices : results.map Prod.fst ++ [i] <+: indices)
    (hgo : ∀ v ∈ results.map Prod.snd, stops mode v = false)
    (hlast : Visited scope f seqs i s₁ v s') (hstop : stops mode v = true) :
    Sweeps scope f seqs mode last indices s (.ok v) s'
  | failed {results : List (Nat × Value)} {i : Nat} {e : Addr} {s₁ s' : Interp}
    (h : Visits scope f seqs results s s₁)
    (hindices : results.map Prod.fst ++ [i] <+: indices)
    (hgo : ∀ v ∈ results.map Prod.snd, stops mode v = false)
    (hlast : (Eval.visit scope f seqs i).Ends s₁ (.error e) s') :
    Sweeps scope f seqs mode last indices s (.error e) s'

/-- A first visit whose result does not stop an iteration comes before how it goes on. -/
theorem Sweeps.next {r : Except Addr Value} (hfirst : Visited scope f seqs i s v s₁)
    (hv : stops mode v = false) (h : Sweeps scope f seqs mode v rest s₁ r s') :
    Sweeps scope f seqs mode last (i :: rest) s r s' := by
  have hall {results : List (Nat × Value)}
      (hgo : ∀ v ∈ results.map Prod.snd, stops mode v = false) :
      ∀ w ∈ ((i, v) :: results).map Prod.snd, stops mode w = false := by
    intro w hw
    cases hw with
    | head => exact hv
    | tail _ hw => exact hgo w hw
  cases h with
  | @through results _ hvisits hindices hgo =>
    have hthrough :
        Sweeps scope f seqs mode last (i :: rest) s
            (.ok ((((i, v) :: results).map Prod.snd).getLastD last)) s' :=
      .through (.cons hfirst hvisits) (congrArg (i :: ·) hindices) (hall hgo)
    rwa [List.map_cons, List.getLastD_cons] at hthrough
  | stopped hvisits hindices hgo hlast hstop =>
    exact .stopped (.cons hfirst hvisits) (List.cons_prefix_cons.mpr ⟨rfl, hindices⟩)
      (hall hgo) hlast hstop
  | failed hvisits hindices hgo hlast =>
    exact .failed (.cons hfirst hvisits) (List.cons_prefix_cons.mpr ⟨rfl, hindices⟩)
      (hall hgo) hlast

/-- The visits of an iteration that comes to a value: they follow the indices, and only the last one
may be the one that stops it before all of them are visited. -/
structure Completes (scope : Addr) (f : Value) (seqs : List SeqRef) (mode : Option Value)
    (indices : List Nat) (results : List (Nat × Value)) (s s' : Interp) : Prop where
  visits : Visits scope f seqs results s s'
  follows : results.map Prod.fst <+: indices
  goesOn : ∀ v ∈ (results.map Prod.snd).dropLast, stops mode v = false
  all : (∀ v ∈ results.map Prod.snd, stops mode v = false) → results.map Prod.fst = indices

/-- An iteration that does not fail comes to the first result that stops it, or else to the last
one. -/
theorem Sweeps.exists_completes (h : Sweeps scope f seqs mode last indices s (.ok v) s') :
    ∃ results, Completes scope f seqs mode indices results s s' ∧
      v = ((results.map Prod.snd).find? (stops mode)).getD
        ((results.map Prod.snd).getLastD last) := by
  cases h with
  | @through results _ hvisits hindices hgo =>
    refine ⟨results, ⟨hvisits, ?_, fun w hw => hgo w (List.mem_of_mem_dropLast hw), fun _ =>
      hindices⟩, ?_⟩
    · rw [hindices]
    · rw [find?_stops hgo, Option.getD_none]
  | @stopped results i _ _ _ hvisits hindices hgo hlast hstop =>
    refine ⟨results ++ [(i, v)], ⟨hvisits.snoc hlast, ?_, ?_, ?_⟩, ?_⟩
    · simpa using hindices
    · simpa using hgo
    · intro hall
      cases hstop.symm.trans (hall v (by simp))
    · simp [List.find?_append, find?_stops hgo, hstop]

namespace Eval

/-- An iteration over indices that has come to `last`, to the end or until a result stops it. -/
def sweepOf (scope : Addr) (f : Value) (seqs : List SeqRef) :
    Option Value → Value → List Nat → Eval Value
  | none => eachOf scope f seqs
  | some mode => someOf scope f seqs !mode.isNil

theorem sweepOf_nil : sweepOf scope f seqs mode last [] = pure last := by
  cases mode <;> rfl

theorem sweepOf_cons : sweepOf scope f seqs mode last (i :: rest) = (do
    let v ← visit scope f seqs i
    if stops mode v then return v else sweepOf scope f seqs mode v rest) := by
  cases mode with
  | none => rfl
  | some mode =>
    have hstops (v : Value) : (v.isNil == !mode.isNil) = stops (some mode) v := by
      rw [stops]
      cases mode.isNil <;> cases v.isNil <;> rfl
    simp only [sweepOf, someOf, hstops]

theorem Ends.sweeps {r : Except Addr Value} (hs : s.Lives scope)
    (h : (sweepOf scope f seqs mode last indices).Ends s r s') :
    Sweeps scope f seqs mode last indices s r s' := by
  induction indices generalizing s last with
  | nil =>
    rw [sweepOf_nil] at h
    cases h
    exact .through (.nil _) rfl (by simp)
  | cons i rest ih =>
    rw [sweepOf_cons] at h
    obtain ⟨v, s₁, hvisit, hrest⟩ | ⟨e, hvisit, rfl⟩ := ends_bind.mp h
    · have hvisited := (Visited.iff_ends hs).mpr hvisit
      cases hstop : stops mode v with
      | true =>
        rw [hstop, if_pos rfl] at hrest
        cases hrest
        exact .stopped (.nil s) (by simp) (by simp) hvisited hstop
      | false =>
        rw [hstop, if_neg Bool.false_ne_true] at hrest
        exact .next hvisited hstop (ih (hvisited.lives hs) hrest)
    · exact .failed (.nil s) (by simp) (by simp) hvisit

end Eval

/-- As long as the iteration goes on, the function gives a result and leaves the lengths of the
sequences as they are. -/
def Steady (scope : Addr) (f : Value) (seqs : List SeqRef) (mode : Option Value)
    (indices : List Nat) (s : Interp) : Prop :=
  ∀ results i s₁ args s₂, results.map Prod.fst ++ [i] <+: indices →
    (∀ v ∈ results.map Prod.snd, stops mode v = false) → Visits scope f seqs results s s₁ →
    (Eval.elemsAt scope i [] seqs).Ends s₁ (.ok args) s₂ →
    ∃ v s₃, (Eval.apply scope f args).Ends (s₂.bindIndex scope i) (.ok v) s₃ ∧
      ∀ ref ∈ seqs, s₃.seqLength ref = (s₂.bindIndex scope i).seqLength ref

namespace Steady

/-- At an index inside all sequences there is a visit, which leaves them as long as they are. -/
theorem exists_visited (h : Steady scope f seqs mode (i :: rest) s) (hs : s.Lives scope)
    (hi : ∀ ref ∈ seqs, i < s.seqLength ref) :
    ∃ v s', Visited scope f seqs i s v s' ∧ ∀ ref ∈ seqs, s'.seqLength ref = s.seqLength ref := by
  obtain ⟨args, s₁, hargs⟩ := Eval.exists_elemsAt_ends scope hs.wellFormed hi []
  obtain ⟨hadds, elems, helems, hall⟩ := hargs.of_elemsAt hs.wellFormed
  cases helems
  obtain ⟨v, s', hcall, hlengths⟩ := h [] i s _ s₁ (by simp) (by simp) (.nil s) hargs
  refine ⟨v, s', ⟨_, s₁, hargs, hall, hcall⟩, ?_⟩
  intro ref href
  rw [hlengths ref href, Interp.seqLength_bindIndex,
    hadds.seqLength_eq (Nat.zero_lt_of_lt (hi ref href))]

theorem tail (h : Steady scope f seqs mode (i :: rest) s) (hvisited : Visited scope f seqs i s v s')
    (hv : stops mode v = false) : Steady scope f seqs mode rest s' := by
  intro results j s₁ args s₂ hindices hgo hvisits hargs
  apply h ((i, v) :: results) j s₁ args s₂ _ _ (.cons hvisited hvisits) hargs
  · exact List.cons_prefix_cons.mpr ⟨rfl, hindices⟩
  · intro w hw
    cases hw with
    | head => exact hv
    | tail _ hw => exact hgo w hw

theorem exists_ends (h : Steady scope f seqs mode indices s) (hs : s.Lives scope)
    (hindices : ∀ i ∈ indices, ∀ ref ∈ seqs, i < s.seqLength ref) (last : Value) :
    ∃ v s', (Eval.sweepOf scope f seqs mode last indices).Ends s (.ok v) s' := by
  induction indices generalizing s last with
  | nil =>
    rw [Eval.sweepOf_nil]
    exact ⟨last, s, .done last s⟩
  | cons i rest ih =>
    obtain ⟨v, s₁, hvisited, hlengths⟩ := h.exists_visited hs (hindices i (.head _))
    have hvisit := (Visited.iff_ends hs).mp hvisited
    -- The lengths are as before, so the indices that are left are still inside.
    rw [Eval.sweepOf_cons]
    cases hstop : stops mode v with
    | true =>
      refine ⟨v, s₁, Eval.ends_bind.mpr (.inl ⟨v, s₁, hvisit, ?_⟩)⟩
      rw [hstop, if_pos rfl]
      exact .done v s₁
    | false =>
      have hrest : ∀ j ∈ rest, ∀ ref ∈ seqs, j < s₁.seqLength ref := by
        intro j hj ref href
        rw [hlengths ref href]
        exact hindices j (.tail _ hj) ref href
      obtain ⟨w, s', hends⟩ := ih (h.tail hvisited hstop) (hvisited.lives hs) hrest v
      refine ⟨w, s', Eval.ends_bind.mpr (.inl ⟨v, s₁, hvisit, ?_⟩)⟩
      rwa [hstop, if_neg Bool.false_ne_true]

end Steady

/-- A call of an iteration: to the end, or with a mode until a result stops it. -/
def Eval.sweepCall (scope : Addr) (mode : Option Value) (m n : Int64) (f : Value) (b : Addr) :
    Eval Value :=
  match mode with
  | none => runPrimitive scope .each [.num m, .num n, f, .ref b]
  | some mode => runPrimitive scope .some [.num m, .num n, mode, f, .ref b]

theorem Eval.sweepCall_eq {m n : Int64} {b : Addr} : sweepCall scope mode m n f b =
    sweepArgs scope (.num m) (.num n) (.ref b) >>= fun p =>
      sweepOf scope f p.1 mode (mode.getD .nil) p.2 := by
  cases mode <;> rfl

section

variable {b : Addr} {values : Array Value} {m n : Int64}

open Sequence

theorem Eval.ends_sweepCall_of_error {e : Addr}
    (h : (sweepArgs scope (.num m) (.num n) (.ref b)).Ends s (.error e) s') :
    (sweepCall scope mode m n f b).Ends s (.error e) s' := by
  rw [sweepCall_eq]
  exact ends_bind.mpr (.inr ⟨e, h, rfl⟩)

section

variable {start finish : Nat} (hlist : s.store.get? b = some (.list values))
  (hseqs : values.toList.mapM s.seq? = some seqs)
    (hstart : within? (s.leastLength seqs) (resolve (s.leastLength seqs) m.toInt) = some start)
  (hfinish : within? (s.leastLength seqs) (resolve (s.leastLength seqs) n.toInt) = some finish)

include hlist hseqs hstart hfinish

theorem Eval.ends_sweepCall {r : Except Addr Value} : (sweepCall scope mode m n f b).Ends s r s' ↔
    (sweepOf scope f seqs mode (mode.getD .nil) (sweep start finish)).Ends s r s' := by
  rw [sweepCall_eq, (finds_sweepArgs hlist hseqs hstart hfinish).bind]

/-- Between bounds inside the shortest sequence, a steady iteration comes to a value. -/
theorem Steady.exists_run (h : Steady scope f seqs mode (sweep start finish) s) (hs : s.Lives scope)
    (hle : start ≤ s.leastLength seqs) (hle' : finish ≤ s.leastLength seqs) :
    ∃ fuel results s', Completes scope f seqs mode (sweep start finish) results s s' ∧
      s.run fuel (Eval.sweepCall scope mode m n f b) =
        .finished (.ok (((results.map Prod.snd).find? (stops mode)).getD
        ((results.map Prod.snd).getLastD (mode.getD .nil)))) s' := by
  have hindices : ∀ i ∈ sweep start finish, ∀ ref ∈ seqs, i < s.seqLength ref := by
    intro i hi ref href
    exact Nat.lt_of_lt_of_le (lt_of_mem_sweep hle hle' hi) (s.leastLength_le href)
  obtain ⟨v, s', hends⟩ := h.exists_ends hs hindices (mode.getD .nil)
  obtain ⟨results, hcompletes, rfl⟩ := (hends.sweeps hs).exists_completes
  obtain ⟨fuel, hrun⟩ :=
    Interp.run_finished_iff.mpr ((Eval.ends_sweepCall hlist hseqs hstart hfinish).mpr hends)
  exact ⟨fuel, results, s', hcompletes, hrun⟩

end

/-- The bounds of an iteration mean what they say. A negative number counts back from behind the end
of the shortest sequence, which stays within 64 bits. If a bound is outside the shortest sequence,
the call is an error about it, and nothing is visited. Otherwise the indices between the bounds are
visited, upwards or downwards, and with the bounds exchanged the other way round. As long as the
function gives results and leaves the lengths alone, the call comes to the first result that stops
it, or else to the last one; without a mode, all indices are visited. -/
theorem Interp.iteration_keeps_bounds (hs : s.HasScope scope)
    (hlist : s.store.get? b = some (.list values)) (hseqs : values.toList.mapM s.seq? = some seqs) :
    let length := s.leastLength seqs
    let bound (k : Int64) : Int := if k.toInt < 0 then length + k.toInt + 1 else k.toInt
    let inside (k : Int64) : Prop := 0 ≤ bound k ∧ bound k ≤ length
    (length < 2 ^ 63 → ∀ k : Int64, k < 0 →
      (Int64.ofNat length + k).toInt = length + k.toInt ∧
      (Int64.ofNat length + k + 1).toInt = bound k) ∧
    (¬(inside m ∧ inside n) → Fault.outOfBounds.kind = .index ∧
      ∃ fuel location k, ¬inside k ∧ (k = m ∨ inside m ∧ k = n) ∧
        s.run fuel (Eval.sweepCall scope mode m n f b) =
        .finished (.error s.store.next) (s.alloc (.failure ⟨.outOfBounds, location, .num k⟩)).2) ∧
    ∀ start finish : Nat, bound m = start → bound n = finish → start ≤ length → finish ≤ length →
      ∃ indices, Traverses start finish indices ∧ Traverses finish start indices.reverse ∧
        (∀ fuel r s', s.run fuel (Eval.sweepCall scope mode m n f b) = .finished r s' →
          Sweeps scope f seqs mode (mode.getD .nil) indices s r s') ∧
        (Steady scope f seqs mode indices s →
          ∃ fuel results s', Completes scope f seqs mode indices results s s' ∧
          (mode = none → results.map Prod.fst = indices) ∧
          s.run fuel (Eval.sweepCall scope mode m n f b) =
            .finished (.ok (((results.map Prod.snd).find? (stops mode)).getD
            ((results.map Prod.snd).getLastD (mode.getD .nil)))) s') := by
  intro length bound inside
  have houtside {k : Int64} (h : ¬inside k) : within? length (resolve length k.toInt) = none :=
    within?_eq_none h
  have hinside {k : Int64} {i : Nat} (h : bound k = i) (hi : i ≤ length) :
      within? length (resolve length k.toInt) = some i := by
    have hk : resolve length k.toInt = i := h
    rw [hk, within?_eq_some ⟨Int.natCast_nonneg i, Int.ofNat_le.mpr hi⟩, Int.toNat_natCast]
  refine ⟨fun hlength k hk => toInt_resolve hlength hk, ?_, ?_⟩
  · intro hout
    refine ⟨rfl, ?_⟩
    by_cases hm : inside m
    · have hn : ¬inside n := fun hn => hout ⟨hm, hn⟩
      obtain ⟨location, hends⟩ :=
        Eval.exists_sweepArgs_ends_finish hlist hseqs hs (within?_eq_some hm) (houtside hn)
      obtain ⟨fuel, hrun⟩ := run_finished_iff.mpr (Eval.ends_sweepCall_of_error hends)
      exact ⟨fuel, location, n, hn, .inr ⟨hm, rfl⟩, hrun⟩
    · obtain ⟨location, hends⟩ := Eval.exists_sweepArgs_ends_start hlist hseqs hs (houtside hm)
      obtain ⟨fuel, hrun⟩ := run_finished_iff.mpr (Eval.ends_sweepCall_of_error hends)
      exact ⟨fuel, location, m, hm, .inl rfl, hrun⟩
  · intro start finish hm hn hstart hfinish
    have hlives : s.Lives scope := ⟨hs.intact.toWellFormed, hs.live⟩
    refine ⟨sweep start finish, traverses_sweep start finish, ?_, ?_, ?_⟩
    · rw [← sweep_swap]
      exact traverses_sweep finish start
    · intro fuel r s' hrun
      have hends := run_finished_iff.mp ⟨fuel, hrun⟩
      rw [Eval.ends_sweepCall hlist hseqs (hinside hm hstart) (hinside hn hfinish)] at hends
      exact hends.sweeps hlives
    · intro hsteady
      obtain ⟨fuel, results, s', hcompletes, hrun⟩ :=
        hsteady.exists_run hlist hseqs (hinside hm hstart)
          (hinside hn hfinish) hlives hstart hfinish
      refine ⟨fuel, results, s', hcompletes, ?_, hrun⟩
      intro hmode
      subst hmode
      exact hcompletes.all fun _ _ => rfl

end

theorem Eval.ends_apply_progn {b : Addr} {args : List Value}
    (hb : s.store.get? b = some (.function (.native (.primitive .progn))))
    (hroom : s.depth < s.config.maxDepth) :
    (apply scope (.ref b) args).Ends s (.ok (args.getLast?.getD .nil)) s := by
  have hlast {s : Interp} : (runNative scope args (.primitive .progn)).Ends s
      (.ok (args.getLast?.getD .nil)) s :=
    .done _ s
  have hfunction : Finds s (functionOf (.ref b)) (some (.native (.primitive .progn))) :=
    (Finds.fetch hb).andThen (.pure s _)
  exact hfunction.bind.mpr (.call hroom (.native hlast (.done _ _)) (.done _ _))

/-- A string and a shorter list are visited from the end of the list back to the start. -/
theorem Interp.iteration_keeps_bounds_backwards :
    let s₁ := ((bare ⟨1, 65536, false⟩ .empty 0).alloc (.function (.native (.primitive .progn)))).2
    let s₂ := (s₁.alloc (.list #[.num 5, .num 7, .nil])).2
    let s₃ := (s₂.alloc (.str [97, 98, 99, 100].toByteArray)).2
    let s := (s₃.alloc (.list #[.ref ⟨3⟩, .ref ⟨2⟩])).2
    ∃ fuel results s', results.map Prod.fst = [2, 1, 0] ∧
      Visits ⟨0⟩ (.ref ⟨1⟩) [.str ⟨3⟩, .list ⟨2⟩] results s s' ∧
      s.run fuel (Eval.runPrimitive ⟨0⟩ .each [.num (-1), .num 0, .ref ⟨1⟩, .ref ⟨4⟩]) =
        .finished (.ok ((results.map Prod.snd).getLastD .nil)) s' := by
  intro s₁ s₂ s₃ s
  have hintact : s.store.Intact := by
    refine ((((bare_sound ⟨1, 65536, false⟩ .empty 0).intact.insert ?_).insert ?_).insert
      ?_).insert ?_
    · decide
    · decide
    · decide
    · decide
  have hprogn : s.store.get? ⟨1⟩ = some (.function (.native (.primitive .progn))) := by
    subst s s₃ s₂ s₁
    rfl
  have hroot : s.store.get? ⟨0⟩ = some (.scope (.inside none)) := by
    subst s s₃ s₂ s₁
    rfl
  have hlist : s.store.get? ⟨4⟩ = some (.list #[.ref ⟨3⟩, .ref ⟨2⟩]) := by
    subst s s₃ s₂ s₁
    rfl
  have hsteady (indices : List Nat) :
      Steady ⟨0⟩ (.ref ⟨1⟩) [.str ⟨3⟩, .list ⟨2⟩] none indices s := by
    intro results i s₁ args s₂ _ _ hvisits hargs
    have hlasts := hvisits.lasts hintact.toWellFormed
    obtain ⟨o, ho, hbecomes⟩ := hlasts.becomes ⟨1⟩ trivial _ hprogn
    cases hbecomes
    obtain ⟨hadds, _⟩ := hargs.of_elemsAt hlasts.wellFormed
    have hget : (s₂.bindIndex ⟨0⟩ i).store.get? ⟨1⟩ =
        some (.function (.native (.primitive .progn))) := by
      simp [bindIndex, hadds.changed ho]
    have hroom : (s₂.bindIndex ⟨0⟩ i).depth < (s₂.bindIndex ⟨0⟩ i).config.maxDepth := by
      show s₂.depth < s₂.config.maxDepth
      rw [hargs.depth_eq, hargs.config_eq]
      exact hvisits.room (by decide)
    exact ⟨_, _, Eval.ends_apply_progn hget hroom, fun _ _ => rfl⟩
  have hscope : s.HasScope ⟨0⟩ := ⟨hintact, .inside none, hroot⟩
  have hseqs : (#[.ref ⟨3⟩, .ref ⟨2⟩] : Array Value).toList.mapM s.seq? =
      some [.str ⟨3⟩, .list ⟨2⟩] := by
    subst s s₃ s₂ s₁
    rfl
  obtain ⟨_, _, hinside⟩ :=
    iteration_keeps_bounds (m := -1) (n := 0) (f := .ref ⟨1⟩) hscope hlist hseqs
  obtain ⟨indices, htraverses, _, _, hcompletes⟩ :=
    hinside 3 0 (by decide) (by decide) (by decide) (by decide)
  obtain ⟨fuel, results, s', hresults, hall, hrun⟩ := hcompletes (hsteady indices)
  have hindices : indices = [2, 1, 0] := by
    obtain ⟨hlength, hget⟩ := htraverses.downwards (by decide)
    obtain ⟨i, j, k, rfl⟩ := List.length_eq_three.mp hlength
    have hfirst : i = 2 := Option.some.inj (hget 0 (by decide))
    have hsecond : j = 1 := Option.some.inj (hget 1 (by decide))
    have hthird : k = 0 := Option.some.inj (hget 2 (by decide))
    rw [hfirst, hsecond, hthird]
  rw [find?_stops fun _ _ => rfl, Option.getD_none] at hrun
  exact ⟨fuel, results, s', (hall rfl).trans hindices, hresults.visits, hrun⟩

end HeapLisp
