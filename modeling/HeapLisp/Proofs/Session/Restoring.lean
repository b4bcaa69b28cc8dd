import HeapLisp.Proofs.Host.Soundness
import HeapLisp.Proofs.Machine.Lasting

namespace HeapLisp

variable {s s' : Interp} {env : Addr} {scope : Scope} {source : Source} {name : Bytes}
  {report : Bool} {r : Except Addr Value}

/-- The store at the first turn of a session. -/
def Store.announce (st : Store Object) (env : Addr) (name : Bytes) : Store Object :=
  ((st.insert (.str name.toByteArray)).modifyBindings env
    (·.insert .streamName (.ref st.next))).modifyBindings env
    (·.insert .streamLine (.num 1))

/-- The store after a session, from what it was after the last turn. -/
def Store.putBack (st : Store Object) (env : Addr) (name line : Option Value) : Store Object :=
  (st.modifyBindings env (·.put .streamName name)).modifyBindings env (·.put .streamLine line)

theorem Effect.of_define {symbol : Symbol} {v : Value} {u : Unit}
    (h : (define env symbol v).perform s = some (u, s')) :
    s' = { s with store := s.store.modifyBindings env (·.insert symbol v) } := by
  rw [perform_define] at h
  split at h <;> cases h
  rfl

theorem Effect.of_restore {symbol : Symbol} {old : Option Value} {u : Unit}
    (h : (restore env symbol old).perform s = some (u, s')) :
    s' = { s with store := s.store.modifyBindings env (·.put symbol old) } := by
  rw [perform] at h
  split at h <;> cases h
  rfl

/-- A session in a scope announces its stream, takes its turns, and puts back what there was. -/
theorem Eval.Ends.of_runStream (henv : s.store.get? env = some (.scope scope))
    (h : (runStream env source name report).Ends s r s') :
    ∃ s₁ n, (Loop.session env source .start report
        ((scope.bindings.get? .streamName).toList ++ (scope.bindings.get? .streamLine).toList)
        .nil).Takes { s with store := s.store.announce env name } n r s₁ ∧
      s' = { s₁ with
        store := s₁.store.putBack env (scope.bindings.get? .streamName)
          (scope.bindings.get? .streamLine) } := by
  obtain ⟨o, t, hfetch, h⟩ := ends_perform_bind.mp h
  rw [Effect.perform, henv] at hfetch
  cases hfetch
  obtain ⟨a, t, halloc, h⟩ := ends_perform_bind (e := .alloc (.str name.toByteArray)).mp h
  cases halloc
  obtain ⟨_, t, hname, h⟩ := ends_perform_bind.mp h
  cases Effect.of_define hname
  obtain ⟨_, t, hline, h⟩ := ends_perform_bind.mp h
  cases Effect.of_define hline
  obtain ⟨r₁, s₁, hloop, h⟩ := ends_attempt_bind.mp h
  obtain ⟨n, htakes⟩ := ends_iterate.mp hloop
  obtain ⟨_, t, hname, h⟩ := ends_perform_bind.mp h
  cases Effect.of_restore hname
  obtain ⟨_, t, hline, h⟩ := ends_perform_bind.mp h
  cases Effect.of_restore hline
  obtain ⟨rfl, rfl⟩ := ends_ofExcept.mp h
  exact ⟨s₁, n, htakes, rfl⟩

namespace Store

variable {st : Store Object}

theorem lasts_modifyBindings (hw : st.WellFormed) (a : Addr) (f : Bindings → Bindings) :
    st.Lasts .univ (st.modifyBindings a f) := .modify hw fun o _ => o.becomes_mapBindings f

theorem lasts_announce (hw : st.WellFormed) (env : Addr) (name : Bytes) :
    st.Lasts .univ (st.announce env name) := by
  have hinsert : st.Lasts .univ (st.insert (.str name.toByteArray)) := .insert hw _
  have hname := lasts_modifyBindings hinsert.wellFormed env (·.insert .streamName (.ref st.next))
  have hline := lasts_modifyBindings hname.wellFormed env (·.insert .streamLine (.num 1))
  exact (hinsert.trans hname).trans hline

theorem get?_putBack (henv : st.get? env = some (.scope scope)) (name line : Option Value) :
    ∃ scope', (st.putBack env name line).get? env = some (.scope scope') ∧
      scope'.parent = scope.parent ∧
      scope'.bindings.get? .streamName = name ∧ scope'.bindings.get? .streamLine = line := by
  have hname := get?_modifyBindings_of_scope henv (·.put .streamName name)
  have hline := get?_modifyBindings_of_scope hname (·.put .streamLine line)
  exact ⟨_, hline, rfl, by simp [show Symbol.streamName ≠ .streamLine by decide], by simp⟩

theorem contains_putBack (env a : Addr) (name line : Option Value) :
    (st.putBack env name line).contains a = st.contains a := by
  simp [putBack]

end Store

theorem Loop.Takes.lasts {mark : Bookmark} {keep : List Value} {last : Value} {n : Nat}
    (hw : s.store.WellFormed) (h : (Loop.session env source mark report keep last).Takes s n r s') :
    s.store.Lasts {a | a = env ∨ .ref a ∈ keep} s'.store := by
  have hends := Eval.ends_iterate.mpr ⟨n, h⟩
  exact (hends.lasts hw fun _ => .iterate fun _ a ha => ha).1

/-- However a session in a scope ends, and whatever was evaluated in it, the scope then has its own
stream name and line from before, or still has none, and what they refer to is still there. -/
theorem Interp.stream_location_restored (hw : s.store.WellFormed)
    (henv : s.store.get? env = some (.scope scope)) {fuel : Nat}
    (h : s.run fuel (Eval.runStream env source name report) = .finished r s') :
    ∃ scope', s'.store.get? env = some (.scope scope') ∧ scope'.parent = scope.parent ∧
      ∀ symbol ∈ [Symbol.streamName, Symbol.streamLine],
        scope'.bindings.get? symbol = scope.bindings.get? symbol ∧
        ∀ a, scope.bindings.get? symbol = some (.ref a) → s.store.contains a = true →
          s'.store.contains a = true := by
  obtain ⟨s₁, n, htakes, rfl⟩ := (Interp.run_finished_iff.mp ⟨fuel, h⟩).of_runStream henv
  have hbegun := Store.lasts_announce hw env name
  have hturns := htakes.lasts hbegun.wellFormed
  -- what is there before the session and kept by its turns is there in the end
  have kept {a : Addr} {o : Object} (ho : s.store.get? a = some o)
      (ha : a = env ∨ .ref a ∈ (scope.bindings.get? .streamName).toList ++
          (scope.bindings.get? .streamLine).toList) :
      ∃ o', s₁.store.get? a = some o' ∧ o.Becomes o' := by
    obtain ⟨p, hp, hop⟩ := hbegun.becomes a trivial o ho
    obtain ⟨q, hq, hpq⟩ := hturns.becomes a ha p hp
    exact ⟨q, hq, hop.trans hpq⟩
  obtain ⟨o, hscope, hbecomes⟩ := kept henv (.inl rfl)
  cases hbecomes with
  | scope old new parent =>
    obtain ⟨scope', hget, hparent, hname, hline⟩ :=
      Store.get?_putBack hscope (old.get? .streamName) (old.get? .streamLine)
    have live {a : Addr} {symbol : Symbol}
      (hsymbol : symbol ∈ [Symbol.streamName, Symbol.streamLine])
        (hbound : old.get? symbol = some (.ref a)) (ha : s.store.contains a = true) :
        (s₁.store.putBack env (old.get? .streamName) (old.get? .streamLine)).contains a = true := by
      rw [Store.contains_putBack]
      obtain ⟨o, ho⟩ := Store.contains_iff.mp ha
      have hkeep : .ref a ∈ (old.get? .streamName).toList ++ (old.get? .streamLine).toList := by
        simp only [List.mem_cons, List.not_mem_nil, or_false] at hsymbol
        obtain rfl | rfl := hsymbol <;> simp [hbound]
      obtain ⟨q, hq, _⟩ := kept ho (.inr hkeep)
      exact Store.contains_iff.mpr ⟨q, hq⟩
    refine ⟨scope', hget, hparent, ?_⟩
    intro symbol hsymbol
    refine ⟨?_, fun a hbound ha => live hsymbol hbound ha⟩
    simp only [List.mem_cons, List.not_mem_nil, or_false] at hsymbol
    obtain rfl | rfl := hsymbol
    · exact hname
    · exact hline

/-- A form of a session loads a file that binds the name anew in the same scope, and a collection is
due after that form. -/
theorem Interp.stream_location_restored_rebound :
    let disk := Disk.ofFiles [(Bytes.ofString "a", Bytes.ofString "(defq *stream-name* 7)")]
    let s := Interp.new ⟨200, 0, false⟩ disk 0
    let text := Bytes.ofString "(load \"a\")"
    ∃ r s', s.run 2000 (Eval.runStream s.root (.own (.memory text)) [] true) = .finished r s' ∧
      s'.store.local? s.root .streamName = s.store.local? s.root .streamName ∧
      ∀ a, s.store.local? s.root .streamName = some (some (.ref a)) →
        s'.store.contains a = true := by
  intro disk s text
  have hsound : s.Sound := Interp.new_sound _ _ _
  obtain ⟨scope, hroot⟩ := hsound.root
  have hfinished :
      (s.run 2000 (Eval.runStream s.root (.own (.memory text)) [] true)).isFinished = true := by
    decide +kernel
  obtain ⟨r, s', hrun⟩ := Outcome.exists_of_isFinished hfinished
  obtain ⟨scope', hroot', _, hbound⟩ :=
    stream_location_restored hsound.intact.toWellFormed hroot hrun
  obtain ⟨hsame, hkept⟩ := hbound .streamName (.head _)
  refine ⟨r, s', hrun, ?_, ?_⟩
  · rw [Store.local?, Store.local?, hroot, hroot']
    exact congrArg some hsame
  · intro a hlocal
    have hname : scope.bindings.get? .streamName = some (.ref a) := by
      rw [Store.local?, hroot] at hlocal
      exact Option.some.inj hlocal
    have hlive : s.store.contains a = true :=
      hsound.intact.closed hroot a (Object.mem_children_scope.mpr (.inl ⟨_, hname⟩))
    exact hkept a hname hlive

end HeapLisp
