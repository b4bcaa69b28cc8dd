import HeapLisp.Proofs.Matching.Endings
import HeapLisp.Proofs.Reader.Progress
import HeapLisp.Proofs.Session.Restoring

namespace HeapLisp

variable {s s' s₁ s₂ : Interp} {env : Addr} {source source' : Source} {mark mark' : Bookmark}
  {keep keep' : List Value} {last v : Value} {read : Readout} {r : Except Addr Value} {text : Bytes}

/-- The interpreter with the stream line of a scope set. -/
def Interp.atLine (env : Addr) (line : Int) (s : Interp) : Interp :=
  { s with store := s.store.modifyBindings env (·.insert .streamLine (.num (Int64.ofInt line))) }

/-- Nothing but the console and, outside all evaluation, the store has changed. -/
structure Interp.Reported (s s' : Interp) : Prop where
  disk : s'.disk = s.disk
  depth : s'.depth = s.depth
  store : s.depth ≠ 0 → s'.store = s.store

theorem Effect.reported_tidyUp (roots : List Value) (s : Interp) : s.Reported (tidyUp roots s) := by
  unfold tidyUp
  split
  · rename_i hdue
    exact ⟨rfl, rfl, fun hdepth => absurd hdue.1 hdepth⟩
  · exact ⟨rfl, rfl, fun _ => rfl⟩

theorem Value.filterMap_addr?_filter (vs : List Value) :
    (vs.filter (·.addr?.isSome)).filterMap Value.addr? = vs.filterMap Value.addr? := by
  rw [List.filterMap_filter]
  congr 1
  funext v
  cases v <;> rfl

/-- Of the roots only the addresses among them count. -/
theorem Effect.tidyUp_congr {roots roots' : List Value}
    (h : roots.filterMap Value.addr? = roots'.filterMap Value.addr?) (s : Interp) :
    tidyUp roots s = tidyUp roots' s := by
  rw [tidyUp, tidyUp, Interp.collect, Interp.collect, h]

/-- The loop of a session in which other values are kept. -/
def Loop.keeping (keep : List Value) : Loop → Loop
  | .session env source mark report _ last => .session env source mark report keep last
  | l => l

def Turn.keeping (keep : List Value) : Turn → Turn
  | .again l => .again (l.keeping keep)
  | .finished v => .finished v

namespace Eval

/-- The interpreter once a line has been printed. -/
def printed (text : Bytes) (s : Interp) : Interp :=
  { s with console := s.console.print (text ++ [Byte.newline]) }

theorem ends_printLine_bind {α : Type} {f : Unit → Eval α} {q : Except Addr α} :
    (printLine v >>= f).Ends s q s' ↔
      ∃ text, s.render? .canonical v = some text ∧ (f ()).Ends (printed text s) q s' := by
  constructor
  · intro h
    obtain ⟨text, s₁, hrender, h⟩ := ends_perform_bind.mp h
    rw [Effect.perform] at hrender
    split at hrender
    · cases hrender
    · rename_i htext
      cases hrender
      obtain ⟨_, s₂, hprint, h⟩ := ends_perform_bind.mp h
      cases hprint
      exact ⟨text, htext, h⟩
  · rintro ⟨text, htext, h⟩
    have hrender : (Effect.render .canonical v).perform s = some (text, s) := by
      rw [Effect.perform, htext]
    exact .effect hrender (.effect rfl h)

/-- What a session that reports prints of a result, and goes on with. -/
def shown : Except Addr Value → Value
  | .ok v => v
  | .error e => .ref e

theorem sessionTurn_eq :
    sessionTurn env source mark true keep last =
      perform (.readForm source mark) >>= fun q =>
        define env .streamLine (.num (Int64.ofInt (lineOf q.1 q.2.1))) >>= fun _ =>
          evaluateRead env q.1 >>= endTurn env q.2.2 q.2.1 true keep last := by
  rfl

theorem ends_tidy_bind {α : Type} {roots : List Value} {f : Unit → Eval α} {q : Except Addr α} :
    (perform (.tidy roots) >>= f).Ends s q s' ↔ (f ()).Ends (Effect.tidyUp roots s) q s' := by
  constructor
  · intro h
    cases h with
    | effect htidy h =>
      cases htidy
      exact h
  · intro h
    exact .effect rfl h

theorem ends_sessionTurn_ended
    (hread : Effect.readFrom source mark s = some ((.ended, mark', source'), s₁))
    (henv : s₁.store.contains env = true) :
    (sessionTurn env source mark true keep last).Ends s (.ok (.finished last))
      (s₁.atLine env (lineOf .ended mark')) := by
  refine ends_perform_bind.mpr ⟨_, s₁, hread, ?_⟩
  refine ends_perform_bind.mpr ⟨(), s₁.atLine env (lineOf .ended mark'), ?_, .done _ _⟩
  rw [Effect.perform_define, if_pos henv]
  rfl

/-- Whatever was evaluated comes to, the turn reports it and goes on, if it can be printed. -/
theorem ends_endTurn {text : Bytes} (htext : s.render? .canonical (shown r) = some text) :
    ∃ s', (endTurn env source mark true keep last (some r)).Ends s
        (.ok (.again (.session env source mark true keep (shown r)))) s' ∧
      s.Reported s' := by
  have tidied (roots : List Value) : s.Reported (Effect.tidyUp roots (printed text s)) := by
    have h := Effect.reported_tidyUp roots (printed text s)
    exact ⟨h.disk, h.depth, h.store⟩
  cases r with
  | ok v =>
    have echoes : Effect.echoes.perform s = some (s.config.echo, s) := rfl
    cases hecho : s.config.echo with
    | true =>
      rw [hecho] at echoes
      refine ⟨_, ends_perform_bind.mpr ⟨true, s, echoes, ?_⟩, tidied (.ref env :: v :: keep)⟩
      exact ends_printLine_bind.mpr ⟨text, htext, ends_tidy_bind.mpr (.done _ _)⟩
    | false =>
      rw [hecho] at echoes
      refine ⟨_, ends_perform_bind.mpr ⟨false, s, echoes, ?_⟩,
        Effect.reported_tidyUp (.ref env :: v :: keep) s⟩
      exact ends_tidy_bind.mpr (.done _ _)
  | error e =>
    exact ⟨_, ends_printLine_bind.mpr ⟨text, htext, ends_tidy_bind.mpr (.done _ _)⟩, tidied _⟩

theorem Ends.of_endTurn {o : Option (Except Addr Value)} {q : Except Addr Turn}
    (h : (endTurn env source mark true keep last o).Ends s q s') :
    q = .ok (.finished last) ∨ ∃ v, q = .ok (.again (.session env source mark true keep v)) := by
  cases o with
  | none =>
    cases h
    exact .inl rfl
  | some r =>
    cases r with
    | ok v =>
      obtain ⟨echo, s₁, _, h⟩ := ends_perform_bind.mp h
      cases echo with
      | true =>
        obtain ⟨_, _, h⟩ := ends_printLine_bind.mp h
        cases ends_tidy_bind.mp h
        exact .inr ⟨v, rfl⟩
      | false =>
        cases ends_tidy_bind.mp h
        exact .inr ⟨v, rfl⟩
    | error e =>
      obtain ⟨_, _, h⟩ := ends_printLine_bind.mp h
      cases ends_tidy_bind.mp h
      exact .inr ⟨.ref e, rfl⟩

theorem Ends.endTurn_keeping (hkeep : keep.filterMap Value.addr? = keep'.filterMap Value.addr?)
    {o : Option (Except Addr Value)} {q : Turn}
    (h : (endTurn env source mark true keep last o).Ends s (.ok q) s') :
    (endTurn env source mark true keep' last o).Ends s (.ok (q.keeping keep')) s' := by
  have tidied {v : Value} {s : Interp} (h : (perform (.tidy (.ref env :: v :: keep)) >>= fun _ =>
      (return .again (.session env source mark true keep v) : Eval Turn)).Ends s (.ok q) s') :
      (perform (.tidy (.ref env :: v :: keep')) >>= fun _ =>
        (return .again (.session env source mark true keep' v) : Eval Turn)).Ends s
        (.ok (q.keeping keep')) s' := by
    have hroots : (Value.ref env :: v :: keep).filterMap Value.addr? =
        (Value.ref env :: v :: keep').filterMap Value.addr? := by
      simp only [List.filterMap_cons, hkeep]
    cases ends_tidy_bind.mp h
    rw [Effect.tidyUp_congr hroots]
    exact ends_tidy_bind.mpr (.done _ _)
  cases o with
  | none =>
    cases h
    exact .done _ _
  | some r =>
    cases r with
    | ok v =>
      obtain ⟨echo, s₁, hecho, h⟩ := ends_perform_bind.mp h
      refine ends_perform_bind.mpr ⟨echo, s₁, hecho, ?_⟩
      cases echo with
      | true =>
        obtain ⟨text, htext, h⟩ := ends_printLine_bind.mp h
        exact ends_printLine_bind.mpr ⟨text, htext, tidied h⟩
      | false => exact tidied h
    | error e =>
      obtain ⟨text, htext, h⟩ := ends_printLine_bind.mp h
      exact ends_printLine_bind.mpr ⟨text, htext, tidied h⟩

theorem Ends.sessionTurn_keeping
    (hkeep : keep.filterMap Value.addr? = keep'.filterMap Value.addr?) {q : Turn}
    (h : (sessionTurn env source mark true keep last).Ends s (.ok q) s') :
    (sessionTurn env source mark true keep' last).Ends s (.ok (q.keeping keep')) s' := by
  rw [sessionTurn_eq] at h ⊢
  obtain ⟨read, s₁, hread, h⟩ := ends_perform_bind.mp h
  obtain ⟨_, s₂, hdefine, h⟩ := ends_perform_bind.mp h
  obtain ⟨o, s₃, hresult, h⟩ | ⟨e, _, he⟩ := ends_bind.mp h
  · exact ends_perform_bind.mpr ⟨read, s₁, hread, ends_perform_bind.mpr ⟨(), s₂, hdefine,
      ends_bind.mpr (.inl ⟨o, s₃, hresult, h.endTurn_keeping hkeep⟩)⟩⟩
  · cases he

theorem ends_sessionTurn_again
    (hread : Effect.readFrom source mark s = some ((read, mark', source'), s₁))
    (henv : s₁.store.contains env = true)
    (h : (evaluateRead env read).Ends (s₁.atLine env (lineOf read mark')) (.ok (some r)) s₂)
    (htext : s₂.render? .canonical (shown r) = some text) :
    ∃ s', (sessionTurn env source mark true keep last).Ends s
        (.ok (.again (.session env source' mark' true keep (shown r)))) s' ∧
      s₂.Reported s' := by
  obtain ⟨s', hreport, hreported⟩ := ends_endTurn htext
  refine ⟨s', ?_, hreported⟩
  rw [sessionTurn_eq]
  refine ends_perform_bind.mpr ⟨_, s₁, hread, ?_⟩
  refine ends_perform_bind.mpr ⟨(), s₁.atLine env (lineOf read mark'), ?_, ?_⟩
  · rw [Effect.perform_define, if_pos henv]
    rfl
  · exact ends_bind.mpr (.inl ⟨some r, s₂, h, hreport⟩)

theorem Ends.of_evaluateRead {q : Except Addr (Option (Except Addr Value))}
    (h : (evaluateRead env read).Ends s q s') :
    ∃ o, q = .ok o := by
  cases read with
  | ended =>
    cases h
    exact ⟨none, rfl⟩
  | value form =>
    obtain ⟨r, s₁, _, hdone⟩ := ends_attempt_bind.mp h
    cases hdone
    exact ⟨some r, rfl⟩
  | failed e =>
    obtain ⟨r, s₁, _, hdone⟩ := ends_attempt_bind.mp h
    cases hdone
    exact ⟨some r, rfl⟩

/-- A turn that reports is the last one, or the loop goes on from where the reader got. -/
theorem Ends.of_sessionTurn {q : Except Addr Turn}
    (h : (sessionTurn env source mark true keep last).Ends s q s') :
    q = .ok (.finished last) ∨
      ∃ read source' mark' s₁ v, Effect.readFrom source mark s = some ((read, mark', source'), s₁) ∧
        read ≠ .ended ∧
        q = .ok (.again (.session env source' mark' true keep v)) := by
  rw [sessionTurn_eq] at h
  obtain ⟨⟨read, mark', source'⟩, s₁, hread, h⟩ := ends_perform_bind.mp h
  obtain ⟨_, s₂, _, h⟩ := ends_perform_bind.mp h
  obtain ⟨o, s₃, hread', h⟩ | ⟨e, h, _⟩ := ends_bind.mp h
  · obtain hfinished | ⟨v, hagain⟩ := h.of_endTurn
    · exact .inl hfinished
    · by_cases hended : read = .ended
      · subst hended
        cases hread'
        cases h
        cases hagain
      · exact .inr ⟨read, source', mark', s₁, v, hread, hended, hagain⟩
  · obtain ⟨o, ho⟩ := h.of_evaluateRead
    cases ho

end Eval

theorem Loop.Takes.exists_ok {n : Nat}
    (h : (Loop.session env source mark true keep last).Takes s n r s') : ∃ v, r = .ok v := by
  generalize hl : Loop.session env source mark true keep last = l at h
  induction h generalizing source mark last with
  | again hturn _ ih =>
    subst hl
    obtain hq | ⟨_, source', mark', _, v, _, _, hq⟩ := hturn.of_sessionTurn
    · cases hq
    · cases hq
      exact ih rfl
  | finished hturn => exact ⟨_, rfl⟩
  | broken hturn =>
    subst hl
    obtain hq | ⟨_, _, _, _, _, _, _, hq⟩ := hturn.of_sessionTurn <;> cases hq

theorem Loop.Takes.keeping {n : Nat}
    (hkeep : keep.filterMap Value.addr? = keep'.filterMap Value.addr?)
    (h : (Loop.session env source mark true keep last).Takes s n r s') :
    (Loop.session env source mark true keep' last).Takes s n r s' := by
  generalize hl : Loop.session env source mark true keep last = l at h
  induction h generalizing source mark last with
  | again hturn _ ih =>
    subst hl
    have hturn' := hturn.sessionTurn_keeping hkeep
    obtain hq | ⟨_, source', mark', _, v, _, _, hq⟩ := hturn.of_sessionTurn
    · cases hq
    · cases hq
      exact .again hturn' (ih rfl)
  | finished hturn =>
    subst hl
    exact .finished (hturn.sessionTurn_keeping hkeep)
  | broken hturn =>
    subst hl
    obtain hq | ⟨_, _, _, _, _, _, _, hq⟩ := hturn.of_sessionTurn <;> cases hq

/-- The loop can be gone on with: what it refers to is there, as in a matching loop. Inside an
evaluation (`top` is false) it may read from a stream that is an object. -/
structure Loop.Ready (top : Bool) (l : Loop) (s : Interp) : Prop where
  nested : top = false → s.depth ≠ 0
  matching : ∃ M j t, States true M s t ∧ M.Loops top l j

namespace Loop.Ready

variable {top : Bool} {l l' : Loop}

theorem intact (h : l.Ready top s) : s.store.Intact := by
  obtain ⟨M, j, t, hs, _⟩ := h.matching
  exact hs.stores.left

theorem again (h : l.Ready top s) (hturn : l.turn.Ends s (.ok (.again l')) s') :
    l'.Ready top s' := by
  obtain ⟨M, j, t, hs, hl⟩ := h.matching
  obtain ⟨N, q, t', _, hP, hs', _⟩ := States.ends hturn (Alike.turn hl) hs h.nested
  cases hP with
  | again hl' _ => exact ⟨hturn.depth_eq ▸ h.nested, N, _, t', hs', hl'⟩

theorem own_of_depth_eq_zero (h : (session env source mark true keep last).Ready top s)
    (hdepth : s.depth = 0) :
    ∃ stream, source = .own stream := by
  obtain ⟨M, j, t, _, hl⟩ := h.matching
  cases hl with
  | session _ _ _ hsource _ _ =>
    cases hsource with
    | own stream => exact ⟨stream, rfl⟩
    | object _ htop => exact absurd hdepth (h.nested htop)

/-- Once a form has been read the scope is still there, and so is what was read. -/
theorem afterReading (h : (session env source mark true keep last).Ready top s)
    (hread : Effect.readFrom source mark s = some ((read, mark', source'), s₁)) (line : Int) :
    s₁.store.contains env = true ∧
      ∃ M t b read', States true M (s₁.atLine env line) t ∧ M.Pair env b ∧
        M.Readouts read read' := by
  obtain ⟨M, j, t, hs, hl⟩ := h.matching
  cases hl with
  | session _ _ hp hsource _ _ =>
    obtain ⟨N, q, q', s₂, t₁, hq, _, hQ, hs₁⟩ :=
      (Simulation.matching true).answered hs (.readForm hsource mark) h.nested fun hf => by cases hf
    cases hread.symm.trans hq
    have hp₁ := hp.mono hQ.1
    have hlive := hs₁.stores.live_left hp₁
    refine ⟨hlive, ?_⟩
    have hline : N.Values (.num (Int64.ofInt line)) (.num (Int64.ofInt line)) := .num _
    have hask : Asks true N (.define env .streamLine _) (.define _ .streamLine _) _ :=
      .define hp₁ (N.wellKnown (by decide)) hline
    obtain ⟨N₂, _, _, s₃, t₂, hdefine, _, hle, hs₂⟩ :=
      (Simulation.matching true).answered hs₁ hask (fun hf => by cases hf) fun hf => by cases hf
    cases Effect.of_define hdefine
    exact ⟨N₂, t₂, _, _, hs₂, hp₁.mono hle, hQ.2.1.mono hle⟩

theorem exists_text (h : (session env source mark true keep last).Ready top s)
    (hread : Effect.readFrom source mark s = some ((read, mark', source'), s₁)) {line : Int}
    (hends : (Eval.evaluateRead env read).Ends (s₁.atLine env line) (.ok (some r)) s₂) :
    ∃ text, s₂.render? .canonical (Eval.shown r) = some text := by
  obtain ⟨_, M, t, b, read', hs, hp, hr⟩ := h.afterReading hread line
  have halike : Alike true _ M (Eval.evaluateRead env read) (Eval.evaluateRead b read') :=
    .evaluateRead hp hr
  obtain ⟨N, _, t', _, ⟨_, hP⟩, hs', _⟩ := States.ends hends halike hs fun hf => by cases hf
  have hwhole := (Interp.whole_of_states hs').1
  have howns : s₂.Owns (Eval.shown r) := by
    cases hP with
    | ok hP =>
      cases hP with
      | some he =>
        cases he with
        | ok hv => exact Interp.owns_of_states hs' hv
        | error hp => exact Interp.owns_of_states hs' (.ref hp.pair)
  exact howns.render? hwhole.intact hwhole.named .canonical

theorem exists_raise (h : (session env source mark true keep last).Ready top s)
    (hread : Effect.readFrom source mark s = some ((read, mark', source'), s₁)) (line : Int)
    (e : ReadError) :
    ∃ r s₂, (Eval.raise env (.unreadable e) .nil : Eval Value).Ends (s₁.atLine env line) r s₂ := by
  obtain ⟨_, M, t, b, _, hs, hp, _⟩ := h.afterReading hread line
  have hraise : Alike true (Grown M fun N => N.Values) M (Eval.raise env (.unreadable e) .nil)
      (Eval.raise b (.unreadable e) .nil) := .raise hp (.unreadable e) .nil trivial
  exact Simulation.exists_ends (S := .matching true) rfl hraise (.raise env (.unreadable e) .nil) hs
    fun hf => by cases hf

end Loop.Ready

namespace Source

theorem stream?_atLine (s : Interp) (env : Addr) (line : Int) (source : Source) :
    source.stream? (s.atLine env line) = source.stream? s := by
  cases source with
  | own stream => rfl
  | object a =>
    rw [stream?, stream?, Interp.atLine, Store.get?_modifyBindings]
    split_ifs with ha
    · cases s.store.get? a with
      | none => rfl
      | some o => cases o <;> rfl
    · rfl

theorem Holds.atLine (h : source.Holds s text) (env : Addr) (line : Int) :
    source.Holds (s.atLine env line) text := by
  obtain ⟨stream, hstream, hrest⟩ := h
  exact ⟨stream, (stream?_atLine s env line source).trans hstream, hrest⟩

theorem Holds.onlyAdds (h : source.Holds s text) (hg : s.OnlyAdds s') : source.Holds s' text := by
  obtain ⟨stream, hstream, hrest⟩ := h
  have hdisk : s'.disk = s.disk := by rw [hg.storeOnly]
  refine ⟨stream, ?_, hdisk ▸ hrest⟩
  cases source with
  | own => exact hstream
  | object a =>
    rw [stream?] at hstream ⊢
    split at hstream
    · rename_i hget
      rw [hg.changed hget]
      exact hstream
    · cases hstream

theorem Holds.reported (h : source.Holds s text) (hr : s.Reported s')
    (hown : s.depth = 0 → ∃ stream, source = .own stream) :
    source.Holds s' text := by
  obtain ⟨stream, hstream, hrest⟩ := h
  refine ⟨stream, ?_, hr.disk ▸ hrest⟩
  by_cases hdepth : s.depth = 0
  · obtain ⟨own, rfl⟩ := hown hdepth
    exact hstream
  · cases source with
    | own stream => exact hstream
    | object a =>
      rw [stream?, hr.store hdepth]
      exact hstream

/-- If a form is read next, it is evaluated to an end, and then the source holds what it held
before. -/
def FormReturns (env : Addr) (source : Source) (mark : Bookmark) (s : Interp) : Prop :=
  ∀ form mark' source' s₁, Effect.readFrom source mark s =
    some ((.value form, mark', source'), s₁) →
    ∃ fuel r s₂, (s₁.atLine env mark'.line).eval fuel env form = .finished r s₂ ∧
      ∀ text, source'.Holds s₁ text → source'.Holds s₂ text

end Source

/-- A loop and its interpreter come to others by turns after which the loop goes on. -/
inductive Loop.ComesTo : Loop → Interp → Loop → Interp → Prop where
  | here (l : Loop) (s : Interp) : ComesTo l s l s
  | again {l l₁ l' : Loop} {s s₁ s' : Interp} (hturn : l.turn.Ends s (.ok (.again l₁)) s₁)
    (h : ComesTo l₁ s₁ l' s') :
    ComesTo l s l' s'

theorem Loop.ComesTo.keeping {l : Loop}
    (hkeep : keep.filterMap Value.addr? = keep'.filterMap Value.addr?)
    (h : (Loop.session env source mark true keep last).ComesTo s l s') :
    (Loop.session env source mark true keep' last).ComesTo s (l.keeping keep') s' := by
  generalize hl : Loop.session env source mark true keep last = l₀ at h
  induction h generalizing source mark last with
  | here =>
    subst hl
    exact .here _ _
  | again hturn _ ih =>
    subst hl
    have hturn' := hturn.sessionTurn_keeping hkeep
    obtain hq | ⟨_, source', mark', _, v, _, _, hq⟩ := hturn.of_sessionTurn
    · cases hq
    · cases hq
      exact .again hturn' (ih rfl)

/-- A session that reports comes to where its reader got, and to what it comes to from there. -/
theorem Loop.ComesTo.of_session {l : Loop}
    (hread : ∀ t, Effect.readFrom source mark t = some ((read, mark', source'), t))
    (h : (session env source mark true keep last).ComesTo s l s') :
    l = session env source mark true keep last ∨
      read ≠ .ended ∧ ∃ v s₁, (session env source' mark' true keep v).ComesTo s₁ l s' := by
  cases h with
  | here => exact .inl rfl
  | @again _ _ _ _ s₁ _ hturn h =>
    obtain hq | ⟨read', source'', mark'', t, v, hread', hended, hq⟩ := hturn.of_sessionTurn
    · cases hq
    · cases (hread s).symm.trans hread'
      cases hq
      exact .inr ⟨hended, v, s₁, h⟩

namespace Loop.Ready

variable {top : Bool}

/-- After a form or an error the session goes on, with the source as the evaluation has left it. -/
theorem goesOn (h : (session env source mark true keep last).Ready top s) {x : Eval Value}
    (hread : Effect.readFrom source mark s = some ((read, mark', source'), s₁))
    (hx : Eval.evaluateRead env read = (do return some (← Eval.attempt x)))
    (hends : x.Ends (s₁.atLine env (Eval.lineOf read mark')) r s₂) (hkept : source'.Holds s₂ text) :
    ∃ v s', (session env source mark true keep last).turn.Ends s
        (.ok (.again (.session env source' mark' true keep v))) s' ∧
      source'.Holds s' text := by
  have hresult : (Eval.evaluateRead env read).Ends (s₁.atLine env (Eval.lineOf read mark'))
      (.ok (some r)) s₂ := by
    rw [hx]
    exact Eval.ends_attempt_bind.mpr ⟨r, s₂, hends, .done _ _⟩
  obtain ⟨shown, hshown⟩ := h.exists_text hread hresult
  have henv := (h.afterReading hread (Eval.lineOf read mark')).1
  obtain ⟨s', hturn, hreported⟩ := Eval.ends_sessionTurn_again hread henv hresult hshown
  have hown (hdepth : s₂.depth = 0) : ∃ stream, source' = .own stream :=
    (h.again hturn).own_of_depth_eq_zero (hreported.depth.trans hdepth)
  exact ⟨_, s', hturn, hkept.reported hreported hown⟩

theorem step (h : (session env source mark true keep last).Ready top s)
    (hsource : source.Holds s text) (hmark : mark.Regular) (hform : source.FormReturns env mark s) :
    (∃ s', (session env source mark true keep last).turn.Ends s (.ok (.finished last)) s') ∨
    ∃ source' mark' v text' s',
      (session env source mark true keep last).turn.Ends s
        (.ok (.again (.session env source' mark' true keep v))) s' ∧
      source'.Holds s' text' ∧ mark'.Regular ∧
      (mark'.ahead text').length < (mark.ahead text).length := by
  obtain ⟨read, mark', stream', s₁, left, hread, hcont, hholds, hregular, _, hpassed⟩ :=
    Effect.readFrom_advances h.intact.toWellFormed hsource hmark
  have hless (hne : read ≠ .ended) : (mark'.ahead left).length < (mark.ahead text).length := by
    obtain ⟨passed, hne, hahead⟩ := hpassed hne
    have hpos := List.length_pos_iff.mpr hne
    rw [hahead, List.length_append]
    omega
  cases read with
  | ended => exact .inl ⟨_, Eval.ends_sessionTurn_ended hread (h.afterReading hread 0).1⟩
  | value form =>
    obtain ⟨fuel, r, s₂, hrun, hkept⟩ := hform form mark' _ s₁ hread
    have hends := Interp.run_finished_iff.mp ⟨fuel, hrun⟩
    obtain ⟨v, s', hturn, hholds'⟩ := h.goesOn hread rfl hends (hkept left hholds)
    exact .inr ⟨_, mark', v, left, s', hturn, hholds', hregular, hless (by simp)⟩
  | failed e =>
    obtain ⟨r, s₂, hends⟩ := h.exists_raise hread (Eval.lineOf (.failed e) mark') e
    obtain ⟨location, _, rfl⟩ := hends.of_raise
    have hw : (s₁.atLine env (Eval.lineOf (.failed e) mark')).store.WellFormed :=
      hcont.wellFormed.modify _ _
    have hadds := Interp.Alters.alloc hw (.failure ⟨.unreadable e, location, .nil⟩)
    obtain ⟨v, s', hturn, hholds'⟩ :=
      h.goesOn hread rfl hends ((hholds.atLine env _).onlyAdds hadds)
    exact .inr ⟨_, mark', v, left, s', hturn, hholds', hregular, hless (by simp)⟩

/-- A session that reports takes no more turns than it has characters ahead, and a last one. -/
theorem takes (h : (session env source mark true keep last).Ready top s)
    (hsource : source.Holds s text) (hmark : mark.Regular)
    (hforms : ∀ source' mark' v t, (session env source mark true keep last).ComesTo s
      (.session env source' mark' true keep v) t →
      source'.FormReturns env mark' t) :
    ∃ n ≤ (mark.ahead text).length + 1, ∃ v s', (session env source mark true keep last).Takes s n
      (.ok v) s' := by
  -- every turn but the last passes a character, whatever the form that was read or its evaluation
  -- came to
  induction hlength : (mark.ahead text).length
      using Nat.strong_induction_on generalizing source mark last text s with
  | h length ih =>
    obtain ⟨s', hturn⟩ | ⟨source', mark', v, text', s₁, hturn, hsource', hmark', hlt⟩ :=
      h.step hsource hmark (hforms source mark last s (.here _ _))
    · exact ⟨1, by omega, last, s', .finished hturn⟩
    · obtain ⟨n, hn, w, s', htakes⟩ := ih _ (hlength ▸ hlt) (h.again hturn) hsource' hmark'
        (fun source' mark' v t hcomes => hforms source' mark' v t (.again hturn hcomes)) rfl
      exact ⟨n + 1, by omega, w, s', .again hturn htakes⟩

end Loop.Ready

theorem Loop.exists_ready (hs : s.Whole) (henv : s.store.contains env = true)
    (hsource : source.Holds s text) (hown : s.depth = 0 → ∃ stream, source = .own stream)
    (hkeep : ∀ v ∈ keep, s.Owns v) (hlast : s.Owns last) :
    ∃ top, (session env source mark true keep last).Ready top s := by
  have hmatching {top : Bool} (hsources : (Matching.self s).Sources top source source) :
      ∃ M j t, States true M s t ∧ M.Loops top (session env source mark true keep last) j := by
    have hl := Matching.Loops.session mark true (Matching.self_pair henv) hsources
      (Matching.self_lists hkeep)
      (Matching.self_values hlast)
    exact ⟨_, _, s, hs.states, hl⟩
  cases source with
  | own stream =>
    have hnested (hf : true = false) : s.depth ≠ 0 := by cases hf
    exact ⟨true, hnested, hmatching (.own stream)⟩
  | object a =>
    have hdepth : s.depth ≠ 0 := by
      intro hdepth
      obtain ⟨stream, hown⟩ := hown hdepth
      cases hown
    have ha : s.store.contains a = true := by
      obtain ⟨stream, hstream, _⟩ := hsource
      rw [Source.stream?] at hstream
      split at hstream
      · exact Store.contains_iff.mpr ⟨_, ‹_›⟩
      · cases hstream
    exact ⟨false, fun _ => hdepth, hmatching (.object (Matching.self_pair ha) rfl)⟩

/-- Reading from a stream that has an end returns, whatever it holds and however deep forms may be
nested: with nothing only at the end of the stream, and past at least one character otherwise, after
an error too. So a session that reports errors reads at most twice more than there are bytes, if the
forms that it evaluates return and leave the stream alone. (Outside all evaluation its stream is not
an object, which a collection could empty.) It does not fail. -/
theorem Interp.reading_makes_progress :
    (∀ s : Interp, ∀ source mark text, s.store.WellFormed → source.Holds s text → mark.Regular →
      ∃ r mark' source' s' left, Effect.readFrom source mark s = some ((r, mark', source'), s') ∧
        source'.Holds s' left ∧ mark'.Regular ∧
        (r = .ended → mark'.peek = .ended ∧ (mark.peek ≠ .ended → left = [])) ∧
        (r ≠ .ended → ∃ passed ≠ [], mark.ahead text = passed ++ mark'.ahead left)) ∧
    (∀ s : Interp, ∀ env source keep text, s.Whole → s.store.contains env = true →
      source.Holds s text → (s.depth = 0 → ∃ stream, source = .own stream) →
      (∀ v ∈ keep, v.Live s.store) →
      (∀ source' mark' v t, (Loop.session env source .start true keep .nil).ComesTo s
        (.session env source' mark' true keep v) t →
        source'.FormReturns env mark' t) →
      ∃ n ≤ text.length + 2, ∃ v s',
        (Loop.session env source .start true keep .nil).Takes s n (.ok v) s' ∧
        ∃ fuel, s.run fuel (Eval.iterate (.session env source .start true keep .nil)) =
          .finished (.ok v) s') ∧
    (∀ s : Interp, ∀ env source mark keep last fuel r s',
      s.run fuel (Eval.iterate (.session env source mark true keep last)) = .finished r s' →
      ∃ v, r = .ok v) ∧
    (∀ s : Interp, ∀ env scope source name fuel r s', s.store.get? env = some (.scope scope) →
      s.run fuel (Eval.runStream env source name true) = .finished r s' → ∃ v, r = .ok v) := by
  refine ⟨?_, ?_, ?_, ?_⟩
  · intro s source mark text hw hsource hmark
    obtain ⟨r, mark', stream', s', left, hread, _, hrest⟩ :=
      Effect.readFrom_advances hw hsource hmark
    exact ⟨r, mark', _, s', left, hread, hrest⟩
  · intro s env source keep text hs henv hsource hown hkeep hforms
    -- the symbols among what is kept need no names, since only the addresses count
    have hrefs : ∀ v ∈ keep.filter (·.addr?.isSome), s.Owns v := by
      intro v hv
      obtain ⟨hv, haddr⟩ := List.mem_filter.mp hv
      cases v with
      | num n | sym x => cases haddr
      | ref a => exact ⟨hkeep _ hv, by simp [Value.Named]⟩
    have hsame := Value.filterMap_addr?_filter keep
    obtain ⟨top, hready⟩ := Loop.exists_ready hs henv hsource hown hrefs hs.owns_nil
    obtain ⟨n, hn, v, s', htakes⟩ := hready.takes hsource Bookmark.start_regular
      fun source' mark' v t hcomes => hforms source' mark' v t (hcomes.keeping hsame)
    replace htakes := htakes.keeping hsame
    refine ⟨n, hn, v, s', htakes, ?_⟩
    exact Interp.run_finished_iff.mpr (Eval.ends_iterate.mpr ⟨n, htakes⟩)
  · intro s env source mark keep last fuel r s' h
    obtain ⟨n, htakes⟩ := Eval.ends_iterate.mp (Interp.run_finished_iff.mp ⟨fuel, h⟩)
    exact htakes.exists_ok
  · intro s env scope source name fuel r s' henv h
    obtain ⟨s₁, n, htakes, _⟩ := (Interp.run_finished_iff.mp ⟨fuel, h⟩).of_runStream henv
    exact htakes.exists_ok

/-- A stray parenthesis and a number, where no form may be nested: the session goes on after the
error. -/
theorem Interp.reading_makes_progress_stray :
    let s := Interp.new ⟨0, 0, true⟩ .empty 0
    let text := Bytes.ofString ")1"
    (∃ r mark' source' s' left, Effect.readFrom (.own (.memory text)) .start s =
      some ((r, mark', source'), s') ∧
      (r ≠ .ended → ∃ passed ≠ [], Bookmark.start.ahead text = passed ++ mark'.ahead left)) ∧
    (∃ n ≤ 4, ∃ v s', (Loop.session s.root (.own (.memory text)) .start true [] .nil).Takes s n
      (.ok v) s') ∧
    ∃ v s', s.run 100 (Eval.runStream s.root (.own (.memory text)) [] true) =
      .finished (.ok v) s' := by
  intro s text
  have hsound : s.Sound := Interp.new_sound _ _ _
  obtain ⟨scope, hroot⟩ := hsound.root
  have hstray (t : Interp) : Effect.readFrom (.own (.memory text)) .start t =
      some ((.failed ⟨.unexpected ')', some 1, []⟩, ⟨.byte 49, 1⟩, .own (.memory [])), t) := by
        with_unfolding_all rfl
  have hone (t : Interp) : Effect.readFrom (.own (.memory [])) ⟨.byte 49, 1⟩ t =
      some ((.value (.num 1), ⟨.ended, 1⟩, .own (.memory [])), t) := by with_unfolding_all rfl
  have hend (t : Interp) : Effect.readFrom (.own (.memory [])) ⟨.ended, 1⟩ t =
      some ((.ended, ⟨.ended, 1⟩, .own (.memory [])), t) := by rfl
  have hsource : (Source.own (.memory text)).Holds s text := ⟨_, rfl, trivial, rfl⟩
  have hkeep : ∀ v ∈ ([] : List Value), v.Live s.store := by simp
  have hforms (source : Source) (mark : Bookmark) (v : Value) (t : Interp)
      (h : (Loop.session s.root (.own (.memory text)) .start true [] .nil).ComesTo s
          (.session s.root source mark true [] v) t) :
      source.FormReturns s.root mark t := by
    intro form mark' source' s₁ hread
    obtain heq | ⟨_, w, t₁, h⟩ := h.of_session hstray
    · cases heq
      cases (hstray t).symm.trans hread
    obtain heq | ⟨_, w, t₂, h⟩ := h.of_session hone
    · cases heq
      cases (hone t).symm.trans hread
      exact ⟨1, .ok (.num 1), _, rfl, fun text h => h.atLine _ _⟩
    obtain heq | ⟨hne, _⟩ := h.of_session hend
    · cases heq
      cases (hend t).symm.trans hread
    · exact absurd rfl hne
  have hfinished :
      (s.run 100 (Eval.runStream s.root (.own (.memory text)) [] true)).isFinished = true := by
    decide +kernel
  obtain ⟨r, s₁, hrun⟩ := Outcome.exists_of_isFinished hfinished
  obtain ⟨hreads, hturns, _, hok⟩ := reading_makes_progress
  refine ⟨?_, ?_, ?_⟩
  · obtain ⟨r, mark', source', s', left, hread, _, _, _, hpassed⟩ :=
      hreads s _ .start text hsound.intact.toWellFormed hsource Bookmark.start_regular
    exact ⟨r, mark', source', s', left, hread, hpassed⟩
  · obtain ⟨n, hn, v, s', htakes, _⟩ := hturns s s.root _ [] text hsound.toWhole
      (Store.contains_iff.mpr ⟨_, hroot⟩) hsource (fun _ => ⟨_, rfl⟩) hkeep hforms
    exact ⟨n, hn, v, s', htakes⟩
  · obtain ⟨v, rfl⟩ := hok s s.root scope _ [] 100 r s₁ hroot hrun
    exact ⟨v, s₁, hrun⟩

end HeapLisp
