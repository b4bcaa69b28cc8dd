import HeapLisp.Proofs.Machine.Levels
import HeapLisp.Proofs.Matching.Primitive

namespace HeapLisp

/-- Both effects are answered, with replies that `Q` relates, in states that `R` relates. -/
def Answered (R : Matching → Interp → Interp → Prop) (e f : Effect)
    (Q : Matching → e.Reply → f.Reply → Prop) (s t : Interp) : Prop :=
  ∃ N r r' s' t', e.perform s = some (r, s') ∧ f.perform t = some (r', t') ∧ Q N r r' ∧ R N s' t'

theorem Answered.imp {R R' : Matching → Interp → Interp → Prop} {e f : Effect}
    {Q : Matching → e.Reply → f.Reply → Prop} {s t : Interp} (h : Answered R e f Q s t)
    (hR : ∀ N s' t', R N s' t' → R' N s' t') : Answered R' e f Q s t := by
  obtain ⟨N, r, r', s', t', he, hf, hq, hs⟩ := h
  exact ⟨N, r, r', s', t', he, hf, hq, hR N s' t' hs⟩

/-- A relation between interpreters under a matching that every effect keeps. If it is not `timed`,
the clocks may differ and must not be read. -/
structure Simulation where
  timed : Bool
  states : Matching → Interp → Interp → Prop
  depth_eq {M : Matching} {s t : Interp} : states M s t → s.depth = t.depth
  maxDepth_eq {M : Matching} {s t : Interp} : states M s t → s.config.maxDepth = t.config.maxDepth
  withDepth {M : Matching} {s t : Interp} (n : Nat) : states M s t →
    states M { s with depth := n } { t with depth := n }
  answered {top : Bool} {M : Matching} {s t : Interp} {e f : Effect}
      {Q : Matching → e.Reply → f.Reply → Prop} :
    states M s t → Asks top M e f Q → (top = false → s.depth ≠ 0) → (timed = false → e ≠ .clock) →
      Answered states e f Q s t

namespace Machine

/-- Whether the next step reads the clock. -/
def readsClock : Machine → Bool
  | ⟨.effect .clock _, _, _⟩ => true
  | _ => false

/-- Whether no step of a run reads the clock. -/
def untimed : (fuel : Nat) → Machine → Bool
  | 0, _ => true
  | fuel + 1, m =>
    !m.readsClock && match m.step with
      | .running m => untimed fuel m
      | _ => true

end Machine

/-- Matching stacks of callers. The evaluation that they wait for ends as the second index says;
only the one that nothing waits for is outside all evaluation. -/
inductive Waiting (P : Post Value) : Bool → Post Value → List Frame → List Frame → Prop where
  | base : Waiting P true P [] []
  | frame {M : Matching} {top : Bool} {Q : Post Value} {k l : Frame} {ks ls : List Frame}
    (h : Waiting P top Q ks ls)
    (hk : ∀ N r t, M ≤ N → N.Ending N.Values r t → Alike top Q N (k r) (l t)) :
    Waiting P false (Grown M fun N => N.Values) (k :: ks) (l :: ls)

section

variable (R : Matching → Interp → Interp → Prop) (P : Post Value)

/-- Machines in states that `R` relates, with matching evaluations and callers. -/
structure Machine.Matched (M : Matching) (m m' : Machine) : Prop where
  intro ::
  states : R M m.interp m'.interp
  depth_eq : m.interp.depth = m.stack.length
  running : ∃ top Q, Waiting P top Q m.stack m'.stack ∧ Alike top Q M m.eval m'.eval

/-- Both machines go on, or both come to matching ends. -/
inductive Progress.Matched : Progress → Progress → Prop where
  | running {N : Matching} {m m' : Machine} (h : m.Matched R P N m') :
    Progress.Matched (.running m) (.running m')
  | finished {N : Matching} {r t : Except Addr Value} {s s' : Interp} (h : P N r t) (hs : R N s s')
    (hd : s.depth = 0) : Progress.Matched (.finished r s) (.finished t s')

end

namespace Simulation

variable (S : Simulation)

abbrev Machines (P : Post Value) (M : Matching) (m m' : Machine) : Prop := m.Matched S.states P M m'

/-- Both runs come to matching ends, or neither has come to its end. -/
inductive Outcomes (P : Post Value) : Outcome → Outcome → Prop where
  | finished {N : Matching} {r t : Except Addr Value} {s s' : Interp} (h : P N r t)
    (hs : S.states N s s')
    (hd : s.depth = 0) : Outcomes P (.finished r s) (.finished t s')
  | outOfFuel : Outcomes P .outOfFuel .outOfFuel

end Simulation

theorem Alike.unroll {top : Bool} {Q : Post Value} {M : Matching} {i j : Loop} {k l : Frame}
    (h : M.Loops top i j) (hk : ∀ N r t, Matching.After top M N i j → N.Ending N.Values r t →
      Alike top Q N (k r) (l t)) :
    Alike top Q M (i.unroll k) (j.unroll l) := by
  refine (turn h).resume fun N r t ht => ?_
  cases ht with
  | again hl ha => exact .loop hl fun N' r t ha' he => hk N' r t (ha N' ha') he
  | finished hv ha => exact hk N _ _ ha (.ok hv)
  | error he ha => exact hk N _ _ ha (.error he)

namespace Machine.Matched

variable {R R' : Matching → Interp → Interp → Prop} {P : Post Value} {M : Matching} {m m' : Machine}

theorem ended {top : Bool} {Q : Post Value} {ks ls : List Frame} {s t : Interp}
    {r r' : Except Addr Value} (hs : ∀ n, R M { s with depth := n } { t with depth := n })
    (hst : R M s t) (hdepth : s.depth = t.depth) (hd : s.depth = ks.length)
    (hw : Waiting P top Q ks ls) (hq : Q M r r') :
    Progress.Matched R P (Machine.step ⟨.ofExcept r, ks, s⟩)
      (Machine.step ⟨.ofExcept r', ls, t⟩) := by
  cases hw with
  | base => cases r <;> cases r' <;> exact .finished hq hst hd
  | @frame _ top Q k l ks ls hw hk =>
    have hup : Progress.Matched R P (.running ⟨k r, ks, { s with depth := s.depth - 1 }⟩)
        (.running ⟨l r', ls, { t with depth := t.depth - 1 }⟩) := by
      rw [← hdepth, hd, List.length_cons, Nat.add_sub_cancel]
      exact .running ⟨hs _, rfl, top, Q, hw, hk M r r' hq.1 hq.2⟩
    cases r <;> cases r' <;> exact hup

/-- Matching machines go on alike if their next effects are answered alike. What relates the states
after the step (`R'`) may refer to those before it. -/
theorem step (h : m.Matched R P M m') (hdepth : m.interp.depth = m'.interp.depth)
    (hmax : m.interp.config.maxDepth = m'.interp.config.maxDepth)
    (hself : ∀ n, R' M { m.interp with depth := n } { m'.interp with depth := n })
    (hanswer : ∀ {top e f Q k l}, m.eval = .effect e k → m'.eval = .effect f l → Asks top M e f Q →
      (top = false → m.interp.depth ≠ 0) → Answered R' e f Q m.interp m'.interp) :
    Progress.Matched R' P m.step m'.step := by
  obtain ⟨x, ks, s⟩ := m
  obtain ⟨y, ls, t⟩ := m'
  obtain ⟨_, hd, top, Q, hw, hx⟩ := h
  have hst : R' M s t := by
    have hsame := hself s.depth
    rwa [show { t with depth := s.depth } = t from by rw [hdepth]] at hsame
  cases hx with
  | done hq => exact ended hself hst hdepth hd hw hq
  | fail hq => exact ended hself hst hdepth hd hw hq
  | @effect _ e f R k l he hk =>
    have hnested : top = false → s.depth ≠ 0 := by
      rintro rfl
      cases hw with
      | frame => exact hd ▸ Nat.succ_ne_zero _
    obtain ⟨N, r, r', s', t', hr, hr', hq, hs'⟩ := hanswer rfl rfl he hnested
    have hd' := Effect.perform_depth hr
    rw [Machine.step, Machine.step, hr, hr']
    exact .running ⟨hs', hd'.trans hd, top, Q, hw, hk N r r' hq⟩
  | @call _ c d k l hc hk =>
    rw [Machine.step, Machine.step, ← hdepth, ← hmax]
    split
    · refine .running ⟨hself _, congrArg (· + 1) hd, false, _, .frame hw hk, Alike.body hc⟩
    · refine .running ⟨hst, hd, top, Q, hw, ?_⟩
      exact (Alike.refusal hc).resume fun N r r' hr => hk N r r' hr.1 hr.2
  | @native _ a b n vs ws k l htop ha hargs hk =>
    subst htop
    refine .running ⟨hst, hd, false, Q, hw, ?_⟩
    exact (Alike.runNative ha n hargs).resume fun N r r' hr => hk N r r' hr.1 hr.2
  | loop hl hk => exact .running ⟨hst, hd, top, Q, hw, Alike.unroll hl hk⟩

end Machine.Matched

namespace Simulation

variable {S : Simulation} {P : Post Value} {M : Matching} {m m' : Machine}

theorem step (h : S.Machines P M m m') (hu : S.timed = false → m.readsClock = false) :
    Progress.Matched S.states P m.step m'.step := by
  refine h.step (S.depth_eq h.states) (S.maxDepth_eq h.states) (fun n => S.withDepth n h.states) ?_
  intro top e f Q k l hx _ he hnested
  refine S.answered h.states he hnested fun hf => ?_
  rintro rfl
  obtain ⟨x, ks, s⟩ := m
  cases hx
  cases hu hf

theorem run (h : S.Machines P M m m') (fuel : Nat) (hu : S.timed = false → m.untimed fuel = true) :
    S.Outcomes P (m.run fuel) (m'.run fuel) := by
  induction fuel generalizing M m m' with
  | zero => exact .outOfFuel
  | succ fuel ih =>
    rw [Machine.untimed, Bool.and_eq_true, Bool.not_eq_true'] at hu
    have hstep := step h fun hf => (hu hf).1
    rw [Machine.run, Machine.run]
    generalize m.step = p, m'.step = p' at hstep hu ⊢
    cases hstep with
    | running h => exact ih h fun hf => (hu hf).2
    | finished h hs hd => exact .finished h hs hd

end Simulation

end HeapLisp
