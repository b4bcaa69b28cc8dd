import HeapLisp.Eval.Control
import HeapLisp.Proofs.Matching.Session

namespace HeapLisp

namespace Matching

variable {M N : Matching} {vs ws : List Value}

/-- Pairs of matching values. -/
def Twos (M : Matching) : List (Value × Value) → List (Value × Value) → Prop :=
  List.Forall₂ fun p q => M.Values p.1 q.1 ∧ M.Values p.2 q.2

theorem Twos.mono {ps qs : List (Value × Value)} (h : M.Twos ps qs) (hle : M ≤ N) : N.Twos ps qs :=
  List.Forall₂.imp (fun _ _ h => ⟨h.1.mono hle, h.2.mono hle⟩) h

/-- As many values as make pairs do. -/
theorem Lists.pairs? (h : M.Lists vs ws) (heven : vs.length % 2 = 0) :
    ∃ ps qs, Eval.pairs? vs = some ps ∧ Eval.pairs? ws = some qs ∧ M.Twos ps qs := by
  induction vs using Eval.pairs?.induct generalizing ws with
  | case1 =>
    cases h
    exact ⟨[], [], rfl, rfl, .nil⟩
  | case2 v => cases heven
  | case3 v v' vs ih =>
    obtain ⟨w, _, hv, h₁, rfl⟩ := List.forall₂_cons_left_iff.mp h
    obtain ⟨w', ws, hv', h₂, rfl⟩ := List.forall₂_cons_left_iff.mp h₁
    rw [List.length_cons, List.length_cons] at heven
    obtain ⟨ps, qs, hps, hqs, htwos⟩ := ih h₂ (by omega)
    exact ⟨(v, v') :: ps, (w, w') :: qs, by rw [Eval.pairs?, hps, Option.map_some],
      by rw [Eval.pairs?, hqs, Option.map_some], .cons ⟨hv, hv'⟩ htwos⟩

theorem Lists.arePairs_eq (h : M.Lists vs ws) : Eval.arePairs vs = Eval.arePairs ws := by
  rw [Eval.arePairs, Eval.arePairs, List.Forall₂.length_eq h]
  cases h <;> rfl

end Matching

namespace Alike

variable {top : Bool} {M : Matching} {a b : Addr} {v w : Value} {vs ws : List Value}
  {ps qs : List (Value × Value)}

theorem inPairs (hs : M.Lists vs ws) (heven : vs.length % 2 = 0) :
    Alike top (Grown M fun N => N.Twos) M (Eval.inPairs vs) (Eval.inPairs ws) := by
  obtain ⟨ps, qs, hps, hqs, htwos⟩ := hs.pairs? heven
  rw [Eval.inPairs, Eval.inPairs, hps, hqs]
  exact pure htwos

theorem makeClosure (h : M.Pair a b) (kind : ClosureKind) (hv : M.Values v w) (hs : M.Lists vs ws) :
    Alike top (Grown M fun N => N.Values) M (Eval.makeClosure a kind v vs)
      (Eval.makeClosure b kind w ws) := by
  refine (itemsOrNone hv).bind fun N₁ r t h₁ hq => ?_
  obtain ⟨hi, hnone, hsome⟩ := hq
  cases hi with
  | none => exact raise (h.mono h₁) .notList (hv.mono h₁) (hnone rfl)
  | some =>
    obtain ⟨p, q, rfl, rfl, hp⟩ := hsome rfl
    refine perform (.allocForm kind hp (hs.mono h₁)) fun N₂ c d hq => Alike.weaken ?_ hq.1
    obtain ⟨h₂, hc⟩ := hq
    exact alloc (.function (.closure ⟨rfl, hc, (h.mono h₁).mono h₂⟩)) trivial

theorem cond (h : M.Pair a b) (hs : M.Lists vs ws) :
    Alike top (Grown M fun N => N.Values) M (Eval.cond a vs) (Eval.cond b ws) := by
  induction vs generalizing M ws with
  | nil =>
    cases hs with
    | nil => exact pure .nil
  | cons v vs ih =>
    cases hs with
    | cons hv hs =>
      refine (itemsOf hv).bind fun N₁ r t h₁ hr => ?_
      have refused : Alike top (Grown N₁ fun N => N.Values) N₁ _ _ :=
        raise (h.mono h₁) .notClause (hv.mono h₁) trivial
      cases hr with
      | none => exact refused
      | some hr =>
        cases hr with
        | nil => exact refused
        | cons ht hb =>
          refine (evaluate (h.mono h₁) ht).bind fun N₂ x y h₂ hx => ?_
          have hM := h₁.trans h₂
          rw [hx.isNil_eq]
          split
          · exact ih (h.mono hM) (.mono hs hM)
          · cases hb with
            | nil => exact pure hx
            | cons hb hbs => exact sequence (h.mono hM) .nil (.mono (.cons hb hbs) h₂)

theorem defineAll (h : M.Pair a b) (hv : M.Values v w) (hs : M.Twos ps qs) :
    Alike top (Grown M fun N => N.Values) M (Eval.defineAll a v ps) (Eval.defineAll b w qs) := by
  induction ps generalizing M v w qs with
  | nil =>
    cases hs with
    | nil => exact pure hv
  | cons p ps ih =>
    cases hs with
    | cons hp hs =>
      refine (symArg h hp.1).bind fun N₁ s t h₁ he => ?_
      obtain ⟨hs₁, rfl⟩ := he
      refine (evaluate (h.mono h₁) (hp.2.mono h₁)).bind fun N₂ x y h₂ hx => ?_
      have hM := h₁.trans h₂
      refine (define (h.mono hM) (hs₁.mono h₂) hx).bind fun N₃ _ _ h₃ _ => ?_
      have hM := hM.trans h₃
      exact ih (h.mono hM) (hx.mono h₃) (.mono hs hM)

theorem assignAll (h : M.Pair a b) (hv : M.Values v w) (hs : M.Twos ps qs) :
    Alike top (Grown M fun N => N.Values) M (Eval.assignAll a v ps) (Eval.assignAll b w qs) := by
  induction ps generalizing M v w qs with
  | nil =>
    cases hs with
    | nil => exact pure hv
  | cons p ps ih =>
    cases hs with
    | cons hp hs =>
      refine (symArg h hp.1).bind fun N₁ s t h₁ he => ?_
      obtain ⟨hs₁, rfl⟩ := he
      refine (evaluate (h.mono h₁) (hp.2.mono h₁)).bind fun N₂ x y h₂ hx => ?_
      have hM := h₁.trans h₂
      refine (assign (h.mono hM) (hs₁.mono h₂) hx).bind fun N₃ r t h₃ he => ?_
      subst he
      have hM := hM.trans h₃
      split
      · exact ih (h.mono hM) (hx.mono h₃) (.mono hs hM)
      · exact raise (h.mono hM) .unboundSymbol (hp.1.mono hM) trivial

/-- A new scope inside the one that a form gives, or inside none. -/
theorem scopeForm (h : M.Pair a b) (hv : M.Values v w) :
    Alike top (Grown M fun N => N.Values) M (Eval.runSpecial a .scope [v])
      (Eval.runSpecial b .scope [w]) := by
  refine (evaluate h hv).bind fun N₁ x y h₁ hx => ?_
  rw [hx.isNil_eq]
  split
  · exact alloc (.scope .empty .none) trivial
  · exact (scopeArg (h.mono h₁) hx).bind fun N₂ c d _ hc => alloc (.scope .empty (.some hc)) trivial

theorem catchForm (h : M.Pair a b) (hs : M.Lists vs ws) :
    Alike top (Grown M fun N => N.Values) M (Eval.runSpecial a .catchError vs)
      (Eval.runSpecial b .catchError ws) := by
  refine (sequence h .nil hs).attempt.bind fun N r t _ hr => ?_
  cases hr with
  | ok hv => exact pure hv
  | error he => exact pure (.ref he.pair)

theorem defineExpander {p q x y : Value} (h : M.Pair a b) (hp : M.Values p q) (hx : M.Values x y)
    (hs : M.Lists vs ws) :
    Alike top (Grown M fun N => N.Values) M (Eval.runSpecial a .defineExpander (p :: x :: vs))
      (Eval.runSpecial b .defineExpander (q :: y :: ws)) := by
  refine (symArg h hp).bind fun N₁ s t h₁ he => ?_
  obtain ⟨hs₁, rfl⟩ := he
  refine (makeClosure (h.mono h₁) .expander (hx.mono h₁) (hs.mono h₁)).bind fun N₂ f g h₂ hf => ?_
  refine (define ((h.mono h₁).mono h₂) (hs₁.mono h₂) hf).bind fun N₃ _ _ h₃ _ => ?_
  exact pure (hf.mono h₃)

/-- What is done with arguments in pairs. -/
theorem onPairs {f g : List (Value × Value) → Eval Value} (h : M.Pair a b) (hs : M.Lists vs ws)
    (hf : ∀ {N ps qs}, M ≤ N → N.Twos ps qs →
      Alike top (Grown N fun N => N.Values) N (f ps) (g qs)) :
    Alike top (Grown M fun N => N.Values) M
      (if Eval.arePairs vs then Eval.inPairs vs >>= f else Eval.refuseArgs a vs)
      (if Eval.arePairs ws then Eval.inPairs ws >>= g else Eval.refuseArgs b ws) := by
  rw [← hs.arePairs_eq]
  split
  · rename_i hpairs
    have heven : vs.length % 2 = 0 := by
      rw [Eval.arePairs, Bool.and_eq_true, beq_iff_eq] at hpairs
      exact hpairs.2
    exact (inPairs hs heven).bind fun N ps qs hle htwos => hf hle htwos
  · exact refuseArgs h hs

theorem runSpecial (h : M.Pair a b) (form : SpecialForm) (hs : M.Lists vs ws) :
    Alike false (Grown M fun N => N.Values) M (Eval.runSpecial a form vs)
      (Eval.runSpecial b form ws) := by
  cases form with
  | catchError => exact catchForm h hs
  | cond => exact cond h hs
  | define => exact onPairs h hs fun hle htwos => defineAll (h.mono hle) .nil htwos
  | assign => exact onPairs h hs fun hle htwos => assignAll (h.mono hle) .nil htwos
  | lambda =>
    cases hs with
    | nil => exact refuseArgs h .nil
    | cons hv hs => exact makeClosure h .lambda hv hs
  | expander =>
    cases hs with
    | nil => exact refuseArgs h .nil
    | cons hv hs => exact makeClosure h .expander hv hs
  | loop =>
    cases hs with
    | nil => exact refuseArgs h .nil
    | cons hv hs =>
      refine (iterate (.repeating h hv hs .nil)).imp fun N r t hq => ?_
      obtain ⟨ha, he⟩ := hq
      cases ha with
      | repeating hle => exact ⟨hle, he⟩
  | defineExpander =>
    cases hs with
    | nil => exact refuseArgs h .nil
    | cons hp hs =>
      cases hs with
      | nil => exact refuseArgs h (.cons hp .nil)
      | cons hx hs => exact defineExpander h hp hx hs
  | quote =>
    cases hs with
    | nil => exact refuseArgs h .nil
    | cons hv hs =>
      cases hs with
      | nil => exact pure hv
      | cons hx hs => exact refuseArgs h (.cons hv (.cons hx hs))
  | template =>
    cases hs with
    | nil => exact refuseArgs h .nil
    | cons hv hs =>
      cases hs with
      | nil => exact fill h hv
      | cons hx hs => exact refuseArgs h (.cons hv (.cons hx hs))
  | scope =>
    cases hs with
    | nil => exact pure (.ref h)
    | cons hv hs =>
      cases hs with
      | nil => exact scopeForm h hv
      | cons hx hs => exact refuseArgs h (.cons hv (.cons hx hs))

theorem scopeAndPairs (h : M.Pair a b) (hs : M.Lists vs ws) :
    Alike top (Grown M fun N r t => N.Pair r.1 t.1 ∧ N.Twos r.2 t.2) M (Eval.scopeAndPairs a vs)
      (Eval.scopeAndPairs b ws) := by
  have hlength := List.Forall₂.length_eq hs
  unfold Eval.scopeAndPairs
  rw [← hlength]
  split
  · exact refuseArgs h hs
  · rename_i hcount
    cases hs with
    | nil => simp at hcount
    | @cons v w vs ws hv hs =>
      rw [List.length_cons] at hcount
      refine (scopeArg h hv).bind fun N c d hle hc => ?_
      have hpairs : Alike top _ N _ _ := inPairs (Matching.Lists.mono hs hle) (by omega)
      exact hpairs.bind fun N₂ ps qs h₂ htwos => pure ⟨hc.mono h₂, htwos⟩

theorem defineIn {c d : Addr} (h : M.Pair a b) (hc : M.Pair c d) (hv : M.Values v w)
    (hs : M.Twos ps qs) :
    Alike top (Grown M fun N => N.Values) M (Eval.defineIn a c v ps) (Eval.defineIn b d w qs) := by
  induction ps generalizing M v w qs with
  | nil =>
    cases hs with
    | nil => exact pure hv
  | cons p ps ih =>
    cases hs with
    | cons hp hs =>
      refine (symArg h hp.1).bind fun N₁ s t h₁ he => ?_
      obtain ⟨hs₁, rfl⟩ := he
      refine (define (hc.mono h₁) hs₁ (hp.2.mono h₁)).bind fun N₂ _ _ h₂ _ => ?_
      have hM := h₁.trans h₂
      exact ih (h.mono hM) (hc.mono hM) (hp.2.mono hM) (.mono hs hM)

theorem assignIn {c d : Addr} (h : M.Pair a b) (hc : M.Pair c d) (hv : M.Values v w)
    (hs : M.Twos ps qs) :
    Alike top (Grown M fun N => N.Values) M (Eval.assignIn a c v ps) (Eval.assignIn b d w qs) := by
  induction ps generalizing M v w qs with
  | nil =>
    cases hs with
    | nil => exact pure hv
  | cons p ps ih =>
    cases hs with
    | cons hp hs =>
      refine (symArg h hp.1).bind fun N₁ s t h₁ he => ?_
      obtain ⟨hs₁, rfl⟩ := he
      refine (assign (hc.mono h₁) hs₁ (hp.2.mono h₁)).bind fun N₂ r t h₂ he => ?_
      subst he
      have hM := h₁.trans h₂
      split
      · exact ih (h.mono hM) (hc.mono hM) (hp.2.mono hM) (.mono hs hM)
      · exact raise (h.mono hM) .unboundSymbol (hp.1.mono hM) trivial

end Alike

end HeapLisp
