import HeapLisp.Eval.Form
import HeapLisp.Proofs.Matching.Arguments

namespace HeapLisp.Alike

variable {top : Bool} {M : Matching} {a b : Addr} {v w : Value} {vs ws : List Value}

theorem evaluate (h : M.Pair a b) (hv : M.Values v w) :
    Alike top (Grown M fun N => N.Values) M (Eval.evaluate a v) (Eval.evaluate b w) := by
  cases hv with
  | num n => exact pure (.num n)
  | @sym s hs =>
    refine (lookup h s).bind fun N r t hle hr => ?_
    cases hr with
    | none => exact raise (h.mono hle) .unboundSymbol (.sym (hs.mono hle)) trivial
    | some hr => exact pure hr
  | ref hr =>
    refine (fetch hr).bind fun N o p hle ho => ?_
    have hr := hr.mono hle
    generalize hi : o.items? = is, hj : p.items? = js
    have hs := ho.2.items?
    rw [hi, hj] at hs
    cases hs with
    | none => exact pure (.ref hr)
    | some hs =>
      cases hs with
      | nil => exact pure (.ref hr)
      | cons hh ha => exact enter ⟨h.mono hle, .ref hr, .combine hh ha⟩

theorem evaluateOnto {xs ys : List Value} (h : M.Pair a b) (hx : M.Lists xs ys)
    (hs : M.Lists vs ws) :
    Alike top (Grown M fun N => N.Lists) M (Eval.evaluateOnto a xs vs)
      (Eval.evaluateOnto b ys ws) := by
  induction vs generalizing M xs ys ws with
  | nil =>
    cases hs with
    | nil => exact pure hx.reverse
  | cons v vs ih =>
    cases hs with
    | cons hv hs =>
      exact (evaluate h hv).bind fun N r t hle hr => ih (h.mono hle) ((hx.mono hle).cons hr)
        (.mono hs hle)

theorem evaluateAll (h : M.Pair a b) (hs : M.Lists vs ws) :
    Alike top (Grown M fun N => N.Lists) M (Eval.evaluateAll a vs) (Eval.evaluateAll b ws) :=
  evaluateOnto h .nil hs

theorem sequence (h : M.Pair a b) (hv : M.Values v w) (hs : M.Lists vs ws) :
    Alike top (Grown M fun N => N.Values) M (Eval.sequence a v vs) (Eval.sequence b w ws) := by
  induction vs generalizing M v w ws with
  | nil =>
    cases hs with
    | nil => exact pure hv
  | cons x xs ih =>
    cases hs with
    | cons hx hs => exact (evaluate h hx).bind fun N r t hle hr => ih (h.mono hle) hr (.mono hs hle)

theorem functionOf (hv : M.Values v w) :
    Alike top (Grown M fun N => Option.Rel N.Functions) M (Eval.functionOf v)
      (Eval.functionOf w) := by
  cases hv with
  | num n => exact pure .none
  | sym s => exact pure .none
  | ref hr =>
    refine (fetch hr).bind fun N o p hle ho => ?_
    cases ho.2 with
    | function hf => exact pure (.some hf)
    | str | list | scope | failure | input | output => exact pure .none

theorem bindOne {x y : Value} (h : M.Pair a b) (hx : M.Values x y) (hv : M.Values v w) :
    Alike top (Grown M fun _ _ _ => True) M (Eval.bindOne a x v) (Eval.bindOne b y w) := by
  cases hx with
  | num n => exact raise h .notSymbol (.num n) trivial
  | sym hs => exact define h hs hv
  | ref hr =>
    refine (fetch hr).bind fun N₁ o p h₁ ho => ?_
    have hr := hr.mono h₁
    have h := h.mono h₁
    cases ho.2 with
    | list =>
      refine (itemsOrNone (hv.mono h₁)).bind fun N₂ r t h₂ hq => ?_
      obtain ⟨hs, hnone, _⟩ := hq
      cases hs with
      | none => exact raise (h.mono h₂) .notList ((hv.mono h₁).mono h₂) (hnone rfl)
      | some hs =>
        exact (enter ⟨h.mono h₂, .ref (hr.mono h₂), .bind (.ref (hr.mono h₂)) hs⟩).bind
          fun _ _ _ _ _ => pure trivial
    | str | scope | function | failure | input | output =>
      exact raise h .notSymbol (.ref hr) trivial

theorem bindNames {p q : Value} {as bs ns ms ls ks : List Value} (h : M.Pair a b)
    (hp : M.Values p q) (ha : M.Lists as bs) (hn : M.Lists ns ms) (hl : M.Lists ls ks)
    (optional : Bool) :
    Alike top (Grown M fun _ _ _ => True) M (Eval.bindNames a p as ns ls optional)
      (Eval.bindNames b q bs ms ks optional) := by
  induction ns generalizing M ms ls ks optional with
  | nil =>
    cases hn with
    | nil =>
      cases hl with
      | nil => exact pure trivial
      | cons => exact refuseArgs h ha
  | cons n ns ih =>
    cases hn with
    | @cons _ m _ ms hm hn =>
      unfold Eval.bindNames
      by_cases hrest : n = .sym .rest
      · rw [if_pos hrest, if_pos ((hm.eq_sym_iff _).mp hrest)]
        cases hn with
        | nil => exact raise h .missingRestName hp trivial
        | cons hr _ =>
          exact (newList hl).bind fun N r t hle hv => bindOne (h.mono hle) (hr.mono hle) hv
      · rw [if_neg hrest, if_neg (mt (hm.eq_sym_iff _).mpr hrest)]
        by_cases hopt : n = .sym .optional
        · rw [if_pos hopt, if_pos ((hm.eq_sym_iff _).mp hopt)]
          exact ih h hp ha hn hl true
        · rw [if_neg hopt, if_neg (mt (hm.eq_sym_iff _).mpr hopt)]
          cases hl with
          | cons hv hl =>
            exact (bindOne h hm hv).bind fun N _ _ hle _ =>
              ih (h.mono hle) (hp.mono hle) (ha.mono hle) (.mono hn hle) (.mono hl hle) optional
          | nil =>
            cases optional with
            | true =>
              exact (bindOne h hm .nil).bind fun N _ _ hle _ =>
                ih (h.mono hle) (hp.mono hle) (ha.mono hle) (.mono hn hle) .nil true
            | false => exact refuseArgs h ha

theorem bindParams (h : M.Pair a b) (hv : M.Values v w) (hs : M.Lists vs ws) :
    Alike top (Grown M fun _ _ _ => True) M (Eval.bindParams a v vs) (Eval.bindParams b w ws) := by
  refine (itemsOrNone hv).bind fun N r t hle hq => ?_
  obtain ⟨hr, hnone, _⟩ := hq
  cases hr with
  | none => exact raise (h.mono hle) .notList (hv.mono hle) (hnone rfl)
  | some hn => exact bindNames (h.mono hle) (hv.mono hle) (hs.mono hle) hn (hs.mono hle) false

/-- The body of a closure, in a new scope with the parameters bound. -/
theorem runBody {x y : Value} {xs ys : List Value} (h : M.Pair a b) (hx : M.Values x y)
    (hb : M.Lists xs ys) (hs : M.Lists vs ws) :
    Alike top (Grown M fun N => N.Values) M
      (Eval.perform (.alloc (.scope (.inside (some a)))) >>= fun c =>
        Eval.bindParams c x vs >>= fun _ => Eval.sequence c .nil xs)
      (Eval.perform (.alloc (.scope (.inside (some b)))) >>= fun d =>
        Eval.bindParams d y ws >>= fun _ => Eval.sequence d .nil ys) := by
  refine perform (.alloc (.scope .empty (.some h)) trivial) fun N c d hq => Alike.weaken ?_ hq.1
  obtain ⟨h₁, hc⟩ := hq
  refine (bindParams hc.pair (hx.mono h₁) (hs.mono h₁)).bind fun N₂ _ _ h₂ _ => ?_
  exact sequence (hc.pair.mono h₂) .nil ((hb.mono h₁).mono h₂)

/-- The items of a closure's form: a form that programs cannot get hold of has parameters. -/
theorem itemsOfForm {kind : ClosureKind} (h : M.form kind a b) :
    Alike top
      (Grown M fun N r t => Option.Rel N.Lists r t ∧
        (N.Pair a b ∨ ∃ head params body, r = some (head :: params :: body))) M
      (Eval.itemsOf (.ref a)) (Eval.itemsOf (.ref b)) :=
  .effect (.fetchForm h) fun _ _ _ hq => .done ⟨hq.1, .ok ⟨hq.2.1.items?, hq.2.2⟩⟩

theorem applyClosure {c d : Closure} (hc : M.Closures c d) (hs : M.Lists vs ws) :
    Alike top (Grown M fun N => N.Values) M (Eval.applyClosure c vs) (Eval.applyClosure d ws) := by
  refine (itemsOfForm hc.form).bind fun N r t hle hq => ?_
  obtain ⟨hr, hform⟩ := hq
  have hscope := hc.scope.mono hle
  have refused (hp : N.Pair c.form d.form) :
      Alike top (Grown N fun N => N.Values) N (Eval.raise c.scope .malformedFunction (.ref c.form))
        (Eval.raise d.scope .malformedFunction (.ref d.form)) :=
    raise hscope .malformedFunction (.ref hp) (.ref (hc.mono hle).form hp)
  cases hr with
  | none => exact refused (hform.resolve_right (by simp))
  | some hl =>
    cases hl with
    | nil => exact refused (hform.resolve_right (by simp))
    | cons _ hl =>
      cases hl with
      | nil => exact refused (hform.resolve_right (by simp))
      | cons hx hb => exact runBody hscope hx hb (hs.mono hle)

theorem apply {x y : Value} (h : M.Pair a b) (hx : M.Values x y) (hs : M.Lists vs ws) :
    Alike top (Grown M fun N => N.Values) M (Eval.apply a x vs) (Eval.apply b y ws) := by
  refine (functionOf hx).bind fun N r t hle hr => ?_
  cases hr with
  | none => exact raise (h.mono hle) .notFunction (hx.mono hle) trivial
  | some hf =>
    cases hf with
    | native n => exact enter ⟨h.mono hle, hx.mono hle, .native n (hs.mono hle)⟩
    | closure hc => exact enter ⟨h.mono hle, hx.mono hle, .closure hc (hs.mono hle)⟩

/-- Whether items are an operator with one operand, and the operand. -/
theorem operand_iff {r t : Option (List Value)} (h : Option.Rel M.Lists r t) (s : Symbol) :
    (∃ x y, M.Values x y ∧ r = some [.sym s, x] ∧ t = some [.sym s, y]) ∨
      (∀ x, r ≠ some [.sym s, x]) ∧ ∀ y, t ≠ some [.sym s, y] := by
  by_cases hr : ∃ x, r = some [.sym s, x]
  · obtain ⟨x, rfl⟩ := hr
    cases h with
    | some h =>
      obtain ⟨_, _, hs, h₁, rfl⟩ := List.forall₂_cons_left_iff.mp h
      obtain ⟨y, _, hx, h₂, rfl⟩ := List.forall₂_cons_left_iff.mp h₁
      cases List.forall₂_nil_left_iff.mp h₂
      cases hs
      exact .inl ⟨x, y, hx, rfl, rfl⟩
  · refine .inr ⟨fun x hx => hr ⟨x, hx⟩, ?_⟩
    rintro y rfl
    cases h with
    | some h =>
      obtain ⟨_, _, hs, h₁, rfl⟩ := List.forall₂_cons_right_iff.mp h
      obtain ⟨x, _, _, h₂, rfl⟩ := List.forall₂_cons_right_iff.mp h₁
      cases List.forall₂_nil_right_iff.mp h₂
      cases hs
      exact hr ⟨x, rfl⟩

theorem fillItems {xs ys : List Value} (h : M.Pair a b) (hx : M.Lists xs ys) (hs : M.Lists vs ws) :
    Alike top (Grown M fun N => N.Lists) M (Eval.fillItems a xs vs) (Eval.fillItems b ys ws) := by
  induction vs generalizing M xs ys ws with
  | nil =>
    cases hs with
    | nil => exact pure hx.reverse
  | cons v vs ih =>
    cases hs with
    | @cons _ w _ ws hv hs =>
      refine (itemsOf hv).bind fun N r t hle hr => ?_
      have h := h.mono hle
      have hv := hv.mono hle
      have hx := hx.mono hle
      have hs : N.Lists vs ws := .mono hs hle
      obtain ⟨x, y, hxy, rfl, rfl⟩ | ⟨hr, ht⟩ := operand_iff hr .splice
      · refine (evaluate h hxy).bind fun N₂ r t h₂ hr => ?_
        refine (itemsOrNone hr).bind fun N₃ is js h₃ hq => ?_
        obtain ⟨hi, hnone, _⟩ := hq
        have hle := h₂.trans h₃
        cases hi with
        | none => exact raise (h.mono hle) .notList (hr.mono h₃) (hnone rfl)
        | some hi => exact ih (h.mono hle) (hi.reverse.append (hx.mono hle)) (hs.mono hle)
      · split
        · exact absurd rfl (hr _)
        · split
          · exact absurd rfl (ht _)
          · exact (enter ⟨h, hv, .fill hv⟩).bind fun N₂ r t h₂ hr =>
              ih (h.mono h₂) ((hx.mono h₂).cons hr) (hs.mono h₂)

theorem fill (h : M.Pair a b) (hv : M.Values v w) :
    Alike top (Grown M fun N => N.Values) M (Eval.fill a v) (Eval.fill b w) := by
  refine (itemsOf hv).bind fun N r t hle hr => ?_
  have h := h.mono hle
  obtain ⟨x, y, hxy, rfl, rfl⟩ | ⟨hne, hne'⟩ := operand_iff hr .unquote
  · exact evaluate h hxy
  · cases hr with
    | none => exact pure (hv.mono hle)
    | some hs =>
      split
      · contradiction
      · exact absurd ‹_› (hne _)
      · rename_i hi
        cases hi
        split
        · contradiction
        · exact absurd ‹_› (hne' _)
        · rename_i hj
          cases hj
          exact (fillItems h .nil hs).bind fun N₂ r t _ hr => newList hr

end HeapLisp.Alike
