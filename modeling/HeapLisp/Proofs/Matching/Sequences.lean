import HeapLisp.Eval.Sequences
import HeapLisp.Proofs.Matching.Form

namespace HeapLisp

namespace Matching

variable {M N : Matching} {v w : Value} {vs ws : List Value} {xs ys : Array Value}

theorem lists_iff : M.Lists vs ws ↔ ∀ i : Nat, Option.Rel M.Values vs[i]? ws[i]? := by
  constructor
  · intro h
    induction h with
    | nil => exact fun i => .none
    | cons h _ ih =>
      intro i
      cases i with
      | zero => exact .some h
      | succ i => exact ih i
  · intro h
    induction vs generalizing ws with
    | nil =>
      cases ws with
      | nil => exact .nil
      | cons w ws => cases h 0
    | cons v vs ih =>
      cases ws with
      | nil => cases h 0
      | cons w ws =>
        refine .cons ?_ (ih fun i => h (i + 1))
        cases h 0 with
        | some h => exact h

theorem Lists.mem_iff (h : M.Lists vs ws) (hv : M.Values v w) : v ∈ vs ↔ w ∈ ws := by
  induction h with
  | nil => simp
  | cons hx _ ih => rw [List.mem_cons, List.mem_cons, ih, hv.eq_iff hx]

/-- Arrays of matching values, one by one. -/
def Arrays (M : Matching) (xs ys : Array Value) : Prop := M.Lists xs.toList ys.toList

theorem Arrays.mono (h : M.Arrays xs ys) (hle : M ≤ N) : N.Arrays xs ys := Lists.mono h hle

theorem arrays_iff : M.Arrays xs ys ↔ ∀ i : Nat, Option.Rel M.Values xs[i]? ys[i]? := by
  rw [Arrays, lists_iff]
  simp only [Array.getElem?_toList]

namespace Arrays

theorem size_eq (h : M.Arrays xs ys) : xs.size = ys.size := by
  rw [← Array.length_toList, ← Array.length_toList]
  exact List.Forall₂.length_eq h

theorem push (h : M.Arrays xs ys) (hv : M.Values v w) : M.Arrays (xs.push v) (ys.push w) := by
  rw [Arrays, Array.toList_push, Array.toList_push]
  exact Lists.append h (.cons hv .nil)

theorem pushAll (h : M.Arrays xs ys) (hs : M.Lists vs ws) :
    M.Arrays (vs.foldl Array.push xs) (ws.foldl Array.push ys) := by
  induction hs generalizing xs ys with
  | nil => exact h
  | cons hv _ ih => exact ih (h.push hv)

theorem pop (h : M.Arrays xs ys) : M.Arrays xs.pop ys.pop := by
  rw [arrays_iff] at h ⊢
  intro i
  have hsize := (arrays_iff.mpr h).size_eq
  rw [Array.getElem?_pop, Array.getElem?_pop, hsize]
  split
  · exact h i
  · exact .none

theorem back? (h : M.Arrays xs ys) : Option.Rel M.Values xs.back? ys.back? := by
  rw [Array.back?, Array.back?, h.size_eq]
  exact arrays_iff.mp h _

theorem set (h : M.Arrays xs ys) (i : Nat) (hv : M.Values v w) :
    M.Arrays (xs.setIfInBounds i v) (ys.setIfInBounds i w) := by
  have hsize := h.size_eq
  rw [arrays_iff] at h ⊢
  intro j
  rw [Array.getElem?_setIfInBounds, Array.getElem?_setIfInBounds, hsize]
  split
  · split
    · exact .some hv
    · exact .none
  · exact h j

theorem swap (h : M.Arrays xs ys) (i j : Nat) :
    M.Arrays (Sequence.swap xs i j) (Sequence.swap ys i j) := by
  have hsize := h.size_eq
  rw [Sequence.swap, Sequence.swap, Array.swapIfInBounds, Array.swapIfInBounds]
  by_cases hi : i < xs.size
  · by_cases hj : j < xs.size
    · rw [dif_pos hi, dif_pos hj, dif_pos (hsize ▸ hi), dif_pos (hsize ▸ hj)]
      rw [arrays_iff] at h ⊢
      intro k
      rw [Array.getElem?_swap, Array.getElem?_swap, ← Array.getElem?_eq_getElem,
        ← Array.getElem?_eq_getElem, ← Array.getElem?_eq_getElem, ← Array.getElem?_eq_getElem]
      split
      · exact h i
      · split
        · exact h j
        · exact h k
    · rw [dif_pos hi, dif_neg hj, dif_pos (hsize ▸ hi), dif_neg (hsize ▸ hj)]
      exact h
  · rw [dif_neg hi, dif_neg (hsize ▸ hi)]
    exact h

theorem extract (h : M.Arrays xs ys) (s e : Nat) : M.Arrays (xs.extract s e) (ys.extract s e) := by
  have hsize := h.size_eq
  rw [arrays_iff] at h ⊢
  intro i
  rw [Array.getElem?_extract, Array.getElem?_extract, hsize]
  split
  · exact h _
  · exact .none

theorem slice? (h : M.Arrays xs ys) (s e : Nat) :
    Option.Rel M.Arrays (Sequence.slice? xs s e) (Sequence.slice? ys s e) := by
  rw [Sequence.slice?, Sequence.slice?, h.size_eq]
  split
  · exact .some (h.extract s e)
  · exact .none

theorem append {xs' ys' : Array Value} (h : M.Arrays xs ys) (h' : M.Arrays xs' ys') :
    M.Arrays (xs ++ xs') (ys ++ ys') := by
  rw [Arrays, Array.toList_append, Array.toList_append]
  exact Lists.append h h'

theorem cat {ps qs : List (Array Value)} (h : List.Forall₂ M.Arrays ps qs) :
    M.Arrays (Sequence.cat ps) (Sequence.cat qs) := by
  have joined {xs ys : Array Value} (hx : M.Arrays xs ys) :
      M.Arrays (ps.foldl (· ++ ·) xs) (qs.foldl (· ++ ·) ys) := by
    induction h generalizing xs ys with
    | nil => exact hx
    | cons hp _ ih => exact ih (hx.append hp)
  rw [Sequence.cat, Sequence.cat, Array.emptyWithCapacity_eq, Array.emptyWithCapacity_eq]
  exact joined Lists.nil

theorem contains_eq (h : M.Arrays xs ys) (hv : M.Values v w) : xs.contains v = ys.contains w := by
  rw [Bool.eq_iff_iff, Array.contains_iff_mem, Array.contains_iff_mem, ← Array.mem_toList_iff,
    ← Array.mem_toList_iff]
  exact Lists.mem_iff h hv

/-- Merging compares items by their keys, which differ between matching items: what counts is that
equal values match equal values. -/
theorem merge (h : M.Arrays xs ys) (hs : M.Lists vs ws) :
    M.Arrays (Sequence.merge Value.key xs vs) (Sequence.merge Value.key ys ws) := by
  rw [Sequence.merge_eq fun _ _ => Value.eq_of_key_eq, Sequence.merge_eq fun _ _ =>
    Value.eq_of_key_eq]
  induction hs generalizing xs ys with
  | nil => exact h
  | cons hv _ ih =>
    rw [List.foldl_cons, List.foldl_cons, h.contains_eq hv]
    split
    · exact ih h
    · exact ih (h.push hv)

end Arrays

/-- Sequences of one kind, in matching places. -/
inductive Seqs (M : Matching) : SeqRef → SeqRef → Prop where
  | list {a b : Addr} (h : M.Pair a b) : M.Seqs (.list a) (.list b)
  | str {a b : Addr} (h : M.Pair a b) : M.Seqs (.str a) (.str b)
  | sym {s : Symbol} (h : M.knows s) : M.Seqs (.sym s) (.sym s)

theorem Seqs.mono {r t : SeqRef} (h : M.Seqs r t) (hle : M ≤ N) : N.Seqs r t := by
  cases h with
  | list h => exact .list (h.mono hle)
  | str h => exact .str (h.mono hle)
  | sym hs => exact .sym (hs.mono hle)

theorem seqs_mono {rs ts : List SeqRef} (h : List.Forall₂ M.Seqs rs ts) (hle : M ≤ N) :
    List.Forall₂ N.Seqs rs ts :=
  h.imp fun _ _ h => h.mono hle

theorem Seqs.isList_eq {r t : SeqRef} (h : M.Seqs r t) : r.isList = t.isList := by
  cases h <;> rfl

theorem all_isList_eq {rs ts : List SeqRef} (h : List.Forall₂ M.Seqs rs ts) :
    rs.all SeqRef.isList = ts.all SeqRef.isList := by
  induction h with
  | nil => rfl
  | cons h _ ih => rw [List.all_cons, List.all_cons, h.isList_eq, ih]

theorem any_isList_eq {rs ts : List SeqRef} (h : List.Forall₂ M.Seqs rs ts) :
    rs.any SeqRef.isList = ts.any SeqRef.isList := by
  induction h with
  | nil => rfl
  | cons h _ ih => rw [List.any_cons, List.any_cons, h.isList_eq, ih]

/-- Matching values are the same numbers, or the first ones that are none match. -/
theorem Lists.mapM_asNum (h : M.Lists vs ws) :
    (∃ ns, ns.length = vs.length ∧ vs.mapM Value.asNum = .ok ns ∧ ws.mapM Value.asNum = .ok ns) ∨
      ∃ v w, M.Values v w ∧ vs.mapM Value.asNum = .error v ∧ ws.mapM Value.asNum = .error w := by
  induction h with
  | nil => exact .inl ⟨[], rfl, rfl, rfl⟩
  | cons hv _ ih =>
    rw [List.mapM_cons, List.mapM_cons]
    cases hv with
    | num n =>
      obtain ⟨ns, hlength, hv, hw⟩ | ⟨v, w, h, hv, hw⟩ := ih
      · exact .inl ⟨n :: ns, congrArg (· + 1) hlength, by rw [hv]; rfl, by rw [hw]; rfl⟩
      · exact .inr ⟨v, w, h, by rw [hv]; rfl, by rw [hw]; rfl⟩
    | sym hs => exact .inr ⟨_, _, .sym hs, rfl, rfl⟩
    | ref h => exact .inr ⟨_, _, .ref h, rfl, rfl⟩

end Matching

namespace Alike

variable {α : Type} {top : Bool} {M : Matching} {a b : Addr} {v w : Value} {vs ws : List Value}

theorem numArgs (h : M.Pair a b) (hs : M.Lists vs ws) :
    Alike top (Grown M fun _ ns ms => ns = ms ∧ ns.length = vs.length) M (Eval.numArgs a vs)
      (Eval.numArgs b ws) := by
  obtain ⟨ns, hlength, hvs, hws⟩ | ⟨x, y, hx, hvs, hws⟩ := Matching.Lists.mapM_asNum hs
  · simp only [Eval.numArgs, hvs, hws]
    exact pure ⟨rfl, hlength⟩
  · simp only [Eval.numArgs, hvs, hws]
    exact raise h .notNumber hx trivial

/-- What is done with the first of one or more numbers and the others. -/
theorem withNums {f g : List Int64 → Eval Value} (h : M.Pair a b) (hv : M.Values v w)
    (hs : M.Lists vs ws)
    (hfg : ∀ N n ns, M ≤ N → Alike top (Grown N fun N => N.Values) N (f (n :: ns)) (g (n :: ns))) :
    Alike top (Grown M fun N => N.Values) M (Eval.numArgs a (v :: vs) >>= f)
      (Eval.numArgs b (w :: ws) >>= g) := by
  refine (numArgs h (.cons hv hs)).bind fun N r t hle hr => ?_
  obtain ⟨rfl, hlength⟩ := hr
  cases r with
  | nil => cases hlength
  | cons n ns => exact hfg N n ns hle

theorem foldNums (h : M.Pair a b) (hv : M.Values v w) (hs : M.Lists vs ws)
    (f : Int64 → Int64 → Int64) :
    Alike top (Grown M fun N => N.Values) M (Eval.foldNums a (v :: vs) f)
      (Eval.foldNums b (w :: ws) f) :=
  withNums h hv hs fun _ _ _ _ => pure (.num _)

theorem divideNums (h : M.Pair a b) (hv : M.Values v w) (hs : M.Lists vs ws)
    (f : Int64 → Int64 → Int64) :
    Alike top (Grown M fun N => N.Values) M (Eval.divideNums a (v :: vs) f)
      (Eval.divideNums b (w :: ws) f) := by
  refine withNums h hv hs fun N n ns hle => ?_
  dsimp only
  split
  · exact raise (h.mono hle) .divisionByZero (.num 0) trivial
  · exact pure (.num _)

theorem ofBool (p : Bool) : M.Values (.ofBool p) (.ofBool p) := by
  cases p <;> exact .wellKnown (by decide)

theorem compareNums (h : M.Pair a b) (hs : M.Lists vs ws) (r : Int64 → Int64 → Bool) :
    Alike top (Grown M fun N => N.Values) M (Eval.compareNums a vs r)
      (Eval.compareNums b ws r) := by
  refine (numArgs h hs).bind fun N r t _ he => ?_
  obtain ⟨rfl, _⟩ := he
  exact pure (ofBool _)

theorem shiftNum {x y : Value} (h : M.Pair a b) (hv : M.Values v w) (hx : M.Values x y)
    (f : Int64 → Int64 → Int64) :
    Alike top (Grown M fun N => N.Values) M (Eval.shiftNum a v x f) (Eval.shiftNum b w y f) := by
  refine (numArg h hv).bind fun N₁ n n' h₁ hn => ?_
  refine (numArg (h.mono h₁) (hx.mono h₁)).bind fun N₂ k k' h₂ hk => ?_
  subst hn hk
  have hle := h₁.trans h₂
  split
  · exact pure (.num _)
  · exact raise (h.mono hle) .shiftOutOfRange (hx.mono hle) trivial

theorem isEql {x y : Value} (hv : M.Values v w) (hx : M.Values x y) :
    Alike top (Grown M fun _ => Eq) M (Eval.isEql v x) (Eval.isEql w y) := by
  unfold Eval.isEql
  by_cases he : v = x
  · rw [if_pos he, if_pos ((hv.eq_iff hx).mp he)]
    exact pure rfl
  · rw [if_neg he, if_neg (mt (hv.eq_iff hx).mpr he)]
    cases hv with
    | num n => exact pure rfl
    | sym s => exact pure rfl
    | ref hr =>
      cases hx with
      | num n => exact pure rfl
      | sym s => exact pure rfl
      | ref hr' => exact .effect (.sameText hr hr') fun _ _ _ hq => .done ⟨hq.1, .ok hq.2⟩

theorem seqArg (h : M.Pair a b) (hv : M.Values v w) :
    Alike top (Grown M fun N => N.Seqs) M (Eval.seqArg a v) (Eval.seqArg b w) := by
  cases hv with
  | num n => exact raise h .notSequence (.num n) trivial
  | sym hs => exact pure (.sym hs)
  | ref hr =>
    refine (fetch hr).bind fun N o p hle ho => ?_
    have hr := hr.mono hle
    cases ho.2 with
    | list => exact pure (.list hr)
    | str => exact pure (.str hr)
    | scope | function | failure | input | output =>
      exact raise (h.mono hle) .notSequence (.ref hr) trivial

theorem seqArgsOnto {rs ts : List SeqRef} (h : M.Pair a b) (hr : List.Forall₂ M.Seqs rs ts)
    (hs : M.Lists vs ws) :
    Alike top (Grown M fun N => List.Forall₂ N.Seqs) M (Eval.seqArgsOnto a rs vs)
      (Eval.seqArgsOnto b ts ws) := by
  induction vs generalizing M rs ts ws with
  | nil =>
    cases hs with
    | nil => exact pure (List.rel_reverse hr)
  | cons v vs ih =>
    cases hs with
    | cons hv hs =>
      exact (seqArg h hv).bind fun N r t hle hrt =>
        ih (h.mono hle) (.cons hrt (Matching.seqs_mono hr hle)) (.mono hs hle)

theorem itemsAt (h : M.Pair a b) : Alike top (Grown M fun N => N.Arrays) M (Eval.itemsAt a)
    (Eval.itemsAt b) := by
  refine (fetch h).bind fun N o p _ ho => ?_
  cases ho.2 with
  | list hs => exact pure hs
  | str | scope | function | failure | input | output => exact pure Matching.Lists.nil

section Seq

variable {r t : SeqRef} {rs ts : List SeqRef}

theorem seqItems (h : M.Seqs r t) : Alike top (Grown M fun N => N.Arrays) M (Eval.seqItems r)
    (Eval.seqItems t) := by
  cases h with
  | list h => exact itemsAt h
  | str h => exact pure Matching.Lists.nil
  | sym s => exact pure Matching.Lists.nil

theorem seqText (h : M.Seqs r t) : Alike top (Grown M fun _ => Eq) M (Eval.seqText r)
    (Eval.seqText t) := by
  cases h with
  | list h => exact pure rfl
  | sym hs => exact spelling hs
  | str h =>
    refine (fetch h).bind fun N o p _ ho => ?_
    cases ho.2 with
    | str text => exact pure rfl
    | list | scope | function | failure | input | output => exact pure rfl

/-- What is done with the text of a string or a symbol. -/
theorem withText {V : Matching → α → α → Prop} {k : ByteArray → Eval α} (h : M.Seqs r t)
    (hk : ∀ N text, Alike top (Grown N V) N (k text) (k text)) :
    Alike top (Grown M V) M (Eval.seqText r >>= k) (Eval.seqText t >>= k) := by
  refine (seqText h).bind fun N x y _ he => ?_
  subst he
  exact hk N x

theorem seqLength (h : M.Seqs r t) :
    Alike top (Grown M fun _ => Eq) M (Eval.seqLength r) (Eval.seqLength t) := by
  have hr := h
  cases h with
  | list h => exact (itemsAt h).bind fun N xs ys _ hs => pure hs.size_eq
  | str | sym => exact withText hr fun N text => pure rfl

theorem byteAt (i : Nat) (text : ByteArray) :
    Alike top (Grown M fun N => Option.Rel N.Values) M (Eval.byteAt i text)
      (Eval.byteAt i text) := by
  unfold Eval.byteAt
  split
  · exact (newStr _).bind fun N v w _ hv => pure (.some hv)
  · exact pure .none

theorem seqElem (h : M.Seqs r t) (i : Nat) :
    Alike top (Grown M fun N => Option.Rel N.Values) M (Eval.seqElem r i) (Eval.seqElem t i) := by
  have hr := h
  cases h with
  | list h => exact (itemsAt h).bind fun N xs ys _ hs => pure (Matching.arrays_iff.mp hs i)
  | str | sym => exact withText hr fun N text => byteAt i text

theorem partOf (s e : Nat) (text : ByteArray) :
    Alike top (Grown M fun N => Option.Rel N.Values) M (Eval.partOf s e text)
      (Eval.partOf s e text) := by
  unfold Eval.partOf
  split
  · exact (alloc (.str _) trivial).bind fun N v w _ hv => pure (.some hv)
  · exact pure .none

theorem seqSlice (h : M.Seqs r t) (s e : Nat) :
    Alike top (Grown M fun N => Option.Rel N.Values) M (Eval.seqSlice r s e)
      (Eval.seqSlice t s e) := by
  have hr := h
  cases h with
  | str | sym => exact withText hr fun N text => partOf s e text
  | list h =>
    refine (itemsAt h).bind fun N xs ys _ hs => ?_
    generalize hx : Sequence.slice? xs s e = xs', hy : Sequence.slice? ys s e = ys'
    have hs := hs.slice? s e
    rw [hx, hy] at hs
    cases hs with
    | none => exact pure .none
    | some hs => exact (alloc (.list hs) trivial).bind fun N₂ v w _ hv => pure (.some hv)

theorem seqPartsOnto {part : SeqRef → Eval α} {V : Matching → α → α → Prop} {xs ys : List α}
    (hmono : ∀ {M N : Matching} {x y : α}, V M x y → M ≤ N → V N x y)
    (hpart : ∀ {M : Matching} {r t : SeqRef}, M.Seqs r t →
      Alike top (Grown M V) M (part r) (part t))
    (hx : List.Forall₂ (V M) xs ys) (hs : List.Forall₂ M.Seqs rs ts) :
    Alike top (Grown M fun N => List.Forall₂ (V N)) M (Eval.seqPartsOnto part xs rs)
      (Eval.seqPartsOnto part ys ts) := by
  induction rs generalizing M xs ys ts with
  | nil =>
    cases hs with
    | nil => exact pure (List.rel_reverse hx)
  | cons r rs ih =>
    cases hs with
    | cons hr hs =>
      refine (hpart hr).bind fun N x y hle hxy => ?_
      exact ih (.cons hxy (hx.imp fun _ _ h => hmono h hle)) (Matching.seqs_mono hs hle)

/-- A number that has to lie in a range, which `f` tells. -/
theorem rangeArg (h : M.Pair a b) (hv : M.Values v w) {f : Int64 → Option Nat} {P : Nat → Prop}
    (hf : ∀ n i, f n = some i → P i) :
    Alike top (Grown M fun _ i j => i = j ∧ P i) M
      (Eval.numArg a v >>= fun n =>
        match f n with
        | some i => Pure.pure i
        | none => Eval.raise a .outOfBounds v)
      (Eval.numArg b w >>= fun n =>
        match f n with
        | some i => Pure.pure i
        | none => Eval.raise b .outOfBounds w) := by
  refine (numArg h hv).bind fun N n m hle he => ?_
  subst he
  cases hn : f n with
  | some i => exact pure ⟨rfl, hf n i hn⟩
  | none => exact raise (h.mono hle) .outOfBounds (hv.mono hle) trivial

theorem indexArg (h : M.Pair a b) (hv : M.Values v w) (length : Nat) :
    Alike top (Grown M fun _ i j => i = j ∧ i < length) M (Eval.indexArg a v length)
      (Eval.indexArg b w length) :=
  rangeArg h hv fun _ _ => Sequence.lt_of_index?

theorem boundArg (h : M.Pair a b) (hv : M.Values v w) (length : Nat) :
    Alike top (Grown M fun _ i j => i = j ∧ i ≤ length) M (Eval.boundArg a v length)
      (Eval.boundArg b w length) :=
  rangeArg h hv fun _ _ => Sequence.le_of_within?

theorem sweepArg (h : M.Pair a b) (hv : M.Values v w) (length : Nat) :
    Alike top (Grown M fun _ i j => i = j ∧ i ≤ length) M (Eval.sweepArg a v length)
      (Eval.sweepArg b w length) :=
  rangeArg h hv fun _ _ => Sequence.le_of_within?

theorem cat (h : M.Pair a b) (hs : M.Lists vs ws) :
    Alike top (Grown M fun N => N.Values) M (Eval.cat a vs) (Eval.cat b ws) := by
  refine (seqArgsOnto h .nil hs).bind fun N₁ rs ts h₁ hr => ?_
  rw [Matching.all_isList_eq hr, Matching.any_isList_eq hr]
  split
  · have hparts : Alike top _ _ _ _ :=
      seqPartsOnto (V := fun N => N.Arrays) Matching.Arrays.mono seqItems
      .nil hr
    exact hparts.bind fun N₂ ps qs _ hp => alloc (.list (Matching.Arrays.cat hp)) trivial
  · split
    · refine (newList (hs.mono h₁)).bind fun N₂ v w h₂ hv => ?_
      exact raise ((h.mono h₁).mono h₂) .mixedSequences hv trivial
    · have hparts : Alike top _ _ _ _ :=
        seqPartsOnto (V := fun _ => Eq) (fun h _ => h) seqText .nil hr
      refine hparts.bind fun N₂ ps qs _ hp => ?_
      rw [List.forall₂_eq_eq_eq] at hp
      subst hp
      exact alloc (.str _) trivial

/-- The place that a value is put in is there. -/
theorem setItem {size i : Nat} (h : M.Pair a b) (hi : i < size) (hv : M.Values v w) :
    Alike top (Grown M fun _ _ _ => True) M (Eval.setItem a size i v)
      (Eval.setItem b size i w) := by
  rw [Eval.setItem, Eval.setItem, if_pos hi, if_pos hi]
  exact updateItems h fun N xs ys hle hx => Matching.Arrays.set hx i (hv.mono hle)

theorem clearAll (h : M.Pair a b) (hv : M.Values v w) (hs : M.Lists vs ws) :
    Alike top (Grown M fun N => N.Values) M (Eval.clearAll a v vs) (Eval.clearAll b w ws) := by
  induction vs generalizing M v w ws with
  | nil =>
    cases hs with
    | nil => exact pure hv
  | cons x vs ih =>
    cases hs with
    | cons hx hs =>
      refine (listRefArg h hx).bind fun N₁ c d h₁ hc => ?_
      refine (updateItems hc.pair fun _ _ _ _ _ => Matching.Lists.nil).bind fun N₂ _ _ h₂ _ => ?_
      have hle := h₁.trans h₂
      exact ih (h.mono hle) (hx.mono hle) (.mono hs hle)

theorem splitOnto (hs : M.Lists vs ws) (runs : List Bytes) :
    Alike top (Grown M fun N => N.Values) M (Eval.splitOnto vs runs) (Eval.splitOnto ws runs) := by
  induction runs generalizing M vs ws with
  | nil => exact newList hs.reverse
  | cons run runs ih => exact (newStr run).bind fun N v w hle hv => ih (.cons hv (hs.mono hle))

theorem positionAnswer (i : Option Nat) :
    Alike top (Grown M fun N => N.Values) M
      (match i with
        | some i => Pure.pure (.ofNat i)
        | none => Pure.pure .nil)
      (match i with
        | some i => Pure.pure (.ofNat i)
        | none => Pure.pure .nil) := by
  cases i with
  | some i => exact pure (.num _)
  | none => exact pure .nil

theorem find (h : M.Pair a b) (hv : M.Values v w) {x y : Value} (hx : M.Values x y) :
    Alike top (Grown M fun N => N.Values) M (Eval.find a v x) (Eval.find b w y) := by
  refine (seqArg h hx).bind fun N₁ r t h₁ hr => ?_
  have hseq := hr
  cases hr with
  | list hp =>
    refine perform (.position (hv.mono h₁) hp) fun N i j hq => ?_
    obtain ⟨hle, he⟩ := hq
    subst he
    exact (positionAnswer i).weaken hle
  | str | sym =>
    refine (stringArg (h.mono h₁) (hv.mono h₁)).bind fun N₂ needle needle' h₂ he => ?_
    subst he
    refine withText (hseq.mono h₂) fun N₃ text => ?_
    split
    · exact positionAnswer none
    · exact positionAnswer _

theorem matchItems (hs : M.Lists vs ws) {xs ys : List Value} (hx : M.Lists xs ys) :
    Alike top (Grown M fun _ => Eq) M (Eval.matchItems vs xs) (Eval.matchItems ws ys) := by
  induction vs generalizing M ws xs ys with
  | nil =>
    cases hs with
    | nil =>
      cases hx with
      | nil => exact pure rfl
      | cons => exact pure rfl
  | cons v vs ih =>
    cases hs with
    | cons hv hs =>
      cases hx with
      | nil => exact pure rfl
      | @cons x y xs ys hxy hx =>
        rw [Eval.matchItems, Eval.matchItems]
        by_cases hu : x = .sym .underscore
        · rw [if_pos hu, if_pos ((hxy.eq_sym_iff _).mp hu)]
          exact ih hs hx
        · rw [if_neg hu, if_neg (mt (hxy.eq_sym_iff _).mpr hu)]
          refine (isEql hv hxy).bind fun N r t hle he => ?_
          subst he
          split
          · exact ih (.mono hs hle) (.mono hx hle)
          · exact pure rfl

theorem leastLength (least : Option Nat) (hs : List.Forall₂ M.Seqs rs ts) :
    Alike top (Grown M fun _ => Eq) M (Eval.leastLength least rs) (Eval.leastLength least ts) := by
  induction rs generalizing M least ts with
  | nil =>
    cases hs with
    | nil => exact pure rfl
  | cons r rs ih =>
    cases hs with
    | cons hr hs =>
      refine (seqLength hr).bind fun N n m hle he => ?_
      subst he
      exact ih _ (Matching.seqs_mono hs hle)

theorem sweepArgs (h : M.Pair a b) {x y x' y' : Value} (hx : M.Values x y) (hx' : M.Values x' y')
    (hv : M.Values v w) :
    Alike top (Grown M fun N r t => List.Forall₂ N.Seqs r.1 t.1 ∧ r.2 = t.2) M
      (Eval.sweepArgs a x x' v)
      (Eval.sweepArgs b y y' w) := by
  refine (listArg h hv).bind fun N₁ xs ys h₁ hs => ?_
  refine (seqArgsOnto (h.mono h₁) .nil hs).bind fun N₂ rs ts h₂ hr => ?_
  have h₂ := h₁.trans h₂
  refine (leastLength none hr).bind fun N₃ n m h₃ he => ?_
  subst he
  have hM := h₂.trans h₃
  refine (sweepArg (h.mono hM) (hx.mono hM) n).bind fun N₄ i j h₄ he => ?_
  obtain ⟨rfl, _⟩ := he
  have hM := hM.trans h₄
  refine (sweepArg (h.mono hM) (hx'.mono hM) n).bind fun N₅ i' j' h₅ he => ?_
  obtain ⟨rfl, _⟩ := he
  exact pure ⟨Matching.seqs_mono hr (h₃.trans (h₄.trans h₅)), rfl⟩

theorem elemsAt (h : M.Pair a b) (i : Nat) (hv : M.Lists vs ws) (hs : List.Forall₂ M.Seqs rs ts) :
    Alike top (Grown M fun N => N.Lists) M (Eval.elemsAt a i vs rs) (Eval.elemsAt b i ws ts) := by
  induction rs generalizing M vs ws ts with
  | nil =>
    cases hs with
    | nil => exact pure hv.reverse
  | cons r rs ih =>
    cases hs with
    | cons hr hs =>
      refine (seqElem hr i).bind fun N x y hle hx => ?_
      cases hx with
      | none => exact raise (h.mono hle) .outOfBounds (.num _) trivial
      | some hx => exact ih (h.mono hle) (.cons hx (hv.mono hle)) (Matching.seqs_mono hs hle)

theorem visit (h : M.Pair a b) (hv : M.Values v w) (hs : List.Forall₂ M.Seqs rs ts) (i : Nat) :
    Alike top (Grown M fun N => N.Values) M (Eval.visit a v rs i) (Eval.visit b w ts i) := by
  refine (elemsAt h i .nil hs).bind fun N₁ xs ys h₁ hx => ?_
  have hknown : N₁.knows .underscore := Matching.wellKnown _ (by decide)
  refine (define (h.mono h₁) hknown (.num _)).bind fun N₂ _ _ h₂ _ => ?_
  have hle := h₁.trans h₂
  exact apply (h.mono hle) (hv.mono hle) (hx.mono h₂)

theorem eachOf (h : M.Pair a b) (hv : M.Values v w) (hs : List.Forall₂ M.Seqs rs ts) {x y : Value}
    (hx : M.Values x y) (indices : List Nat) :
    Alike top (Grown M fun N => N.Values) M (Eval.eachOf a v rs x indices)
      (Eval.eachOf b w ts y indices) := by
  induction indices generalizing M x y with
  | nil => exact pure hx
  | cons i rest ih =>
    exact (visit h hv hs i).bind fun N x y hle hx =>
      ih (h.mono hle) (hv.mono hle) (Matching.seqs_mono hs hle) hx

theorem someOf (h : M.Pair a b) (hv : M.Values v w) (hs : List.Forall₂ M.Seqs rs ts)
    (stopOnNil : Bool) {x y : Value} (hx : M.Values x y) (indices : List Nat) :
    Alike top (Grown M fun N => N.Values) M (Eval.someOf a v rs stopOnNil x indices)
      (Eval.someOf b w ts stopOnNil y indices) := by
  induction indices generalizing M x y with
  | nil => exact pure hx
  | cons i rest ih =>
    refine (visit h hv hs i).bind fun N x y hle hx => ?_
    rw [hx.isNil_eq]
    split
    · exact pure hx
    · exact ih (h.mono hle) (hv.mono hle) (Matching.seqs_mono hs hle) hx

end Seq

theorem swapItems (h : M.Pair a b) (i j : Nat) :
    Alike top (Grown M fun _ _ _ => True) M (Eval.swapItems a i j) (Eval.swapItems b i j) :=
  updateItems h fun _ _ _ _ hs => Matching.Arrays.swap hs i j

theorem place {c d : Addr} (h : M.Pair a b) (hc : M.Pair c d) (store i : Nat)
    (hv : M.Values v w) :
    Alike top (Grown M fun _ => Eq) M (Eval.place a c store i v) (Eval.place b d store i w) := by
  refine (numArg h hv).bind fun N n m hle he => ?_
  subst he
  split
  · exact (swapItems (hc.mono hle) (store + 1) i).bind fun _ _ _ _ _ => pure rfl
  · exact pure rfl

theorem partitionFrom {c d : Addr} {x y : Value} (h : M.Pair a b) (hv : M.Values v w)
    (hc : M.Pair c d) (hx : M.Values x y) (store : Nat) (indices : List Nat) :
    Alike top (Grown M fun _ => Eq) M (Eval.partitionFrom a v c x store indices)
      (Eval.partitionFrom b w d y store indices) := by
  induction indices generalizing M store with
  | nil => exact pure rfl
  | cons i rest ih =>
    refine (itemsAt hc).bind fun N₁ xs ys h₁ hs => ?_
    have hi : Option.Rel N₁.Values (Sequence.elem? xs i) (Sequence.elem? ys i) :=
      Matching.arrays_iff.mp hs i
    generalize hr : Sequence.elem? xs i = r, ht : Sequence.elem? ys i = t
    rw [hr, ht] at hi
    cases hi with
    | none => exact pure rfl
    | some hi =>
      refine (apply (h.mono h₁) (hv.mono h₁) (.cons hi (.cons (hx.mono h₁) .nil))).bind
        fun N₂ r t h₂ hr => ?_
      have h₂ := h₁.trans h₂
      refine (place (h.mono h₂) (hc.mono h₂) store i hr).bind fun N₃ n m h₃ he => ?_
      subst he
      have h₃ := h₂.trans h₃
      exact ih (h.mono h₃) (hv.mono h₃) (hc.mono h₃) (hx.mono h₃) n

theorem partition {l l' s s' e e' : Value} (h : M.Pair a b) (hv : M.Values v w) (hl : M.Values l l')
    (hs : M.Values s s') (he : M.Values e e') :
    Alike top (Grown M fun N => N.Values) M (Eval.partition a v l s e)
      (Eval.partition b w l' s' e') := by
  refine (listRefArg h hl).bind fun N₁ c d h₁ hc => ?_
  refine (itemsAt hc.pair).bind fun N₂ xs ys h₂ hx => ?_
  rw [hx.size_eq]
  have hM := h₁.trans h₂
  refine (sweepArg (h.mono hM) (hs.mono hM) _).bind fun N₃ i j h₃ hi => ?_
  obtain ⟨rfl, _⟩ := hi
  have hM := hM.trans h₃
  refine (sweepArg (h.mono hM) (he.mono hM) _).bind fun N₄ i' j' h₄ hi' => ?_
  obtain ⟨rfl, hfinish⟩ := hi'
  have hM := hM.trans h₄
  split
  · rename_i hlt
    -- the first bound is smaller than the second, which is at most the length
    have hi : i < ys.size := Nat.lt_of_lt_of_le hlt hfinish
    have hp := Matching.arrays_iff.mp hx i
    rw [Array.getElem?_eq_getElem hi] at hp ⊢
    generalize hr : xs[i]? = r at hp ⊢
    cases hp with
    | some hp =>
      have hc := hc.pair.mono (h₂.trans (h₃.trans h₄))
      have hp := hp.mono (h₃.trans h₄)
      refine (partitionFrom (h.mono hM) (hv.mono hM) hc hp i _).bind fun N₅ n m h₅ heq => ?_
      subst heq
      exact (swapItems (hc.mono h₅) i n).bind fun _ _ _ _ _ => pure (.num _)
  · exact pure (.num _)

theorem codeIndex {x y : Option Value} (h : M.Pair a b) (length : Nat)
    (hx : Option.Rel M.Values x y) :
    Alike top (Grown M fun _ i j => i = j ∧ i < length) M (Eval.codeIndex a length x)
      (Eval.codeIndex b length y) := by
  cases hx with
  | some hx => exact indexArg h hx length
  | none =>
    rw [Eval.codeIndex, Eval.codeIndex]
    split
    · exact raise h .outOfBounds (.num 0) trivial
    · rename_i hlength
      exact pure ⟨rfl, Nat.pos_of_ne_zero hlength⟩

theorem code {x y : Option Value} (h : M.Pair a b) (hv : M.Values v w)
    (hx : Option.Rel M.Values x y) :
    Alike top (Grown M fun N => N.Values) M (Eval.code a v x) (Eval.code b w y) := by
  refine (stringArg h hv).bind fun N text text' hle he => ?_
  subst he
  have hindex : Alike top _ _ _ _ := codeIndex (h.mono hle) text.size (Matching.rel_mono hx hle)
  refine hindex.bind fun N₂ i j _ hi => ?_
  obtain ⟨rfl, hi⟩ := hi
  obtain ⟨byte, hbyte⟩ := Text.exists_elem? hi
  rw [hbyte]
  exact pure (.num _)

theorem strOf (hv : M.Values v w) : Alike top (Grown M fun N => N.Values) M (Eval.strOf v)
    (Eval.strOf w) := by
  have displayed {N : Matching} {v w : Value} (hv : N.Values v w) :
    Alike top (Grown N fun N => N.Values) N
      (Eval.render .display v >>= fun x => Eval.newStr x) (Eval.render .display w >>= fun y =>
          Eval.newStr y) := by
    refine (render .display hv).bind fun N₂ x y _ he => ?_
    subst he
    exact newStr x
  cases hv with
  | num n => exact displayed (.num n)
  | sym hs => exact displayed (.sym hs)
  | ref hr =>
    refine (fetch hr).bind fun N o p hle ho => ?_
    cases ho.2 with
    | output written => exact alloc (.str written) trivial
    | str | list | scope | function | failure | input => exact displayed (.ref (hr.mono hle))

end Alike

end HeapLisp
