import HeapLisp.Proofs.Matching.Evaluation

namespace HeapLisp.Alike

open HeapLisp.Eval

variable {α : Type} {top : Bool} {M : Matching} {a b : Addr} {v w : Value} {vs ws : List Value}

theorem fetch (h : M.Pair a b) :
    Alike top (Grown M fun N o p => N.pairs o.kind a b ∧ N.Objects o p) M (Eval.fetch a)
      (Eval.fetch b) :=
  .effect (.fetch h) fun _ _ _ hq => .done ⟨hq.1, .ok hq.2⟩

theorem alloc {o p : Object} (h : M.Objects o p) (hs : M.Suits o p) :
    Alike top (Grown M fun N => N.Values) M (Eval.alloc o) (Eval.alloc p) :=
  .effect (.alloc h hs) fun _ _ _ hq => .done ⟨hq.1, .ok (.ref hq.2.pair)⟩

theorem newList (h : M.Lists vs ws) :
    Alike top (Grown M fun N => N.Values) M (Eval.newList vs) (Eval.newList ws) :=
  alloc (.list (by simpa using h)) trivial

theorem newStr (bytes : Bytes) : Alike top (Grown M fun N => N.Values) M (Eval.newStr bytes)
    (Eval.newStr bytes) :=
  alloc (.str _) trivial

theorem lookup (h : M.Pair a b) (s : Symbol) :
    Alike top (Grown M fun N => Option.Rel N.Values) M (Eval.lookup a s) (Eval.lookup b s) :=
  .effect (.lookup h s) fun _ _ _ hq => .done ⟨hq.1, .ok hq.2⟩

theorem define {s : Symbol} (h : M.Pair a b) (hs : M.knows s) (hv : M.Values v w) :
    Alike top (Grown M fun _ _ _ => True) M (Eval.define a s v) (Eval.define b s w) :=
  .effect (.define h hs hv) fun _ _ _ hle => .done ⟨hle, .ok trivial⟩

theorem assign {s : Symbol} (h : M.Pair a b) (hs : M.knows s) (hv : M.Values v w) :
    Alike top (Grown M fun _ => Eq) M (Eval.assign a s v) (Eval.assign b s w) :=
  .effect (.assign h hs hv) fun _ _ _ hq => .done ⟨hq.1, .ok hq.2⟩

theorem updateItems {f g : Array Value → Array Value} (h : M.Pair a b)
    (hf : ∀ N xs ys, M ≤ N → N.Lists (Array.toList xs) (Array.toList ys) →
      N.Lists (f xs).toList (g ys).toList) :
    Alike top (Grown M fun _ _ _ => True) M (Eval.updateItems a f) (Eval.updateItems b g) :=
  .effect (.updateItems h hf) fun _ _ _ hle => .done ⟨hle, .ok trivial⟩

theorem render (style : Style) (hv : M.Values v w) :
    Alike top (Grown M fun _ => Eq) M (Eval.render style v) (Eval.render style w) :=
  .effect (.render style hv) fun _ _ _ hq => .done ⟨hq.1, .ok hq.2⟩

theorem spelling {s : Symbol} (hs : M.knows s) :
    Alike top (Grown M fun _ => Eq) M (Eval.perform (.spelling s)) (Eval.perform (.spelling s)) :=
  .effect (.spelling hs) fun _ _ _ hq => .done ⟨hq.1, .ok hq.2⟩

theorem itemsOf (h : M.Values v w) :
    Alike top (Grown M fun N => Option.Rel N.Lists) M (Eval.itemsOf v) (Eval.itemsOf w) := by
  cases h with
  | num n => exact pure .none
  | sym hs => exact pure .none
  | ref h => exact (fetch h).bind fun N o p _ ho => pure ho.2.items?

/-- What has items is a list, and what has none is no list. -/
theorem itemsOrNone (h : M.Values v w) :
    Alike top
      (Grown M fun N r t => Option.Rel N.Lists r t ∧ (r = none → N.NoLists v w) ∧
        (r.isSome → ∃ a b, v = .ref a ∧ w = .ref b ∧ N.pairs .list a b)) M
      (Eval.itemsOf v) (Eval.itemsOf w) := by
  cases h with
  | num n => exact pure ⟨.none, fun _ => .num n, nofun⟩
  | sym hs => exact pure ⟨.none, fun _ => .sym hs, nofun⟩
  | @ref a b h =>
    refine (fetch h).bind fun N o p _ ho =>
      pure ⟨ho.2.items?, fun hn => ?_, fun hs => ⟨a, b, rfl, rfl, ?_⟩⟩
    · refine .ref ho.1 ?_
      cases o with
      | list => cases hn
      | str | scope | function | failure | input | output => exact nofun
    · cases o with
      | list => exact ho.1
      | str | scope | function | failure | input | output => cases hs

theorem locate (h : M.Pair a b) : Alike top (Grown M fun _ => Eq) M (Eval.locate a)
    (Eval.locate b) := by
  refine (lookup h .streamName).bind fun N₁ v w h₁ hv => ?_
  cases hv with
  | none => exact pure rfl
  | some hv =>
    cases hv with
    | num n => exact pure rfl
    | sym hs => exact pure rfl
    | ref hn =>
      refine (fetch hn).bind fun N₂ o p h₂ ho => ?_
      cases ho.2 with
      | str name =>
        refine (lookup ((h.mono h₁).mono h₂) .streamLine).bind fun N₃ v w h₃ hv => ?_
        cases hv with
        | none => exact pure rfl
        | some hv => cases hv <;> exact pure rfl
      | list | scope | function | failure | input | output => exact pure rfl

theorem raise {V : Matching → α → α → Prop} (h : M.Pair a b) (fault : Fault) (hv : M.Values v w)
    (hb : M.Blames fault v w) :
    Alike top (Grown M V) M (Eval.raise a fault v) (Eval.raise b fault w) := by
  refine (locate h).bind fun N₁ r t h₁ hr => ?_
  subst hr
  exact .effect (.alloc (.failure fault r (hv.mono h₁)) (hb.mono h₁)) fun N e f hq =>
    .fail ⟨hq.1, .error hq.2⟩

theorem refuseArgs {V : Matching → α → α → Prop} (h : M.Pair a b) (hs : M.Lists vs ws) :
    Alike top (Grown M V) M (Eval.refuseArgs a vs) (Eval.refuseArgs b ws) :=
  (newList hs).bind fun _ _ _ hle hv => raise (h.mono hle) .wrongArgCount hv trivial

theorem numArg (h : M.Pair a b) (hv : M.Values v w) :
    Alike top (Grown M fun _ => Eq) M (Eval.numArg a v) (Eval.numArg b w) := by
  cases hv with
  | num n => exact pure rfl
  | sym hs => exact raise h .notNumber (.sym hs) trivial
  | ref hr => exact raise h .notNumber (.ref hr) trivial

theorem byteArg (h : M.Pair a b) (hv : M.Values v w) :
    Alike top (Grown M fun _ => Eq) M (Eval.byteArg a v) (Eval.byteArg b w) := by
  refine (numArg h hv).bind fun N n m hle he => ?_
  subst he
  split
  · exact pure rfl
  · exact raise (h.mono hle) .notCharacter (hv.mono hle) trivial

theorem symArg (h : M.Pair a b) (hv : M.Values v w) :
    Alike top (Grown M fun N s t => N.knows s ∧ s = t) M (Eval.symArg a v) (Eval.symArg b w) := by
  cases hv with
  | num n => exact raise h .notSymbol (.num n) trivial
  | sym hs => exact pure ⟨hs, rfl⟩
  | ref hr => exact raise h .notSymbol (.ref hr) trivial

theorem listArg (h : M.Pair a b) (hv : M.Values v w) :
    Alike top (Grown M fun N => N.Lists) M (Eval.listArg a v) (Eval.listArg b w) := by
  refine (itemsOrNone hv).bind fun N r t hle hq => ?_
  obtain ⟨hr, hnone, _⟩ := hq
  cases hr with
  | none => exact raise (h.mono hle) .notList (hv.mono hle) (hnone rfl)
  | some hs => exact pure hs

theorem listRefArg (h : M.Pair a b) (hv : M.Values v w) :
    Alike top (Grown M fun N => N.pairs .list) M (Eval.listRefArg a v) (Eval.listRefArg b w) := by
  cases hv with
  | num n => exact raise h .notList (.num n) (.num n)
  | sym hs => exact raise h .notList (.sym hs) (.sym hs)
  | ref hr =>
    refine (fetch hr).bind fun N o p hle ho => ?_
    cases ho.2 with
    | list => exact pure ho.1
    | str | scope | function | failure | input | output =>
      exact raise (h.mono hle) .notList (.ref (hr.mono hle)) (.ref ho.1 nofun)

theorem scopeArg (h : M.Pair a b) (hv : M.Values v w) :
    Alike top (Grown M fun N => N.Pair) M (Eval.scopeArg a v) (Eval.scopeArg b w) := by
  cases hv with
  | num n => exact raise h .notScope (.num n) trivial
  | sym hs => exact raise h .notScope (.sym hs) trivial
  | ref hr =>
    refine (fetch hr).bind fun N o p hle ho => ?_
    cases ho.2 with
    | scope => exact pure (hr.mono hle)
    | str | list | function | failure | input | output =>
      exact raise (h.mono hle) .notScope (.ref (hr.mono hle)) trivial

theorem inputArg (h : M.Pair a b) (hv : M.Values v w) :
    Alike top (Grown M fun N => N.Pair) M (Eval.inputArg a v) (Eval.inputArg b w) := by
  cases hv with
  | num n => exact raise h .notInput (.num n) trivial
  | sym hs => exact raise h .notInput (.sym hs) trivial
  | ref hr =>
    refine (fetch hr).bind fun N o p hle ho => ?_
    cases ho.2 with
    | input stream =>
      cases hopen : stream.isOpen with
      | true => simpa only [hopen, if_true] using pure (hr.mono hle)
      | false =>
        simpa only [hopen, Bool.false_eq_true, if_false] using raise (h.mono hle) .streamClosed
          (.ref (hr.mono hle)) trivial
    | str | list | scope | function | failure | output =>
      exact raise (h.mono hle) .notInput (.ref (hr.mono hle)) trivial

theorem outputArg (h : M.Pair a b) (hv : M.Values v w) :
    Alike top (Grown M fun N => N.Pair) M (Eval.outputArg a v) (Eval.outputArg b w) := by
  cases hv with
  | num n => exact raise h .notOutput (.num n) trivial
  | sym hs => exact raise h .notOutput (.sym hs) trivial
  | ref hr =>
    refine (fetch hr).bind fun N o p hle ho => ?_
    cases ho.2 with
    | output => exact pure (hr.mono hle)
    | str | list | scope | function | failure | input =>
      exact raise (h.mono hle) .notOutput (.ref (hr.mono hle)) trivial

theorem stringArg (h : M.Pair a b) (hv : M.Values v w) :
    Alike top (Grown M fun _ => Eq) M (Eval.stringArg a v) (Eval.stringArg b w) := by
  cases hv with
  | num n => exact raise h .notString (.num n) trivial
  | sym hs => exact spelling hs
  | ref hr =>
    refine (fetch hr).bind fun N o p hle ho => ?_
    cases ho.2 with
    | str text => exact pure rfl
    | list | scope | function | failure | input | output =>
      exact raise (h.mono hle) .notString (.ref (hr.mono hle)) trivial

theorem bytesArg (h : M.Pair a b) (hv : M.Values v w) :
    Alike top (Grown M fun _ => Eq) M (Eval.bytesArg a v) (Eval.bytesArg b w) :=
  (stringArg h hv).bind fun _ _ _ _ he => pure (congrArg _ he)

theorem textArg (h : M.Pair a b) (hv : M.Values v w) :
    Alike top (Grown M fun _ => Eq) M (Eval.textArg a v) (Eval.textArg b w) :=
  (bytesArg h hv).bind fun _ _ _ _ he => pure (congrArg _ he)

end HeapLisp.Alike
