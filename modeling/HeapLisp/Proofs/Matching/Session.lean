import HeapLisp.Eval.Session
import HeapLisp.Proofs.Matching.Form

namespace HeapLisp

/-- How the turns of two matching loops end: both go on with loops whose end is an end of these, or
both come to an end. -/
inductive Turns (top : Bool) (M : Matching) (i j : Loop) (N : Matching) :
    Except Addr Turn → Except Addr Turn → Prop where
  | again {i' j' : Loop} (h : N.Loops top i' j')
    (ha : ∀ N', Matching.After top N N' i' j' → Matching.After top M N' i j) :
    Turns top M i j N (.ok (.again i')) (.ok (.again j'))
  | finished {v w : Value} (h : N.Values v w) (ha : Matching.After top M N i j) :
    Turns top M i j N (.ok (.finished v)) (.ok (.finished w))
  | error {e f : Addr} (h : N.pairs .failure e f) (ha : Matching.After top M N i j) :
    Turns top M i j N (.error e) (.error f)

namespace Alike

variable {α β : Type} {top : Bool} {M : Matching} {a b : Addr} {v w : Value} {vs ws : List Value}

/-- What follows may forget more than what came before; errors pass through. -/
theorem bindTo {V : Matching → α → α → Prop} {Q : Post β} {x y : Eval α} {f g : α → Eval β}
    (h : Alike top (Grown M V) M x y) (hk : ∀ N a b, M ≤ N → V N a b → Alike top Q N (f a) (g b))
    (he : ∀ N a b, M ≤ N → N.pairs .failure a b → Q N (.error a) (.error b)) :
    Alike top Q M (x >>= f) (y >>= g) := by
  refine h.bindWith (fun N a b hq => ?_) (fun N a b hq => ?_)
  · cases hq.2 with
    | ok hv => exact hk N a b hq.1 hv
  · cases hq.2 with
    | error h => exact he N a b hq.1 h

theorem attemptWith {P : Post α} {Q : Post β} {x y : Eval α} {f g : Except Addr α → Eval β}
    (h : Alike top P M x y) (hk : ∀ N r t, P N r t → Alike top Q N (f r) (g t)) :
    Alike top Q M (x.attempt >>= f) (y.attempt >>= g) := by
  induction h with
  | done h => exact hk _ _ _ h
  | fail h => exact hk _ _ _ h
  | effect h _ ih => exact .effect h ih
  | call h _ ih => exact .call h ih
  | native htop h hs _ ih => exact .native htop h hs ih
  | loop h _ ih => exact .loop h ih

theorem printLine (hv : M.Values v w) :
    Alike top (Grown M fun _ _ _ => True) M (Eval.printLine v) (Eval.printLine w) := by
  refine (render .canonical hv).bind fun N r t _ hr => ?_
  subst hr
  exact .effect (.print _) fun _ _ _ hle => .done ⟨hle, .ok trivial⟩

theorem evaluateRead {r t : Readout} (h : M.Pair a b) (hr : M.Readouts r t) :
    Alike top (Grown M fun N => Option.Rel (N.Ending N.Values)) M (Eval.evaluateRead a r)
      (Eval.evaluateRead b t) := by
  cases hr with
  | ended => exact pure .none
  | value hv => exact (evaluate h hv).attempt.bind fun _ _ _ _ he => pure (.some he)
  | failed e =>
    exact (raise (V := fun N => N.Values) h (.unreadable e) .nil trivial).attempt.bind
      fun _ _ _ _ he => pure (.some he)

theorem lineOf_eq {r t : Readout} (h : M.Readouts r t) (mark : Bookmark) :
    Eval.lineOf r mark = Eval.lineOf t mark := by
  cases h <;> rfl

section Session

variable {s s' t t' : Source} {ks ks' : List Value} {l l' : Value} {m mark : Bookmark}
  {report : Bool} {N : Matching}

/-- As long as nothing was collected the matching has grown, and the session may go on. -/
theorem againAfter (hle : M ≤ N) (h : N.Pair a b) (hv : N.Values v w) (hk : N.Lists ks ks')
    (ht : N.Sources top t t') :
    Turns top M (.session a s m report ks l) (.session b s' m report ks' l') N
      (.ok (.again (.session a t mark report ks v)))
        (.ok (.again (.session b t' mark report ks' w))) := by
  refine .again (.session mark report h ht hk hv) fun N' ha => ?_
  cases ha with
  | session hle' hs hk => exact .session (fun hf => hle.trans (hle' hf)) hs hk

/-- A collection at the end of a turn keeps the scope, the last value and what the session keeps. -/
theorem tidyAfter (hle : M ≤ N) (h : N.Pair a b) (hv : N.Values v w) (hk : N.Lists ks ks')
    (ht : N.Sources top t t') :
    Alike top (Turns top M (.session a s m report ks l) (.session b s' m report ks' l')) N
      (Eval.perform (.tidy (.ref a :: v :: ks)) >>= fun _ =>
        Pure.pure (.again (.session a t mark report ks v)))
      (Eval.perform (.tidy (.ref b :: w :: ks')) >>= fun _ =>
        Pure.pure (.again (.session b t' mark report ks' w))) := by
  refine perform (.tidy (.cons (.ref h) (.cons hv hk))) fun N₁ _ _ hq => .done ?_
  obtain ⟨h₁, hs⟩ := hq
  obtain ⟨hp, hs⟩ := List.forall₂_cons.mp hs
  obtain ⟨hv, hk⟩ := List.forall₂_cons.mp hs
  refine .again (.session mark report hp.pair (ht.mono h₁) hk hv) fun N' ha => ?_
  cases ha with
  | session h₂ hs hk => exact .session (fun hf => hle.trans ((h₁ hf).trans (h₂ hf))) hs hk

/-- The end of a turn after a value. -/
theorem valueTurn (hle : M ≤ N) (h : N.Pair a b) (hv : N.Values v w) (hk : N.Lists ks ks')
    (ht : N.Sources top t t') :
    Alike top (Turns top M (.session a s m report ks l) (.session b s' m report ks' l')) N
      (if report then
        Eval.perform (.tidy (.ref a :: v :: ks)) >>= fun _ =>
          Pure.pure (.again (.session a t mark report ks v))
      else Pure.pure (.again (.session a t mark report ks v)))
      (if report then
        Eval.perform (.tidy (.ref b :: w :: ks')) >>= fun _ =>
          Pure.pure (.again (.session b t' mark report ks' w))
      else Pure.pure (.again (.session b t' mark report ks' w))) := by
  cases report with
  | true => exact tidyAfter hle h hv hk ht
  | false => exact .done (againAfter hle h hv hk ht)

/-- A turn ends alike after matching ends of the form that was read. -/
theorem endTurn {x y : Option (Except Addr Value)} (hle : M ≤ N) (h : N.Pair a b)
    (hk : N.Lists ks ks') (hl : N.Values l l') (ht : N.Sources top t t')
    (hx : Option.Rel (N.Ending N.Values) x y) :
    Alike top (Turns top M (.session a s m report ks l) (.session b s' m report ks' l')) N
      (Eval.endTurn a t mark report ks l x) (Eval.endTurn b t' mark report ks' l' y) := by
  have after {N' : Matching} (h' : N ≤ N') :
      Matching.After top M N' (.session a s m report ks l) (.session b s' m report ks' l') :=
    .session (fun _ => hle.trans h') (h.mono h') (hk.mono h')
  cases hx with
  | none => exact .done (.finished hl (after (le_refl N)))
  | some hx =>
    cases hx with
    | ok hv =>
      refine perform .echoes fun N₁ echo echo' hq => ?_
      obtain ⟨h₁, he⟩ := hq
      subst he
      cases echo with
      | true =>
        refine bindTo (printLine (hv.mono h₁)) (fun N₂ _ _ h₂ _ => ?_)
          fun N _ _ h₂ he => .error he (after (h₁.trans h₂))
        have h₂ := h₁.trans h₂
        exact valueTurn (hle.trans h₂) (h.mono h₂) (hv.mono h₂) (hk.mono h₂) (ht.mono fun _ => h₂)
      | false =>
        exact valueTurn (hle.trans h₁) (h.mono h₁) (hv.mono h₁) (hk.mono h₁) (ht.mono fun _ => h₁)
    | error he =>
      cases report with
      | true =>
        refine bindTo (printLine (.ref he.pair)) (fun N₁ _ _ h₁ _ => ?_)
          fun N _ _ h₁ he => .error he (after h₁)
        exact tidyAfter (hle.trans h₁) (h.mono h₁) (.ref (he.pair.mono h₁)) (hk.mono h₁)
          (ht.mono fun _ => h₁)
      | false => exact .fail (.error he (after (le_refl N)))

theorem sessionTurn (mark : Bookmark) (report : Bool) (h : M.Pair a b) (hs : M.Sources top s s')
    (hk : M.Lists ks ks') (hl : M.Values l l') :
    Alike top (Turns top M (.session a s mark report ks l) (.session b s' mark report ks' l')) M
      (Eval.sessionTurn a s mark report ks l) (Eval.sessionTurn b s' mark report ks' l') := by
  have after {N : Matching} (hle : M ≤ N) :
      Matching.After top M N (.session a s mark report ks l) (.session b s' mark report ks' l') :=
    .session (fun _ => hle) (h.mono hle) (hk.mono hle)
  refine perform (.readForm hs mark) ?_
  rintro N₁ ⟨r, m, t⟩ ⟨r', m', t'⟩ ⟨h₁, hr, hm, ht⟩
  cases hm
  have hline : N₁.Values (.num (Int64.ofInt (Eval.lineOf r m)))
      (.num (Int64.ofInt (Eval.lineOf r' m))) := by
    rw [lineOf_eq hr]
    exact .num _
  refine bindTo (define (h.mono h₁) (Matching.wellKnown _ (by decide)) hline)
    (fun N₂ _ _ h₂ _ => ?_) fun N _ _ hle he => .error he (after (h₁.trans hle))
  have h₂ := h₁.trans h₂
  refine bindTo (evaluateRead (h.mono h₂) (hr.mono ‹_›)) (fun N₃ x y h₃ hx => ?_)
    fun N _ _ hle he => .error he (after (h₂.trans hle))
  have ht := ht.mono fun _ => ‹N₁ ≤ N₂›.trans h₃
  have h₃ := h₂.trans h₃
  exact endTurn h₃ (h.mono h₃) (hk.mono h₃) (hl.mono h₃) ht hx

end Session

theorem repeatingTurn {t u l l' : Value} {fs gs : List Value} (h : M.Pair a b) (ht : M.Values t u)
    (hf : M.Lists fs gs) (hl : M.Values l l') :
    Alike top (Turns top M (.repeating a t fs l) (.repeating b u gs l')) M
      (Eval.repeatingTurn a t fs l)
      (Eval.repeatingTurn b u gs l') := by
  refine bindTo (evaluate h ht) (fun N v w hle hv => ?_) fun N _ _ hle he =>
    .error he (.repeating hle)
  rw [hv.isNil_eq]
  split
  · exact .done (.finished (hl.mono hle) (.repeating hle))
  · refine bindTo (sequence (h.mono hle) .nil (hf.mono hle)) (fun N₂ x y h₂ hx => ?_)
      fun N _ _ hle' he => .error he (.repeating (hle.trans hle'))
    have hM := hle.trans h₂
    refine .done (.again (.repeating (h.mono hM) (ht.mono hM) (hf.mono hM) hx) fun N' ha => ?_)
    cases ha with
    | repeating h' => exact .repeating (hM.trans h')

theorem turn {i j : Loop} (h : M.Loops top i j) : Alike top (Turns top M i j) M i.turn j.turn := by
  cases h with
  | repeating hs ht hf hl => exact repeatingTurn hs ht hf hl
  | session mark report hs hsrc hk hl => exact sessionTurn mark report hs hsrc hk hl

theorem iterate {i j : Loop} (h : M.Loops top i j) :
    Alike top (fun N r t => Matching.After top M N i j ∧ N.Ending N.Values r t) M (Eval.iterate i)
      (Eval.iterate j) := by
  refine .loop h fun N r t ha he => ?_
  cases he with
  | ok hv => exact .done ⟨ha, .ok hv⟩
  | error he => exact .fail ⟨ha, .error he⟩

theorem rel_toList {x y : Option Value} (h : Option.Rel M.Values x y) :
    M.Lists x.toList y.toList := by
  cases h with
  | none => exact .nil
  | some h => exact .cons h .nil

/-- The binding that a scope had before is among what its session keeps. -/
theorem rel_of_lists_append {x y : Option Value} {x' y' : Option Value} {N : Matching}
    (hx : Option.Rel M.Values x x') (hy : Option.Rel M.Values y y')
    (h : N.Lists (x.toList ++ y.toList) (x'.toList ++ y'.toList)) :
    Option.Rel N.Values x x' ∧ Option.Rel N.Values y y' := by
  cases hx <;> cases hy <;> simp_all [Matching.Lists, Option.toList]

/-- Puts back the stream symbols of a scope, and ends as the session did. -/
theorem putBack {x x' y y' : Option Value} {r t : Except Addr Value} (h : M.Pair a b)
    (hx : Option.Rel M.Values x x') (hy : Option.Rel M.Values y y') (hr : M.Ending M.Values r t) :
    Alike top (Grown M fun N => N.Values) M
      (Eval.perform (.restore a .streamName x) >>= fun _ =>
        Eval.perform (.restore a .streamLine y) >>= fun _ =>
        Eval.ofExcept r)
      (Eval.perform (.restore b .streamName x') >>= fun _ =>
        Eval.perform (.restore b .streamLine y') >>= fun _ =>
        Eval.ofExcept t) := by
  refine perform (.restore h (Matching.wellKnown _ (by decide)) hx) fun N₁ _ _ h₁ => ?_
  refine perform (.restore (h.mono h₁) (Matching.wellKnown _ (by decide))
    (Matching.rel_mono hy h₁)) fun N₂ _ _ h₂ => ?_
  exact (ofExcept (V := fun N => N.Values) (hr.mono (h₁.trans h₂))).weaken (h₁.trans h₂)

/-- The end of a session: nested in an evaluation the matching has grown. -/
def Settled (top : Bool) (M : Matching) : Post Value :=
  fun N r t => (top = false → M ≤ N) ∧ N.Ending N.Values r t

theorem settled {N : Matching} {x y : Eval Value} (h : Alike top (Grown N fun N => N.Values) N x y)
    (hle : top = false → M ≤ N) : Alike top (Settled top M) N x y :=
  h.imp fun _ _ _ hp => ⟨fun hf => (hle hf).trans hp.1, hp.2⟩

theorem runStream {s t : Source} (h : M.Pair a b) (hs : M.Sources top s t) (name : Bytes)
    (report : Bool) :
    Alike top (Settled top M) M (Eval.runStream a s name report)
      (Eval.runStream b t name report) := by
  have error {N : Matching} {e f : Addr} (hle : M ≤ N) (he : N.pairs .failure e f) :
      Settled top M N (.error e) (.error f) := ⟨fun _ => hle, .error he⟩
  refine bindTo (fetch h) (fun N₁ o p h₁ ho => ?_) fun N _ _ hle he => error hle he
  cases ho.2 with
  | scope hb _ =>
    refine bindTo (newStr name) (fun N₂ v w h₂ hv => ?_) fun N _ _ hle he => error (h₁.trans hle) he
    have h₂ := h₁.trans h₂
    refine bindTo (define (h.mono h₂) (Matching.wellKnown _ (by decide)) hv)
      (fun N₃ _ _ h₃ _ => ?_) fun N _ _ hle he => error (h₂.trans hle) he
    have h₃ := h₂.trans h₃
    refine bindTo (define (h.mono h₃) (Matching.wellKnown _ (by decide)) (.num 1))
      (fun N₄ _ _ h₄ _ => ?_) fun N _ _ hle he => error (h₃.trans hle) he
    have h₄ := h₃.trans h₄
    have hname := hb.values .streamName
    have hline := hb.values .streamLine
    have hle₁ := ‹N₁ ≤ N₂›.trans (‹N₂ ≤ N₃›.trans ‹N₃ ≤ N₄›)
    have hkeep :=
      (rel_toList (Matching.rel_mono hname hle₁)).append (rel_toList (Matching.rel_mono hline hle₁))
    have hloop := Matching.Loops.session .start report (h.mono h₄) (hs.mono fun _ => h₄) hkeep .nil
    refine (iterate hloop).attemptWith fun N₅ r t hq => ?_
    obtain ⟨ha, hr⟩ := hq
    cases ha with
    | session h₅ hp hk =>
      obtain ⟨hname, hline⟩ := rel_of_lists_append hname hline hk
      exact (putBack hp hname hline hr).settled fun hf => h₄.trans (h₅ hf)
  | str | list | function | failure | input | output =>
    exact (raise (h.mono h₁) .notScope (.ref (h.mono h₁)) trivial).settled fun _ => h₁

theorem loadFile (h : M.Pair a b) (path : Bytes) :
    Alike top (Settled top M) M (Eval.loadFile a path) (Eval.loadFile b path) := by
  refine perform (.openFile path) fun N stream stream' hq => ?_
  obtain ⟨hle, he⟩ := hq
  subst he
  split
  · exact (runStream (h.mono hle) (.own stream) path true).imp fun N' r t hs =>
      ⟨fun hf => hle.trans (hs.1 hf), hs.2⟩
  · refine settled (M := M) ?_ fun _ => hle
    exact (newStr path).bind fun N₂ v w h₂ hv => raise ((h.mono hle).mono h₂) .cannotOpen hv trivial

theorem converse (h : M.Pair a b) (input : Bytes) :
    Alike top (Settled top M) M (Eval.converse a input) (Eval.converse b input) :=
  runStream h (.own _) _ true

/-- A session inside an evaluation never forgets what was matched. -/
theorem Settled.grown {N : Matching} {r t : Except Addr Value} (h : Settled false M N r t) :
    Grown M (fun N => N.Values) N r t := ⟨h.1 rfl, h.2⟩

end Alike

end HeapLisp
