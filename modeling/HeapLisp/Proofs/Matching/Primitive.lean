import HeapLisp.Eval.Primitive
import HeapLisp.Proofs.Matching.Sequences
import HeapLisp.Proofs.Matching.Special

namespace HeapLisp.Alike

variable {top : Bool} {M : Matching} {a b : Addr} {v w x y : Value} {vs ws : List Value}

theorem targetArg (h : M.Pair a b) {r t : Option Value} (hr : Option.Rel M.Values r t) :
    Alike top (Grown M fun N => N.Pair) M (Eval.targetArg a r) (Eval.targetArg b t) := by
  cases hr with
  | none => exact pure h
  | some hv => exact scopeArg h hv

theorem isDefined (h : M.Pair a b) (hv : M.Values v w) {r t : Option Value}
    (hr : Option.Rel M.Values r t) :
    Alike top (Grown M fun N => N.Values) M (Eval.isDefined a v r) (Eval.isDefined b w t) := by
  refine (symArg h hv).bind fun N₁ s s' h₁ he => ?_
  obtain ⟨_, rfl⟩ := he
  refine (targetArg (h.mono h₁) (Matching.rel_mono hr h₁)).bind fun N₂ c d _ hc => ?_
  exact (lookup hc s).bind fun N₃ x y _ hx => pure (Matching.rel_getD hx .nil)

theorem handOver {r t : Readout} (h : M.Pair a b) (hr : M.Readouts r t) (mark : Bookmark) :
    Alike top (Grown M fun N => N.Values) M (Eval.handOver a r mark) (Eval.handOver b t mark) := by
  cases hr with
  | failed e => exact raise h (.unreadable e) .nil trivial
  | ended => exact newList (.cons .nil (.cons (.num _) .nil))
  | value hf => exact newList (.cons hf (.cons (.num _) .nil))

theorem readNext (h : M.Pair a b) (hv : M.Values v w) (hx : M.Values x y) :
    Alike false (Grown M fun N => N.Values) M (Eval.readNext a v x) (Eval.readNext b w y) := by
  refine (inputArg h hv).bind fun N₁ c d h₁ hc => ?_
  refine (numArg (h.mono h₁) (hx.mono h₁)).bind fun N₂ n m h₂ he => ?_
  subst he
  refine perform (.readForm (.object (hc.mono h₂) rfl) (.resume n)) ?_
  rintro N₃ ⟨r, mark, s⟩ ⟨t, mark', s'⟩ ⟨h₃, hr, hm, _⟩
  cases hm
  exact (handOver (h.mono (h₁.trans (h₂.trans h₃))) hr mark).weaken h₃

theorem writeTo {c d : Addr} (hc : M.Pair c d) (hv : M.Values v w) (bytes : Bytes) :
    Alike top (Grown M fun N => N.Values) M (Eval.writeTo c v bytes) (Eval.writeTo d w bytes) :=
  perform (.append hc bytes) fun _ _ _ hle => .weaken (pure (hv.mono hle)) hle

theorem displayOnto (before : Bytes) (hs : M.Lists vs ws) :
    Alike top (Grown M fun _ => Eq) M (Eval.displayOnto before vs)
      (Eval.displayOnto before ws) := by
  induction vs generalizing M before ws with
  | nil =>
    cases hs with
    | nil => exact pure rfl
  | cons v vs ih =>
    cases hs with
    | cons hv hs =>
      refine (render .display hv).bind fun N r t hle he => ?_
      subst he
      exact ih _ (.mono hs hle)

theorem printAll (hs : M.Lists vs ws) (ending : Bytes) :
    Alike top (Grown M fun N => N.Values) M (Eval.printAll vs ending)
      (Eval.printAll ws ending) := by
  refine (displayOnto [] hs).bind fun N₁ r t h₁ he => ?_
  subst he
  refine perform (.print _) fun N₂ _ _ h₂ => Alike.weaken ?_ h₂
  exact pure (Matching.rel_getD (hs.mono (h₁.trans h₂)).getLast? .nil)

theorem save (h : M.Pair a b) (hv : M.Values v w) (hx : M.Values x y) :
    Alike top (Grown M fun N => N.Values) M (Eval.save a v x) (Eval.save b w y) := by
  refine (textArg h hx).bind fun N₁ r t h₁ he => ?_
  subst he
  refine (render .canonical (hv.mono h₁)).bind fun N₂ l m h₂ he => ?_
  subst he
  refine perform (.save r l) fun N₃ e f hq => Alike.weaken ?_ hq.1
  obtain ⟨h₃, he, hio⟩ := hq
  subst he
  have hM := h₁.trans (h₂.trans h₃)
  cases e with
  | ok => exact pure (hv.mono hM)
  | error fault =>
    have hkind : fault.kind ≠ .type := by simp [hio fault rfl]
    exact raise (h.mono hM) fault (hx.mono hM) (Matching.blames_of_kind hkind _ _)

/-- A primitive with matching arguments, inside an evaluation. -/
def Runs (M : Matching) (a b : Addr) (p : Primitive) (vs ws : List Value) : Prop :=
  Alike false (Grown M fun N => N.Values) M (Eval.runPrimitive a p vs) (Eval.runPrimitive b p ws)

/-- A primitive does not take these arguments, wherever it is called. -/
def Refuses (p : Primitive) (args : List Value) : Prop :=
  ∀ scope, Eval.runPrimitive scope p args = Eval.refuseArgs scope args

section Arity

variable {p : Primitive}

theorem refused (h : M.Pair a b) (hs : M.Lists vs ws) (hv : Refuses p vs) (hw : Refuses p ws) :
    Runs M a b p vs ws := by
  rw [Runs, hv, hw]
  exact refuseArgs h hs

theorem nullary (h : M.Pair a b) (hs : M.Lists vs ws) (hmore : ∀ v vs, Refuses p (v :: vs))
    (hrun : Runs M a b p [] []) :
    Runs M a b p vs ws := by
  cases hs with
  | nil => exact hrun
  | cons hv hs => exact refused h (.cons hv hs) (hmore _ _) (hmore _ _)

theorem unary (h : M.Pair a b) (hs : M.Lists vs ws) (h₀ : Refuses p [])
    (hmore : ∀ v x vs, Refuses p (v :: x :: vs))
    (hrun : ∀ {v w : Value}, M.Values v w → Runs M a b p [v] [w]) : Runs M a b p vs ws := by
  cases hs with
  | nil => exact refused h .nil h₀ h₀
  | cons hv hs =>
    cases hs with
    | nil => exact hrun hv
    | cons hx hs => exact refused h (.cons hv (.cons hx hs)) (hmore _ _ _) (hmore _ _ _)

theorem oneOrMore (h : M.Pair a b) (hs : M.Lists vs ws) (h₀ : Refuses p [])
    (hrun : ∀ {v w : Value} {vs ws : List Value}, M.Values v w → M.Lists vs ws →
      Runs M a b p (v :: vs) (w :: ws)) : Runs M a b p vs ws := by
  cases hs with
  | nil => exact refused h .nil h₀ h₀
  | cons hv hs => exact hrun hv hs

/-- At least two arguments, of which there is more to say. -/
theorem fromTwo (h : M.Pair a b) (hs : M.Lists vs ws) (h₀ : Refuses p []) (h₁ : ∀ v, Refuses p [v])
    (hrun : ∀ {v w x y : Value} {vs ws : List Value}, M.Values v w → M.Values x y → M.Lists vs ws →
      Runs M a b p (v :: x :: vs) (w :: y :: ws)) : Runs M a b p vs ws := by
  cases hs with
  | nil => exact refused h .nil h₀ h₀
  | cons hv hs =>
    cases hs with
    | nil => exact refused h (.cons hv .nil) (h₁ _) (h₁ _)
    | cons hx hs => exact hrun hv hx hs

theorem binary (h : M.Pair a b) (hs : M.Lists vs ws) (h₀ : Refuses p []) (h₁ : ∀ v, Refuses p [v])
    (hmore : ∀ v x z vs, Refuses p (v :: x :: z :: vs))
    (hrun : ∀ {v w x y : Value}, M.Values v w → M.Values x y → Runs M a b p [v, x] [w, y]) :
    Runs M a b p vs ws := by
  refine fromTwo h hs h₀ h₁ fun hv hx hs => ?_
  cases hs with
  | nil => exact hrun hv hx
  | cons hz hs =>
    exact refused h (.cons hv (.cons hx (.cons hz hs))) (hmore _ _ _ _) (hmore _ _ _ _)

theorem ternary (h : M.Pair a b) (hs : M.Lists vs ws) (h₀ : Refuses p []) (h₁ : ∀ v, Refuses p [v])
    (h₂ : ∀ v x, Refuses p [v, x]) (hmore : ∀ v x z u vs, Refuses p (v :: x :: z :: u :: vs))
    (hrun : ∀ {v w x y z u : Value}, M.Values v w → M.Values x y → M.Values z u →
      Runs M a b p [v, x, z] [w, y, u]) :
    Runs M a b p vs ws := by
  refine fromTwo h hs h₀ h₁ fun hv hx hs => ?_
  cases hs with
  | nil => exact refused h (.cons hv (.cons hx .nil)) (h₂ _ _) (h₂ _ _)
  | cons hz hs =>
    cases hs with
    | nil => exact hrun hv hx hz
    | cons hu hs =>
      exact refused h (.cons hv (.cons hx (.cons hz (.cons hu hs)))) (hmore _ _ _ _ _)
        (hmore _ _ _ _ _)

theorem oneOrTwo (h : M.Pair a b) (hs : M.Lists vs ws) (h₀ : Refuses p [])
    (hmore : ∀ v x z vs, Refuses p (v :: x :: z :: vs))
    (hone : ∀ {v w : Value}, M.Values v w → Runs M a b p [v] [w])
    (htwo : ∀ {v w x y : Value}, M.Values v w → M.Values x y → Runs M a b p [v, x] [w, y]) :
    Runs M a b p vs ws := by
  cases hs with
  | nil => exact refused h .nil h₀ h₀
  | cons hv hs =>
    cases hs with
    | nil => exact hone hv
    | cons hx hs =>
      cases hs with
      | nil => exact htwo hv hx
      | cons hz hs =>
        exact refused h (.cons hv (.cons hx (.cons hz hs))) (hmore _ _ _ _) (hmore _ _ _ _)

theorem fourOrMore (h : M.Pair a b) (hs : M.Lists vs ws) (h₀ : Refuses p [])
    (h₁ : ∀ v, Refuses p [v]) (h₂ : ∀ v x, Refuses p [v, x]) (h₃ : ∀ v x z, Refuses p [v, x, z])
    (hrun : ∀ {v w x y z u r t : Value} {vs ws : List Value}, M.Values v w → M.Values x y →
      M.Values z u →
      M.Values r t → M.Lists vs ws →
      Runs M a b p (v :: x :: z :: r :: vs) (w :: y :: u :: t :: ws)) :
    Runs M a b p vs ws := by
  refine fromTwo h hs h₀ h₁ fun hv hx hs => ?_
  cases hs with
  | nil => exact refused h (.cons hv (.cons hx .nil)) (h₂ _ _) (h₂ _ _)
  | cons hz hs =>
    cases hs with
    | nil => exact refused h (.cons hv (.cons hx (.cons hz .nil))) (h₃ _ _ _) (h₃ _ _ _)
    | cons hr hs => exact hrun hv hx hz hr hs

end Arity

theorem push (h : M.Pair a b) (hv : M.Values v w) (hs : M.Lists vs ws) :
    Runs M a b .push (v :: vs) (w :: ws) := by
  refine (listRefArg h hv).bind fun N₁ c d h₁ hc => ?_
  refine (updateItems hc.pair fun N xs ys hle hx => ?_).bind fun N₂ _ _ h₂ _ =>
    pure (hv.mono (h₁.trans h₂))
  exact Matching.Arrays.pushAll hx (hs.mono (h₁.trans hle))

theorem pop (h : M.Pair a b) (hv : M.Values v w) : Runs M a b .pop [v] [w] := by
  refine (listRefArg h hv).bind fun N₁ c d h₁ hc => ?_
  refine (itemsAt hc.pair).bind fun N₂ xs ys h₂ hx => ?_
  refine (updateItems (hc.pair.mono h₂) fun _ _ _ _ hx => Matching.Arrays.pop hx).bind
    fun N₃ _ _ h₃ _ => ?_
  exact pure (Matching.rel_getD (Matching.rel_mono hx.back? h₃) .nil)

theorem length (h : M.Pair a b) (hv : M.Values v w) : Runs M a b .length [v] [w] := by
  refine (seqArg h hv).bind fun N₁ r t _ hr => ?_
  refine (seqLength hr).bind fun N₂ n m _ he => ?_
  subst he
  exact pure (.num _)

theorem elem (h : M.Pair a b) (hv : M.Values v w) (hx : M.Values x y) :
    Runs M a b .elem [v, x] [w, y] := by
  refine (seqArg h hx).bind fun N₁ r t h₁ hr => ?_
  refine (seqLength hr).bind fun N₂ n m h₂ he => ?_
  subst he
  have hM := h₁.trans h₂
  refine (indexArg (h.mono hM) (hv.mono hM) n).bind fun N₃ i j h₃ he => ?_
  obtain ⟨rfl, _⟩ := he
  refine (seqElem (hr.mono (h₂.trans h₃)) i).bind fun N₄ x y h₄ hx => ?_
  have hM := (hM.trans h₃).trans h₄
  cases hx with
  | none => exact raise (h.mono hM) .outOfBounds (hv.mono hM) trivial
  | some hx => exact pure hx

theorem elemSet {z u : Value} (h : M.Pair a b) (hv : M.Values v w) (hx : M.Values x y)
    (hz : M.Values z u) :
    Runs M a b .elemSet [v, x, z] [w, y, u] := by
  refine (listRefArg h hx).bind fun N₁ c d h₁ hc => ?_
  refine (itemsAt hc.pair).bind fun N₂ xs ys h₂ hs => ?_
  rw [hs.size_eq]
  have hM := h₁.trans h₂
  refine (indexArg (h.mono hM) (hv.mono hM) _).bind fun N₃ i j h₃ he => ?_
  obtain ⟨rfl, hi⟩ := he
  have hM := hM.trans h₃
  refine (setItem (hc.pair.mono (h₂.trans h₃)) hi (hz.mono hM)).bind fun N₄ _ _ h₄ _ => ?_
  exact pure (hz.mono (hM.trans h₄))

theorem slice {z u : Value} (h : M.Pair a b) (hv : M.Values v w) (hx : M.Values x y)
    (hz : M.Values z u) :
    Runs M a b .slice [v, x, z] [w, y, u] := by
  refine (seqArg h hz).bind fun N₁ r t h₁ hr => ?_
  refine (seqLength hr).bind fun N₂ n m h₂ he => ?_
  subst he
  have hM := h₁.trans h₂
  refine (boundArg (h.mono hM) (hv.mono hM) n).bind fun N₃ i j h₃ he => ?_
  obtain ⟨rfl, _⟩ := he
  have hM := hM.trans h₃
  refine (boundArg (h.mono hM) (hx.mono hM) n).bind fun N₄ i' j' h₄ he => ?_
  obtain ⟨rfl, _⟩ := he
  have hM := hM.trans h₄
  refine (seqSlice (hr.mono (h₂.trans (h₃.trans h₄))) i i').bind fun N₅ p q h₅ hp => ?_
  have hM := hM.trans h₅
  cases hp with
  | some hp => exact pure hp
  | none =>
    exact (newList (.cons (hv.mono hM) (.cons (hx.mono hM) .nil))).bind fun N₆ g g' h₆ hg =>
      raise ((h.mono hM).mono h₆) .outOfBounds hg trivial

theorem merge (h : M.Pair a b) (hv : M.Values v w) (hx : M.Values x y) :
    Runs M a b .merge [v, x] [w, y] := by
  refine (listRefArg h hv).bind fun N₁ c d h₁ hc => ?_
  refine (listArg (h.mono h₁) (hx.mono h₁)).bind fun N₂ xs ys h₂ hs => ?_
  refine (updateItems (hc.pair.mono h₂) fun N is js hle hi => ?_).bind fun N₃ _ _ h₃ _ => ?_
  · exact Matching.Arrays.merge hi (hs.mono hle)
  · exact pure (hv.mono (h₁.trans (h₂.trans h₃)))

theorem split (h : M.Pair a b) (hv : M.Values v w) (hx : M.Values x y) :
    Runs M a b .split [v, x] [w, y] := by
  refine (bytesArg h hv).bind fun N₁ t t' h₁ he => ?_
  subst he
  refine (bytesArg (h.mono h₁) (hx.mono h₁)).bind fun N₂ s s' _ he => ?_
  subst he
  exact splitOnto .nil _

theorem isMatch (h : M.Pair a b) (hv : M.Values v w) (hx : M.Values x y) :
    Runs M a b .isMatch [v, x] [w, y] := by
  refine (listArg h hv).bind fun N₁ is js h₁ hi => ?_
  refine (listArg (h.mono h₁) (hx.mono h₁)).bind fun N₂ ps qs h₂ hp => ?_
  have hi := hi.mono h₂
  rw [List.Forall₂.length_eq hi, List.Forall₂.length_eq hp]
  split
  · refine (matchItems hi hp).bind fun N₃ r t _ he => ?_
    subst he
    exact pure (ofBool r)
  · exact pure .nil

theorem compareTexts (h : M.Pair a b) (hv : M.Values v w) (hx : M.Values x y) :
    Runs M a b .compare [v, x] [w, y] := by
  refine (stringArg h hv).bind fun N₁ t t' h₁ he => ?_
  subst he
  refine (stringArg (h.mono h₁) (hx.mono h₁)).bind fun N₂ s s' _ he => ?_
  subst he
  exact pure (.num _)

theorem some {z z' m m' f f' : Value} (h : M.Pair a b) (hv : M.Values v w) (hx : M.Values x y)
    (hm : M.Values m m') (hf : M.Values f f') (hz : M.Values z z') :
    Runs M a b .some [v, x, m, f, z] [w, y, m', f', z'] := by
  refine (sweepArgs h hv hx hz).bind fun N r t hle hr => ?_
  obtain ⟨rs, is⟩ := r
  obtain ⟨ts, js⟩ := t
  obtain ⟨hr, he⟩ := hr
  cases he
  dsimp only
  rw [hm.isNil_eq]
  exact someOf (h.mono hle) (hf.mono hle) hr _ (hm.mono hle) _

theorem each {z z' f f' : Value} (h : M.Pair a b) (hv : M.Values v w) (hx : M.Values x y)
    (hf : M.Values f f') (hz : M.Values z z') : Runs M a b .each [v, x, f, z] [w, y, f', z'] := by
  refine (sweepArgs h hv hx hz).bind fun N r t hle hr => ?_
  obtain ⟨rs, is⟩ := r
  obtain ⟨ts, js⟩ := t
  obtain ⟨hr, he⟩ := hr
  cases he
  exact eachOf (h.mono hle) (hf.mono hle) hr .nil _

theorem distinct (h : M.Pair a b) (hv : M.Values v w) (hs : M.Lists vs ws) :
    Runs M a b .ne (v :: vs) (w :: ws) :=
  withNums h hv hs fun _ _ _ _ => pure (ofBool _)

theorem eql (hv : M.Values v w) (hx : M.Values x y) : Runs M a b .eql [v, x] [w, y] := by
  refine (isEql hv hx).bind fun N r t _ he => ?_
  subst he
  exact pure (ofBool r)

theorem copy (hv : M.Values v w) : Runs M a b .copy [v] [w] :=
  .effect (.copy hv) fun _ _ _ hq => .done ⟨hq.1, .ok hq.2⟩

theorem char (h : M.Pair a b) (hv : M.Values v w) : Runs M a b .char [v] [w] := by
  refine (byteArg h hv).bind fun N r t _ he => ?_
  subst he
  exact newStr [r]

theorem fileStream (h : M.Pair a b) (hv : M.Values v w) : Runs M a b .fileStream [v] [w] := by
  refine (textArg h hv).bind fun N₁ r t _ he => ?_
  subst he
  refine perform (.openFile r) fun N₂ s s' hq => Alike.weaken ?_ hq.1
  obtain ⟨h₂, he⟩ := hq
  subst he
  exact alloc (.input s) trivial

theorem stringStream (h : M.Pair a b) (hv : M.Values v w) : Runs M a b .stringStream [v] [w] := by
  refine (stringArg h hv).bind fun N r t _ he => ?_
  subst he
  exact alloc (.output r) trivial

theorem readChar (h : M.Pair a b) (hv : M.Values v w) : Runs M a b .readChar [v] [w] := by
  refine (inputArg h hv).bind fun N₁ c d _ hc => ?_
  refine perform (.readByte hc) fun N₂ r t hq => Alike.weaken ?_ hq.1
  obtain ⟨h₂, he⟩ := hq
  subst he
  cases r with
  | some byte => exact pure (.num _)
  | none => exact pure .nil

theorem readLine (h : M.Pair a b) (hv : M.Values v w) : Runs M a b .readLine [v] [w] := by
  refine (inputArg h hv).bind fun N₁ c d _ hc => ?_
  refine perform (.readLine hc) fun N₂ r t hq => Alike.weaken ?_ hq.1
  obtain ⟨h₂, he⟩ := hq
  subst he
  cases r with
  | some line => exact newStr line
  | none => exact pure .nil

theorem write (h : M.Pair a b) (hv : M.Values v w) (hx : M.Values x y) :
    Runs M a b .write [v, x] [w, y] := by
  refine (outputArg h hv).bind fun N₁ c d h₁ hc => ?_
  refine (bytesArg (h.mono h₁) (hx.mono h₁)).bind fun N₂ r t h₂ he => ?_
  subst he
  exact writeTo (hc.mono h₂) (hv.mono (h₁.trans h₂)) r

theorem writeChar (h : M.Pair a b) (hv : M.Values v w) (hx : M.Values x y) :
    Runs M a b .writeChar [v, x] [w, y] := by
  refine (outputArg h hv).bind fun N₁ c d h₁ hc => ?_
  refine (byteArg (h.mono h₁) (hx.mono h₁)).bind fun N₂ r t h₂ he => ?_
  subst he
  exact writeTo (hc.mono h₂) (hv.mono (h₁.trans h₂)) [r]

theorem writeLine (h : M.Pair a b) (hv : M.Values v w) (hx : M.Values x y) :
    Runs M a b .writeLine [v, x] [w, y] := by
  refine (outputArg h hv).bind fun N₁ c d h₁ hc => ?_
  refine (bytesArg (h.mono h₁) (hx.mono h₁)).bind fun N₂ r t h₂ he => ?_
  subst he
  exact writeTo (hc.mono h₂) (hv.mono (h₁.trans h₂)) (r ++ [Byte.newline])

theorem time : Runs M a b .time [] [] := by
  refine perform .clock fun N r t hq => Alike.weaken ?_ hq.1
  obtain ⟨hle, he⟩ := hq
  subst he
  exact pure (.num r)

theorem load (h : M.Pair a b) (hv : M.Values v w) : Runs M a b .load [v] [w] := by
  refine (textArg h hv).bind fun N r t hle he => ?_
  subst he
  exact (loadFile (h.mono hle) r).imp fun _ _ _ => Settled.grown

theorem applyList (h : M.Pair a b) (hv : M.Values v w) (hx : M.Values x y) :
    Runs M a b .apply [v, x] [w, y] :=
  (listArg h hx).bind fun _ _ _ hle hs => apply (h.mono hle) (hv.mono hle) hs

theorem evalIn (h : M.Pair a b) (hv : M.Values v w) (hx : M.Values x y) :
    Runs M a b .eval [v, x] [w, y] :=
  (scopeArg h hx).bind fun _ _ _ hle hc => evaluate hc (hv.mono hle)

theorem repl (h : M.Pair a b) (hv : M.Values v w) (hx : M.Values x y) :
    Runs M a b .repl [v, x] [w, y] := by
  refine (inputArg h hv).bind fun N₁ c d h₁ hc => ?_
  refine (textArg (h.mono h₁) (hx.mono h₁)).bind fun N₂ r t h₂ he => ?_
  subst he
  exact (runStream (h.mono (h₁.trans h₂)) (.object (hc.mono h₂) rfl) r true).imp fun _ _ _ =>
    Settled.grown

theorem defineValues (h : M.Pair a b) (hs : M.Lists vs ws) : Runs M a b .define vs ws :=
  (scopeAndPairs h hs).bind fun _ _ _ hle hr => defineIn (h.mono hle) hr.1 .nil hr.2

theorem assignValues (h : M.Pair a b) (hs : M.Lists vs ws) : Runs M a b .assign vs ws :=
  (scopeAndPairs h hs).bind fun _ _ _ hle hr => assignIn (h.mono hle) hr.1 .nil hr.2

theorem symbol (h : M.Pair a b) (hv : M.Values v w) : Runs M a b .symbol [v] [w] := by
  refine (bytesArg h hv).bind fun N₁ r t _ he => ?_
  subst he
  refine perform (.intern r) fun N₂ s s' hq => Alike.weaken ?_ hq.1
  obtain ⟨_, hs, rfl⟩ := hq
  exact pure (.sym hs)

theorem gensym : Runs M a b .gensym [] [] := by
  refine perform .gensym fun N r t hq => Alike.weaken ?_ hq.1
  obtain ⟨_, hs, rfl⟩ := hq
  exact pure (.sym hs)

theorem bindList (h : M.Pair a b) (hv : M.Values v w) (hx : M.Values x y) :
    Runs M a b .bind [v, x] [w, y] := by
  refine (listArg h hx).bind fun N₁ is js h₁ hs => ?_
  refine (bindParams (h.mono h₁) (hv.mono h₁) hs).bind fun N₂ _ _ h₂ _ => ?_
  exact pure (hx.mono (h₁.trans h₂))

theorem throw (h : M.Pair a b) (hv : M.Values v w) (hx : M.Values x y) :
    Runs M a b .throw [v, x] [w, y] := by
  refine (textArg h hv).bind fun N r t hle he => ?_
  subst he
  exact raise (h.mono hle) (.thrown r) (hx.mono hle) trivial

theorem runPrimitive (h : M.Pair a b) (p : Primitive) (hs : M.Lists vs ws) :
    Runs M a b p vs ws := by
  cases p with
  | add | sub | mul | max | min | bitAnd | bitOr | bitXor =>
    exact oneOrMore h hs (fun _ => rfl) fun hv hs => foldNums h hv hs _
  | div | rem => exact oneOrMore h hs (fun _ => rfl) fun hv hs => divideNums h hv hs _
  | eq | lt | gt | le | ge =>
    exact oneOrMore h hs (fun _ => rfl) fun hv hs => compareNums h (.cons hv hs) _
  | shiftLeft | shiftRight | shiftArith =>
    exact binary h hs (fun _ => rfl) (fun _ _ => rfl) (fun _ _ _ _ _ => rfl)
      fun hv hx => shiftNum h hv hx _
  | ne => exact oneOrMore h hs (fun _ => rfl) fun hv hs => distinct h hv hs
  | list => exact newList hs
  | cat => exact oneOrMore h hs (fun _ => rfl) fun hv hs => cat h (.cons hv hs)
  | prin | print => exact printAll hs _
  | progn => exact pure (Matching.rel_getD hs.getLast? .nil)
  | define => exact defineValues h hs
  | assign => exact assignValues h hs
  | time => exact nullary h hs (fun _ _ _ => rfl) time
  | gensym => exact nullary h hs (fun _ _ _ => rfl) gensym
  | pop => exact unary h hs (fun _ => rfl) (fun _ _ _ _ => rfl) fun hv => pop h hv
  | length => exact unary h hs (fun _ => rfl) (fun _ _ _ _ => rfl) fun hv => length h hv
  | copy => exact unary h hs (fun _ => rfl) (fun _ _ _ _ => rfl) fun hv => copy hv
  | char => exact unary h hs (fun _ => rfl) (fun _ _ _ _ => rfl) fun hv => char h hv
  | str => exact unary h hs (fun _ => rfl) (fun _ _ _ _ => rfl) fun hv => strOf hv
  | fileStream => exact unary h hs (fun _ => rfl) (fun _ _ _ _ => rfl) fun hv => fileStream h hv
  | stringStream => exact unary h hs (fun _ => rfl) (fun _ _ _ _ => rfl) fun hv => stringStream h hv
  | readChar => exact unary h hs (fun _ => rfl) (fun _ _ _ _ => rfl) fun hv => readChar h hv
  | readLine => exact unary h hs (fun _ => rfl) (fun _ _ _ _ => rfl) fun hv => readLine h hv
  | load => exact unary h hs (fun _ => rfl) (fun _ _ _ _ => rfl) fun hv => load h hv
  | symbol => exact unary h hs (fun _ => rfl) (fun _ _ _ _ => rfl) fun hv => symbol h hv
  | eql =>
    exact binary h hs (fun _ => rfl) (fun _ _ => rfl) (fun _ _ _ _ _ => rfl) fun hv hx => eql hv hx
  | elem =>
    exact binary h hs (fun _ => rfl) (fun _ _ => rfl) (fun _ _ _ _ _ => rfl) fun hv hx =>
      elem h hv hx
  | find =>
    exact binary h hs (fun _ => rfl) (fun _ _ => rfl) (fun _ _ _ _ _ => rfl) fun hv hx =>
      find h hv hx
  | merge =>
    exact binary h hs (fun _ => rfl) (fun _ _ => rfl) (fun _ _ _ _ _ => rfl) fun hv hx =>
      merge h hv hx
  | split =>
    exact binary h hs (fun _ => rfl) (fun _ _ => rfl) (fun _ _ _ _ _ => rfl) fun hv hx =>
      split h hv hx
  | isMatch =>
    exact binary h hs (fun _ => rfl) (fun _ _ => rfl) (fun _ _ _ _ _ => rfl) fun hv hx =>
      isMatch h hv hx
  | compare =>
    exact binary h hs (fun _ => rfl) (fun _ _ => rfl) (fun _ _ _ _ _ => rfl) fun hv hx =>
      compareTexts h hv hx
  | read =>
    exact binary h hs (fun _ => rfl) (fun _ _ => rfl) (fun _ _ _ _ _ => rfl) fun hv hx =>
      readNext h hv hx
  | write =>
    exact binary h hs (fun _ => rfl) (fun _ _ => rfl) (fun _ _ _ _ _ => rfl) fun hv hx =>
      write h hv hx
  | writeChar =>
    exact binary h hs (fun _ => rfl) (fun _ _ => rfl) (fun _ _ _ _ _ => rfl) fun hv hx =>
      writeChar h hv hx
  | writeLine =>
    exact binary h hs (fun _ => rfl) (fun _ _ => rfl) (fun _ _ _ _ _ => rfl) fun hv hx =>
      writeLine h hv hx
  | save =>
    exact binary h hs (fun _ => rfl) (fun _ _ => rfl) (fun _ _ _ _ _ => rfl) fun hv hx =>
      save h hv hx
  | apply =>
    exact binary h hs (fun _ => rfl) (fun _ _ => rfl) (fun _ _ _ _ _ => rfl) fun hv hx =>
      applyList h hv hx
  | repl =>
    exact binary h hs (fun _ => rfl) (fun _ _ => rfl) (fun _ _ _ _ _ => rfl) fun hv hx =>
      repl h hv hx
  | bind =>
    exact binary h hs (fun _ => rfl) (fun _ _ => rfl) (fun _ _ _ _ _ => rfl) fun hv hx =>
      bindList h hv hx
  | throw =>
    exact binary h hs (fun _ => rfl) (fun _ _ => rfl) (fun _ _ _ _ _ => rfl) fun hv hx =>
      throw h hv hx
  | elemSet =>
    exact ternary h hs (fun _ => rfl) (fun _ _ => rfl) (fun _ _ _ => rfl) (fun _ _ _ _ _ _ => rfl)
        fun hv hx hz =>
      elemSet h hv hx hz
  | slice =>
    exact ternary h hs (fun _ => rfl) (fun _ _ => rfl) (fun _ _ _ => rfl) (fun _ _ _ _ _ _ => rfl)
        fun hv hx hz =>
      slice h hv hx hz
  | push =>
    cases hs with
    | nil => exact refuseArgs h .nil
    | cons hv hs => exact push h hv hs
  | clear =>
    cases hs with
    | nil => exact refuseArgs h .nil
    | cons hv hs => exact clearAll h hv (.cons hv hs)
  | code =>
    exact oneOrTwo h hs (fun _ => rfl) (fun _ _ _ _ _ => rfl) (fun hv => code h hv .none)
      fun hv hx => code h hv (.some hx)
  | eval =>
    exact oneOrTwo h hs (fun _ => rfl) (fun _ _ _ _ _ => rfl) (fun hv => evaluate h hv) fun hv hx =>
      evalIn h hv hx
  | isDefined =>
    exact oneOrTwo h hs (fun _ => rfl) (fun _ _ _ _ _ => rfl) (fun hv => isDefined h hv .none)
        fun hv hx =>
      isDefined h hv (.some hx)
  | each =>
    refine fourOrMore h hs (fun _ => rfl) (fun _ _ => rfl) (fun _ _ _ => rfl) (fun _ _ _ _ => rfl)
      fun hv hx hz hu hs => ?_
    cases hs with
    | nil => exact each h hv hx hz hu
    | cons hr hs => exact refuseArgs h (.cons hv (.cons hx (.cons hz (.cons hu (.cons hr hs)))))
  | partition =>
    refine fourOrMore h hs (fun _ => rfl) (fun _ _ => rfl) (fun _ _ _ => rfl) (fun _ _ _ _ => rfl)
      fun hv hx hz hu hs => ?_
    cases hs with
    | nil => exact partition h hv hx hz hu
    | cons hr hs => exact refuseArgs h (.cons hv (.cons hx (.cons hz (.cons hu (.cons hr hs)))))
  | some =>
    refine fourOrMore h hs (fun _ => rfl) (fun _ _ => rfl) (fun _ _ _ => rfl) (fun _ _ _ _ => rfl)
      fun hv hx hz hu hs => ?_
    cases hs with
    | nil => exact refuseArgs h (.cons hv (.cons hx (.cons hz (.cons hu .nil))))
    | cons hr hs =>
      cases hs with
      | nil => exact some h hv hx hz hu hr
      | cons hq hs =>
        exact refuseArgs h (.cons hv (.cons hx (.cons hz (.cons hu (.cons hr (.cons hq hs))))))

theorem runNative (h : M.Pair a b) (n : Native) (hs : M.Lists vs ws) :
    Alike false (Grown M fun N => N.Values) M (Eval.runNative a vs n) (Eval.runNative b ws n) := by
  cases n with
  | special form => exact runSpecial h form hs
  | primitive p => exact runPrimitive h p hs

/-- A form with the given head and arguments: what the head is decides whether the arguments are
evaluated. -/
theorem combine (h : M.Pair a b) (hv : M.Values v w) (hx : M.Values x y) (hs : M.Lists vs ws) :
    Alike false (Grown M fun N => N.Values) M (Call.body ⟨a, v, .combine x vs⟩)
      (Call.body ⟨b, w, .combine y ws⟩) := by
  refine (evaluate h hx).bind fun N₁ f g h₁ hf => ?_
  refine (functionOf hf).bind fun N₂ r t h₂ hr => ?_
  have hM := h₁.trans h₂
  have h := h.mono hM
  have hs := hs.mono hM
  cases hr with
  | none => exact raise h .notFunction (hv.mono hM) trivial
  | some hr =>
    cases hr with
    | native n =>
      cases n with
      | special form => exact invoke h (.special form) hs
      | primitive p =>
        exact (evaluateAll h hs).bind fun N₃ xs ys h₃ hx => invoke (h.mono h₃) (.primitive p) hx
    | @closure c d hc =>
      dsimp only
      rw [hc.kind]
      cases d.kind with
      | lambda =>
        exact (evaluateAll h hs).bind fun N₃ xs ys h₃ hx => applyClosure (hc.mono h₃) hx
      | expander =>
        exact (applyClosure hc hs).bind fun N₃ e e' h₃ he => evaluate (h.mono h₃) he

theorem body {c d : Call} (h : M.Calls c d) :
    Alike false (Grown M fun N => N.Values) M c.body d.body := by
  obtain ⟨hscope, hsubject, hwork⟩ := h
  obtain ⟨s, v, work⟩ := c
  obtain ⟨s', v', work'⟩ := d
  cases hwork with
  | combine hh ha => exact combine hscope hsubject hh ha
  | native n ha => exact invoke hscope n ha
  | closure hc ha => exact applyClosure hc ha
  | bind hp ha => exact (bindParams hscope hp ha).bind fun _ _ _ _ _ => pure .nil
  | fill ht => exact fill hscope ht

theorem refusal {c d : Call} (h : M.Calls c d) :
    Alike top (Grown M fun N => N.Values) M c.refusal d.refusal :=
  raise h.scope .tooDeep h.subject trivial

end HeapLisp.Alike
