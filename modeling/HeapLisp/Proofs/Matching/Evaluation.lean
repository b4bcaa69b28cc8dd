import HeapLisp.Proofs.Matching.Basic

namespace HeapLisp

/-- Matching effects, and how the matching that comes after them relates their replies. Only a
collection outside all evaluation (`top`) may forget what was matched, and it keeps its roots. -/
inductive Asks (top : Bool) (M : Matching) :
    (e f : Effect) → (Matching → e.Reply → f.Reply → Prop) → Prop where
  | fetch {a b : Addr} (h : M.Pair a b) :
    Asks top M (.fetch a) (.fetch b) fun N o p => M ≤ N ∧ N.pairs o.kind a b ∧ N.Objects o p
  | fetchForm {kind : ClosureKind} {a b : Addr} (h : M.form kind a b) :
    Asks top M (.fetch a) (.fetch b) fun N o p =>
      M ≤ N ∧ N.Objects o p ∧
        (N.Pair a b ∨ ∃ head params body, o.items? = some (head :: params :: body))
  | alloc {o p : Object} (h : M.Objects o p) (hs : M.Suits o p) :
    Asks top M (.alloc o) (.alloc p) fun N a b => M ≤ N ∧ N.pairs o.kind a b
  | allocForm (kind : ClosureKind) {a b : Addr} {vs ws : List Value} (h : M.pairs .list a b)
    (hs : M.Lists vs ws) :
    Asks top M (.alloc (.list (.sym kind.symbol :: .ref a :: vs).toArray))
      (.alloc (.list (.sym kind.symbol :: .ref b :: ws).toArray)) fun N a b => M ≤ N ∧
        N.form kind a b
  | updateItems {a b : Addr} {f g : Array Value → Array Value} (h : M.Pair a b)
    (hf : ∀ N xs ys, M ≤ N → N.Lists (Array.toList xs) (Array.toList ys) →
        N.Lists (f xs).toList (g ys).toList) :
    Asks top M (.updateItems a f) (.updateItems b g) fun N _ _ => M ≤ N
  | lookup {a b : Addr} (h : M.Pair a b) (s : Symbol) :
    Asks top M (.lookup a s) (.lookup b s) fun N v w => M ≤ N ∧ Option.Rel N.Values v w
  | define {a b : Addr} {s : Symbol} {v w : Value} (h : M.Pair a b) (hs : M.knows s)
    (hv : M.Values v w) : Asks top M (.define a s v) (.define b s w) fun N _ _ => M ≤ N
  | assign {a b : Addr} {s : Symbol} {v w : Value} (h : M.Pair a b) (hs : M.knows s)
    (hv : M.Values v w) : Asks top M (.assign a s v) (.assign b s w) fun N r t => M ≤ N ∧ r = t
  | restore {a b : Addr} {s : Symbol} {v w : Option Value} (h : M.Pair a b) (hs : M.knows s)
    (hv : Option.Rel M.Values v w) :
    Asks top M (.restore a s v) (.restore b s w) fun N _ _ => M ≤ N
  | copy {v w : Value} (hv : M.Values v w) :
    Asks top M (.copy v) (.copy w) fun N r t => M ≤ N ∧ N.Values r t
  | intern (name : Bytes) :
    Asks top M (.intern name) (.intern name) fun N r t => M ≤ N ∧ N.knows r ∧ r = t
  | spelling {s : Symbol} (hs : M.knows s) :
    Asks top M (.spelling s) (.spelling s) fun N r t => M ≤ N ∧ r = t
  | sameText {a b c d : Addr} (h : M.Pair a b) (h' : M.Pair c d) :
    Asks top M (.sameText a c) (.sameText b d) fun N r t => M ≤ N ∧ r = t
  | position {v w : Value} {a b : Addr} (hv : M.Values v w) (h : M.Pair a b) :
    Asks top M (.position v a) (.position w b) fun N r t => M ≤ N ∧ r = t
  | gensym : Asks top M .gensym .gensym fun N r t => M ≤ N ∧ N.knows r ∧ r = t
  | render {v w : Value} (style : Style) (hv : M.Values v w) :
    Asks top M (.render style v) (.render style w) fun N r t => M ≤ N ∧ r = t
  | tidy {vs ws : List Value} (hs : M.Lists vs ws) :
    Asks top M (.tidy vs) (.tidy ws) fun N _ _ => (top = false → M ≤ N) ∧ N.Lists vs ws
  | print (text : Bytes) : Asks top M (.print text) (.print text) fun N _ _ => M ≤ N
  | echoes : Asks top M .echoes .echoes fun N r t => M ≤ N ∧ r = t
  | clock : Asks top M .clock .clock fun N r t => M ≤ N ∧ r = t
  | openFile (path : Bytes) : Asks top M (.openFile path) (.openFile path) fun N r t =>
    M ≤ N ∧ r = t
  | readByte {a b : Addr} (h : M.Pair a b) : Asks top M (.readByte a) (.readByte b) fun N r t =>
    M ≤ N ∧ r = t
  | readLine {a b : Addr} (h : M.Pair a b) : Asks top M (.readLine a) (.readLine b) fun N r t =>
    M ≤ N ∧ r = t
  | readForm {s t : Source} (h : M.Sources top s t) (mark : Bookmark) :
    Asks top M (.readForm s mark) (.readForm t mark) fun N r t =>
      M ≤ N ∧ N.Readouts r.1 t.1 ∧ r.2.1 = t.2.1 ∧ N.Sources top r.2.2 t.2.2
  | append {a b : Addr} (h : M.Pair a b) (bytes : Bytes) :
    Asks top M (.append a bytes) (.append b bytes) fun N _ _ => M ≤ N
  | save (path line : Bytes) :
    Asks top M (.save path line) (.save path line) fun N r t =>
      M ≤ N ∧ r = t ∧ ∀ fault, r = .error fault → fault.kind = .io

/-- What is asked of two endings under the matching at the end. -/
abbrev Post (α : Type) := Matching → Except Addr α → Except Addr α → Prop

/-- The matching has grown from `M`, and both endings succeed with results that `V` relates or
fail. -/
def Grown {α : Type} (M : Matching) (V : Matching → α → α → Prop) : Post α :=
  fun N r t => M ≤ N ∧ N.Ending (V N) r t

/-- Evaluations of the same shape: they ask for matching effects, calls and loops, go on in the same
way after matching answers, and end as `P` says. -/
inductive Alike (top : Bool) {α : Type} (P : Post α) : Matching → Eval α → Eval α → Prop where
  | done {M : Matching} {a b : α} (h : P M (.ok a) (.ok b)) : Alike top P M (.done a) (.done b)
  | fail {M : Matching} {a b : Addr} (h : P M (.error a) (.error b)) :
    Alike top P M (.fail a) (.fail b)
  | effect {M : Matching} {e f : Effect} {Q : Matching → e.Reply → f.Reply → Prop}
    {k : e.Reply → Eval α}
    {l : f.Reply → Eval α} (h : Asks top M e f Q)
    (hk : ∀ N r t, Q N r t → Alike top P N (k r) (l t)) :
    Alike top P M (.effect e k) (.effect f l)
  | call {M : Matching} {c d : Call} {k l : Except Addr Value → Eval α} (h : M.Calls c d)
    (hk : ∀ N r t, M ≤ N → N.Ending N.Values r t → Alike top P N (k r) (l t)) :
    Alike top P M (.call c k) (.call d l)
  | native {M : Matching} {a b : Addr} {n : Native} {vs ws : List Value}
    {k l : Except Addr Value → Eval α} (htop : top = false)
    (h : M.Pair a b) (hs : M.Lists vs ws)
    (hk : ∀ N r t, M ≤ N → N.Ending N.Values r t → Alike top P N (k r) (l t)) :
    Alike top P M (.native a n vs k) (.native b n ws l)
  | loop {M : Matching} {i j : Loop} {k l : Except Addr Value → Eval α} (h : M.Loops top i j)
    (hk : ∀ N r t, Matching.After top M N i j → N.Ending N.Values r t → Alike top P N (k r) (l t)) :
    Alike top P M (.loop i k) (.loop j l)

namespace Alike

variable {α β : Type} {top : Bool} {M : Matching}

theorem imp {P Q : Post α} {x y : Eval α} (h : Alike top P M x y)
    (hq : ∀ N r t, P N r t → Q N r t) :
    Alike top Q M x y := by
  induction h with
  | done h => exact .done (hq _ _ _ h)
  | fail h => exact .fail (hq _ _ _ h)
  | effect h _ ih => exact .effect h ih
  | call h _ ih => exact .call h ih
  | native htop h hs _ ih => exact .native htop h hs ih
  | loop h _ ih => exact .loop h ih

theorem resume {P : Post α} {Q : Post β} {x y : Eval α} {f g : Except Addr α → Eval β}
    (h : Alike top P M x y) (hk : ∀ N r t, P N r t → Alike top Q N (f r) (g t)) :
    Alike top Q M (x.resume f) (y.resume g) := by
  induction h with
  | done h => exact hk _ _ _ h
  | fail h => exact hk _ _ _ h
  | effect h _ ih => exact .effect h ih
  | call h _ ih => exact .call h ih
  | native htop h hs _ ih => exact .native htop h hs ih
  | loop h _ ih => exact .loop h ih

/-- What follows has to be alike after results alone: errors pass through. -/
theorem bindWith {P : Post α} {Q : Post β} {x y : Eval α} {f g : α → Eval β} (h : Alike top P M x y)
    (hk : ∀ N a b, P N (.ok a) (.ok b) → Alike top Q N (f a) (g b))
    (he : ∀ N a b, P N (.error a) (.error b) → Q N (.error a) (.error b)) :
    Alike top Q M (x >>= f) (y >>= g) := by
  induction h with
  | done h => exact hk _ _ _ h
  | fail h => exact .fail (he _ _ _ h)
  | effect h _ ih => exact .effect h ih
  | call h _ ih => exact .call h ih
  | native htop h hs _ ih => exact .native htop h hs ih
  | loop h _ ih => exact .loop h ih

theorem weaken {N : Matching} {V : Matching → α → α → Prop} {x y : Eval α}
    (h : Alike top (Grown N V) N x y) (hle : M ≤ N) : Alike top (Grown M V) N x y :=
  h.imp fun _ _ _ h => ⟨hle.trans h.1, h.2⟩

theorem bind {V : Matching → α → α → Prop} {U : Matching → β → β → Prop} {x y : Eval α}
    {f g : α → Eval β} (h : Alike top (Grown M V) M x y)
    (hk : ∀ N a b, M ≤ N → V N a b → Alike top (Grown N U) N (f a) (g b)) :
    Alike top (Grown M U) M (x >>= f) (y >>= g) := by
  refine h.bindWith (fun N a b hp => ?_) (fun N a b hp => ?_)
  · obtain ⟨hle, hv⟩ := hp
    cases hv with
    | ok hv => exact (hk N a b hle hv).weaken hle
  · obtain ⟨hle, hv⟩ := hp
    cases hv with
    | error h => exact ⟨hle, .error h⟩

theorem pure {V : Matching → α → α → Prop} {a b : α} (h : V M a b) :
    Alike top (Grown M V) M (Pure.pure a) (Pure.pure b) := .done ⟨le_refl M, .ok h⟩

theorem attempt {V : Matching → α → α → Prop} {x y : Eval α} (h : Alike top (Grown M V) M x y) :
    Alike top (Grown M fun N r t => N.Ending (V N) r t) M x.attempt y.attempt :=
  h.resume fun _ _ _ h => .done ⟨h.1, .ok h.2⟩

theorem ofExcept {V : Matching → α → α → Prop} {r t : Except Addr α} (h : M.Ending (V M) r t) :
    Alike top (Grown M V) M (Eval.ofExcept r) (Eval.ofExcept t) := by
  cases h with
  | ok h => exact .done ⟨le_refl M, .ok h⟩
  | error h => exact .fail ⟨le_refl M, .error h⟩

/-- A single effect whose replies are related by `V` under a matching that has grown. -/
theorem perform {e f : Effect} {Q : Matching → e.Reply → f.Reply → Prop} {P : Post β}
    {k : e.Reply → Eval β} {l : f.Reply → Eval β} (h : Asks top M e f Q)
    (hk : ∀ N r t, Q N r t → Alike top P N (k r) (l t)) :
    Alike top P M (Eval.perform e >>= k) (Eval.perform f >>= l) := .effect h hk

theorem enter {c d : Call} (h : M.Calls c d) :
    Alike top (Grown M fun N => N.Values) M (Eval.enter c) (Eval.enter d) :=
  .call h fun _ _ _ hle he => (ofExcept he).weaken hle

theorem invoke {a b : Addr} {vs ws : List Value} (h : M.Pair a b) (n : Native)
    (hs : M.Lists vs ws) :
    Alike false (Grown M fun N => N.Values) M (Eval.invoke a n vs) (Eval.invoke b n ws) :=
  .native rfl h hs fun _ _ _ hle he => (ofExcept he).weaken hle

end Alike

end HeapLisp
