import HeapLisp.Eval.Basic
import HeapLisp.Proofs.Store.Intact
import Mathlib.Order.Basic
import Mathlib.Data.List.Forall2

namespace HeapLisp

/-- The kind of an object, which no effect changes. -/
inductive Kind where
  | str
  | list
  | scope
  | function
  | failure
  | input
  | output
deriving DecidableEq, Repr

def Object.kind : Object → Kind
  | str _ => .str
  | list _ => .list
  | scope _ => .scope
  | function _ => .function
  | failure _ => .failure
  | input _ => .input
  | output _ => .output

/-- Which addresses of one store stand for which of another, by the kind of their objects. The lists
that closures have as their forms are matched apart, by the kind of the closures, so that a matching
may keep them from programs. Symbols stand for themselves if they are known. -/
structure Matching where
  pairs : Kind → Addr → Addr → Prop
  form : ClosureKind → Addr → Addr → Prop
  knows : Symbol → Prop
  unique : ∀ {k l a b c d}, pairs k a b → pairs l c d → (a = c ↔ b = d)
  wellKnown : ∀ {s : Symbol}, s.index < Symbol.wellKnown.length → knows s

theorem ClosureKind.symbol_wellKnown (k : ClosureKind) :
    k.symbol.index < Symbol.wellKnown.length := by
  cases k <;> decide

namespace Matching

instance : LE Matching :=
  ⟨fun M N => (∀ k a b, M.pairs k a b → N.pairs k a b) ∧ (∀ k a b, M.form k a b → N.form k a b) ∧
    ∀ s, M.knows s → N.knows s⟩

instance : Preorder Matching where
  le_refl _ := ⟨fun _ _ _ h => h, fun _ _ _ h => h, fun _ h => h⟩
  le_trans _ _ _ h₁ h₂ := ⟨fun k a b h => h₂.1 k a b (h₁.1 k a b h),
    fun k a b h => h₂.2.1 k a b (h₁.2.1 k a b h), fun s h => h₂.2.2 s (h₁.2.2 s h)⟩

variable {M N : Matching}

/-- Two addresses stand for each other. -/
def Pair (M : Matching) (a b : Addr) : Prop := ∃ k, M.pairs k a b

theorem pairs.pair {k : Kind} {a b : Addr} (h : M.pairs k a b) : M.Pair a b := ⟨k, h⟩

theorem Pair.mono {a b : Addr} (h : M.Pair a b) (hle : M ≤ N) : N.Pair a b := by
  obtain ⟨k, hk⟩ := h
  exact ⟨k, hle.1 k a b hk⟩

theorem Pair.eq_iff {a b c d : Addr} (h : M.Pair a b) (h' : M.Pair c d) : a = c ↔ b = d := by
  obtain ⟨_, hk⟩ := h
  obtain ⟨_, hl⟩ := h'
  exact M.unique hk hl

theorem knows.mono {s : Symbol} (h : M.knows s) (hle : M ≤ N) : N.knows s := hle.2.2 s h

/-- The same number or symbol, or matching addresses. -/
inductive Values (M : Matching) : Value → Value → Prop where
  | num (n : Int64) : M.Values (.num n) (.num n)
  | sym {s : Symbol} (h : M.knows s) : M.Values (.sym s) (.sym s)
  | ref {a b : Addr} (h : M.Pair a b) : M.Values (.ref a) (.ref b)

theorem Values.wellKnown {s : Symbol} (h : s.index < Symbol.wellKnown.length) :
    M.Values (.sym s) (.sym s) := .sym (M.wellKnown h)

theorem Values.nil : M.Values .nil .nil := .wellKnown (by decide)

theorem Values.mono {v w : Value} (h : M.Values v w) (hle : M ≤ N) : N.Values v w := by
  cases h with
  | num n => exact .num n
  | sym hs => exact .sym (hs.mono hle)
  | ref h => exact .ref (h.mono hle)

/-- The value is no symbol that is not known. -/
def Known (M : Matching) (v : Value) : Prop := ∀ x, v = .sym x → M.knows x

theorem Known.mono {v : Value} (h : M.Known v) (hle : M ≤ N) : N.Known v :=
  fun x hx => (h x hx).mono hle

theorem Values.known {v w : Value} (h : M.Values v w) : M.Known v := by
  rintro x rfl
  cases h with
  | sym hx => exact hx

theorem Values.pair {a b : Addr} (h : M.Values (.ref a) (.ref b)) : M.Pair a b := by
  cases h with
  | ref h => exact h

theorem Values.eq_iff {v w v' w' : Value} (h : M.Values v w) (h' : M.Values v' w') :
    v = v' ↔ w = w' := by
  cases h with
  | num n => cases h' <;> simp
  | sym s => cases h' <;> simp
  | ref h =>
    cases h' with
    | num n => simp
    | sym s => simp
    | ref h' => rw [Value.ref.injEq, Value.ref.injEq, h.eq_iff h']

theorem Values.eq_sym_iff {v w : Value} (h : M.Values v w) (s : Symbol) :
    v = .sym s ↔ w = .sym s := by
  cases h <;> simp

theorem Values.isNil_eq {v w : Value} (h : M.Values v w) : v.isNil = w.isNil := by
  rw [Bool.eq_iff_iff, Value.isNil, Value.isNil, beq_iff_eq, beq_iff_eq]
  exact h.eq_iff .nil

/-- Lists of matching values, one by one. -/
def Lists (M : Matching) : List Value → List Value → Prop := List.Forall₂ M.Values

theorem Lists.mono {vs ws : List Value} (h : M.Lists vs ws) (hle : M ≤ N) : N.Lists vs ws :=
  List.Forall₂.imp (fun _ _ h => h.mono hle) h

theorem Lists.nil : M.Lists [] [] := List.Forall₂.nil

theorem Lists.cons {v w : Value} {vs ws : List Value} (h : M.Values v w) (hs : M.Lists vs ws) :
    M.Lists (v :: vs) (w :: ws) := List.Forall₂.cons h hs

theorem Lists.append {vs ws vs' ws' : List Value} (h : M.Lists vs ws) (h' : M.Lists vs' ws') :
    M.Lists (vs ++ vs') (ws ++ ws') := List.rel_append h h'

theorem Lists.reverse {vs ws : List Value} (h : M.Lists vs ws) : M.Lists vs.reverse ws.reverse :=
  List.rel_reverse h

theorem Lists.getLast? {vs ws : List Value} (h : M.Lists vs ws) :
    Option.Rel M.Values vs.getLast? ws.getLast? := by
  rw [List.getLast?_eq_head?_reverse, List.getLast?_eq_head?_reverse]
  generalize hv : vs.reverse = vs', hw : ws.reverse = ws'
  have hr := h.reverse
  rw [hv, hw] at hr
  cases hr with
  | nil => exact .none
  | cons h _ => exact .some h

/-- Optional values match if both are missing or both are there and match. -/
theorem rel_getD {v w : Option Value} {d e : Value} (h : Option.Rel M.Values v w)
    (hd : M.Values d e) :
    M.Values (v.getD d) (w.getD e) := by
  cases h with
  | none => exact hd
  | some h => exact h

theorem rel_mono {v w : Option Value} (h : Option.Rel M.Values v w) (hle : M ≤ N) :
    Option.Rel N.Values v w := by
  cases h with
  | none => exact .none
  | some h => exact .some (h.mono hle)

/-- Bindings of the same symbols to matching values. -/
structure Binds (M : Matching) (b c : Bindings) : Prop where
  values : ∀ s, Option.Rel M.Values (b.get? s) (c.get? s)
  knows : ∀ {s v}, b.get? s = some v → M.knows s

theorem Binds.empty : M.Binds .empty .empty := ⟨by simp, by simp⟩

theorem Binds.mono {b c : Bindings} (h : M.Binds b c) (hle : M ≤ N) : N.Binds b c :=
  ⟨fun s => rel_mono (h.values s) hle, fun hs => (h.knows hs).mono hle⟩

/-- Closures of one kind with matching forms and scopes. -/
structure Closures (M : Matching) (c d : Closure) : Prop where
  kind : c.kind = d.kind
  form : M.form c.kind c.form d.form
  scope : M.Pair c.scope d.scope

theorem Closures.mono {c d : Closure} (h : M.Closures c d) (hle : M ≤ N) : N.Closures c d :=
  ⟨h.kind, hle.2.1 _ _ _ h.form, h.scope.mono hle⟩

inductive Functions (M : Matching) : Function → Function → Prop where
  | native (n : Native) : M.Functions (.native n) (.native n)
  | closure {c d : Closure} (h : M.Closures c d) : M.Functions (.closure c) (.closure d)

theorem Functions.mono {f g : Function} (h : M.Functions f g) (hle : M ≤ N) : N.Functions f g := by
  cases h with
  | native n => exact .native n
  | closure h => exact .closure (h.mono hle)

/-- Objects that are the same up to their addresses, which match. -/
inductive Objects (M : Matching) : Object → Object → Prop where
  | str (text : ByteArray) : M.Objects (.str text) (.str text)
  | list {xs ys : Array Value} (h : M.Lists xs.toList ys.toList) : M.Objects (.list xs) (.list ys)
  | scope {s t : Scope} (hb : M.Binds s.bindings t.bindings)
    (hp : Option.Rel M.Pair s.parent t.parent) :
    M.Objects (.scope s) (.scope t)
  | function {f g : Function} (h : M.Functions f g) : M.Objects (.function f) (.function g)
  | failure (fault : Fault) (location : Location) {v w : Value} (h : M.Values v w) :
    M.Objects (.failure ⟨fault, location, v⟩) (.failure ⟨fault, location, w⟩)
  | input (stream : InputStream) : M.Objects (.input stream) (.input stream)
  | output (written : ByteArray) : M.Objects (.output written) (.output written)

theorem rel_pair_mono {a b : Option Addr} (h : Option.Rel M.Pair a b) (hle : M ≤ N) :
    Option.Rel N.Pair a b := by
  cases h with
  | none => exact .none
  | some h => exact .some (h.mono hle)

theorem Objects.mono {o p : Object} (h : M.Objects o p) (hle : M ≤ N) : N.Objects o p := by
  cases h with
  | str text => exact .str text
  | list h => exact .list (h.mono hle)
  | scope hb hp => exact .scope (hb.mono hle) (rel_pair_mono hp hle)
  | function h => exact .function (h.mono hle)
  | failure fault location h => exact .failure fault location (h.mono hle)
  | input stream => exact .input stream
  | output written => exact .output written

theorem Objects.kind_eq {o p : Object} (h : M.Objects o p) : o.kind = p.kind := by
  cases h <;> rfl

/-- The items of matching objects match, if they are lists. -/
theorem Objects.items? {o p : Object} (h : M.Objects o p) :
    Option.Rel M.Lists o.items? p.items? := by
  cases h with
  | list h => exact .some h
  | str | scope | function | failure | input | output => exact .none

/-- The same number or symbol, or matching addresses of what is no list. -/
inductive NoLists (M : Matching) : Value → Value → Prop where
  | num (n : Int64) : M.NoLists (.num n) (.num n)
  | sym {s : Symbol} (h : M.knows s) : M.NoLists (.sym s) (.sym s)
  | ref {k : Kind} {a b : Addr} (h : M.pairs k a b) (hk : k ≠ .list) : M.NoLists (.ref a) (.ref b)

theorem NoLists.mono {v w : Value} (h : M.NoLists v w) (hle : M ≤ N) : N.NoLists v w := by
  cases h with
  | num n => exact .num n
  | sym hs => exact .sym (hs.mono hle)
  | ref h hk => exact .ref (hle.1 _ _ _ h) hk

/-- Forms of closures that programs can get hold of. -/
inductive OpenForms (M : Matching) : Value → Value → Prop where
  | ref {kind : ClosureKind} {a b : Addr} (hf : M.form kind a b) (h : M.Pair a b) :
    M.OpenForms (.ref a) (.ref b)

theorem OpenForms.mono {v w : Value} (h : M.OpenForms v w) (hle : M ≤ N) : N.OpenForms v w := by
  cases h with
  | ref hf h => exact .ref (hle.2.1 _ _ _ hf) (h.mono hle)

/-- What an error may be about: one that says that something is no list is about no list, and one
that says that a closure's form is malformed is about a form that programs can get hold of. -/
def Blames (M : Matching) (fault : Fault) (v w : Value) : Prop :=
  match fault with
  | .notList => M.NoLists v w
  | .malformedFunction => M.OpenForms v w
  | _ => True

theorem Blames.mono {fault : Fault} {v w : Value} (h : M.Blames fault v w) (hle : M ≤ N) :
    N.Blames fault v w := by
  cases fault with
  | notList => exact NoLists.mono h hle
  | malformedFunction => exact OpenForms.mono h hle
  | _ => trivial

theorem blames_of_kind {fault : Fault} (h : fault.kind ≠ .type) (v w : Value) :
    M.Blames fault v w := by
  cases fault with
  | notList | malformedFunction => exact absurd rfl h
  | _ => trivial

/-- Objects that may be stored: errors have to be about what they may be about. -/
def Suits (M : Matching) : Object → Object → Prop
  | .failure f, .failure g => M.Blames f.fault f.subject g.subject
  | _, _ => True

/-- The same stream of one's own, or matching addresses of streams. A session outside all evaluation
(`top`) has a stream of its own, because a collection does not keep one that is an object. -/
inductive Sources (M : Matching) (top : Bool) : Source → Source → Prop where
  | own (stream : InputStream) : M.Sources top (.own stream) (.own stream)
  | object {a b : Addr} (h : M.Pair a b) (ht : top = false) : M.Sources top (.object a) (.object b)

theorem Sources.mono {top : Bool} {s t : Source} (h : M.Sources top s t)
    (hle : top = false → M ≤ N) : N.Sources top s t := by
  cases h with
  | own stream => exact .own stream
  | object h ht => exact .object (h.mono (hle ht)) ht

inductive Readouts (M : Matching) : Readout → Readout → Prop where
  | ended : M.Readouts .ended .ended
  | value {v w : Value} (h : M.Values v w) : M.Readouts (.value v) (.value w)
  | failed (e : ReadError) : M.Readouts (.failed e) (.failed e)

theorem Readouts.mono {r t : Readout} (h : M.Readouts r t) (hle : M ≤ N) : N.Readouts r t := by
  cases h with
  | ended => exact .ended
  | value h => exact .value (h.mono hle)
  | failed e => exact .failed e

inductive Works (M : Matching) : Work → Work → Prop where
  | combine {h h' : Value} {as bs : List Value} (hh : M.Values h h') (ha : M.Lists as bs) :
    M.Works (.combine h as) (.combine h' bs)
  | native (n : Native) {as bs : List Value} (ha : M.Lists as bs) :
    M.Works (.native n as) (.native n bs)
  | closure {c d : Closure} {as bs : List Value} (hc : M.Closures c d) (ha : M.Lists as bs) :
    M.Works (.closure c as) (.closure d bs)
  | bind {p q : Value} {as bs : List Value} (hp : M.Values p q) (ha : M.Lists as bs) :
    M.Works (.bind p as) (.bind q bs)
  | fill {t u : Value} (h : M.Values t u) : M.Works (.fill t) (.fill u)

/-- Calls in matching scopes, about matching values, with matching work. -/
structure Calls (M : Matching) (c d : Call) : Prop where
  scope : M.Pair c.scope d.scope
  subject : M.Values c.subject d.subject
  work : M.Works c.work d.work

/-- Loops that are the same up to their addresses, which match. -/
inductive Loops (M : Matching) (top : Bool) : Loop → Loop → Prop where
  | repeating {a b : Addr} {t u l l' : Value} {fs gs : List Value} (hs : M.Pair a b)
    (ht : M.Values t u) (hf : M.Lists fs gs)
    (hl : M.Values l l') : M.Loops top (.repeating a t fs l) (.repeating b u gs l')
  | session {a b : Addr} {s s' : Source} (mark : Bookmark) (report : Bool) {ks ks' : List Value}
    {l l' : Value}
    (hs : M.Pair a b) (hsrc : M.Sources top s s') (hk : M.Lists ks ks') (hl : M.Values l l') :
    M.Loops top (.session a s mark report ks l) (.session b s' mark report ks' l')

/-- How the matching at the end of a loop (`N`) follows from the one at its start (`M`). Nested in
an evaluation it has grown; outside all evaluation collections leave no more than what a session
keeps. -/
inductive After (top : Bool) (M N : Matching) : Loop → Loop → Prop where
  | repeating {a b : Addr} {t u l l' : Value} {fs gs : List Value} (h : M ≤ N) :
    After top M N (.repeating a t fs l) (.repeating b u gs l')
  | session {a b : Addr} {s s' : Source} {m m' : Bookmark} {r r' : Bool} {ks ks' : List Value}
    {l l' : Value}
    (h : top = false → M ≤ N) (hs : N.Pair a b) (hk : N.Lists ks ks') :
    After top M N (.session a s m r ks l) (.session b s' m' r' ks' l')

/-- Both succeed with results that `V` relates, or both fail with error objects that match. -/
inductive Ending {α : Type} (N : Matching) (V : α → α → Prop) :
    Except Addr α → Except Addr α → Prop where
  | ok {a b : α} (h : V a b) : N.Ending V (.ok a) (.ok b)
  | error {e f : Addr} (h : N.pairs .failure e f) : N.Ending V (.error e) (.error f)

theorem Ending.mono {r t : Except Addr Value} (h : M.Ending M.Values r t) (hle : M ≤ N) :
    N.Ending N.Values r t := by
  cases h with
  | ok h => exact .ok (h.mono hle)
  | error h => exact .error (hle.1 _ _ _ h)

end Matching

end HeapLisp
