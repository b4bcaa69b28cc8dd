import HeapLisp.Proofs.Host.Soundness
import HeapLisp.Proofs.Matching.Guarding
import Mathlib.Data.Set.Insert

namespace HeapLisp

/-- An interpreter between requests, or at work for one. -/
inductive Stage where
  | idle (s : Interp)
  | busy (m : Machine)

def Stage.interp : Stage → Interp
  | idle s => s
  | busy m => m.interp

/-- The address that comes with a result. -/
def resultAddr? : Except Addr Value → Option Addr
  | .ok v => v.addr?
  | .error e => some e

/-- An interpreter with its host, and the addresses that the host holds: it holds on to those that
it was given as long as their objects are not collected, and asks with no others. -/
structure Hosting where
  stage : Stage
  held : Set Addr

namespace Hosting

def store (σ : Hosting) : Store Object := σ.stage.interp.store

/-- What a host can see without a request: the root, the values of global names, the items of lists
and what errors are about. -/
inductive Shown (s : Interp) (held : Set Addr) : Addr → Prop where
  | root : Shown s held s.root
  | global {name : Bytes} {a : Addr} (h : s.global? name = some (.ref a)) : Shown s held a
  | item {l a : Addr} {items : List Value} (hl : l ∈ held) (h : s.list? (.ref l) = some items)
    (ha : .ref a ∈ items) :
    Shown s held a
  | subject {e a : Addr} {f : Failure} (he : e ∈ held) (h : s.failure? (.ref e) = some f)
    (ha : f.subject = .ref a) :
    Shown s held a

/-- What is left of what a host holds. -/
def remaining (held : Set Addr) (st : Store Object) : Set Addr :=
  {a | a ∈ held ∧ st.contains a = true}

/-- What the host may ask: a request refers to nothing but what it holds, and the symbols that come
with it have names. -/
structure Asks (s : Interp) (held : Set Addr) (q : Request) : Prop where
  held : ∀ a, .ref a ∈ q.values → a ∈ held
  named : ∀ v ∈ q.values, v.Named s.symbols

theorem Asks.empty {s : Interp} {held : Set Addr} {q : Request} (h : q.values = []) :
    Asks s held q := by
  constructor <;> simp [h]

/-- One step of a host and its interpreter. Between requests the host looks at what it may see and
changes the world; during one the interpreter works. -/
inductive Step : Hosting → Hosting → Prop where
  | world {s : Interp} {held : Set Addr} (console : Console) (disk : Disk) (clock : Int64) :
    Step ⟨.idle s, held⟩ ⟨.idle { s with console, disk, clock }, held⟩
  | look {s : Interp} {held : Set Addr} {a : Addr} (h : Shown s held a) :
    Step ⟨.idle s, held⟩ ⟨.idle s, insert a held⟩
  | grant {s s' : Interp} {held : Set Addr} {q : Request} {r : Except Addr Value}
    (hq : Asks s held q)
    (hx : q.evaluation s = none) (hr : q.serve 0 s = .finished r s') :
    Step ⟨.idle s, held⟩ ⟨.idle s', remaining held s'.store ∪ {a | resultAddr? r = some a}⟩
  | start {s : Interp} {held : Set Addr} {q : Request} {x : Eval Value} (hq : Asks s held q)
    (hx : q.evaluation s = some x) : Step ⟨.idle s, held⟩ ⟨.busy ⟨x, [], s⟩, held⟩
  | work {m m' : Machine} {held : Set Addr} (h : m.step = .running m') :
    Step ⟨.busy m, held⟩ ⟨.busy m', remaining held m'.interp.store⟩
  | finish {m : Machine} {s : Interp} {held : Set Addr} {r : Except Addr Value}
    (h : m.step = .finished r s) :
    Step ⟨.busy m, held⟩ ⟨.idle s, remaining held s.store ∪ {a | resultAddr? r = some a}⟩

/-- What a host that starts with a new interpreter can come to. -/
def Reached (σ : Hosting) : Prop :=
  ∃ config disk clock, Relation.ReflTransGen Step ⟨.idle (.new config disk clock), ∅⟩ σ

variable {s s' : Interp} {held : Set Addr} {q : Request} {r : Except Addr Value}

theorem exists_run {m : Machine} {fuel : Nat} (h : m.run fuel = .finished r s') (held : Set Addr) :
    ∃ held', Relation.ReflTransGen Step ⟨.busy m, held⟩ ⟨.idle s', held'⟩ ∧
      ∀ a, resultAddr? r = some a → a ∈ held' := by
  induction fuel generalizing m held with
  | zero => cases h
  | succ fuel ih =>
    rw [Machine.run] at h
    split at h
    · rename_i m' hstep
      obtain ⟨held', hpath, hr⟩ := ih h (remaining held m'.interp.store)
      exact ⟨held', .head (.work hstep) hpath, hr⟩
    · rename_i hstep
      cases h
      exact ⟨_, .single (.finish hstep), fun a ha => .inr ha⟩
    · cases h

/-- Serving a request takes a host from one idle interpreter to the next, with the result in its
hands. -/
theorem exists_served {fuel : Nat} (hq : Asks s held q) (h : q.serve fuel s = .finished r s') :
    ∃ held', Relation.ReflTransGen Step ⟨.idle s, held⟩ ⟨.idle s', held'⟩ ∧
      ∀ a, resultAddr? r = some a → a ∈ held' := by
  cases hx : q.evaluation s with
  | some x =>
    rw [Request.serve_eq_run hx] at h
    obtain ⟨held', hpath, hr⟩ := exists_run h held
    exact ⟨held', .head (.start hq hx) hpath, hr⟩
  | none =>
    have hserve : q.serve 0 s = .finished r s' := by
      cases q with
      | intern | setGlobal | collect | newList | newText => exact h
      | evalText | load | converse | eval | apply | progn | fill | bind | raise => cases hx
    exact ⟨_, .single (.grant hq hx hserve), fun a ha => .inr ha⟩

end Hosting

namespace Matching

variable {M N : Matching} {s s' : Interp} {a : Addr} {v : Value} {held : Set Addr}

namespace Guards

theorem defineGlobal (h : M.Guards s) {x : Symbol} (hx : M.knows x) (hv : M.Values v v) :
    M.Guards (s.defineGlobal x v) ∧ M.Follows s.store M (s.defineGlobal x v).store := by
  obtain ⟨hst, hfollows⟩ := h.seals.modifyBindings h.root.pair fun b c hbc => hbc.insert hx hv
  exact ⟨h.withStore (le_refl M) rfl hst, hfollows⟩

theorem install (h : M.Guards s) (n : Native) : ∃ N : Matching, N.Guards (s.install n) := by
  obtain ⟨N, hle, hp, hN, _⟩ :=
    (h.intern (Bytes.ofString n.name)).alloc (.function (.native n)) trivial
  exact ⟨N, (hN.defineGlobal (hle.2.2 _ (.inr rfl)) (.ref hp.pair)).1⟩

theorem installAll (h : M.Guards s) (ns : List Native) :
    ∃ N : Matching, N.Guards (ns.foldl Interp.install s) := by
  induction ns generalizing M s with
  | nil => exact ⟨M, h⟩
  | cons n ns ih =>
    obtain ⟨N, hN⟩ := h.install n
    exact ih hN

theorem new (config : Config) (disk : Disk) (clock : Int64) :
    ∃ M : Matching, M.Guards (.new config disk clock) := by
  obtain ⟨M, _, hk, hroot, hst, _⟩ :=
    Seals.empty.insert (o := .scope (.inside none)) (.scope .empty .none) trivial
  have hsize : (SymbolTable.empty.internAll Symbol.wellKnown).size = Symbol.wellKnown.length := by
    decide +kernel
  have h₁ : M.Guards (.bare config disk clock) := by
    refine ⟨hst, hroot, fun x => ?_⟩
    rw [hk]
    exact (SymbolTable.spelling?_isSome_iff.trans (by rw [Interp.bare, hsize]; rfl)).symm
  have h₂ := (h₁.defineGlobal (x := .nil) (M.wellKnown (by decide)) .nil).1
  have h₃ := (h₂.defineGlobal (x := .t) (v := .t) (M.wellKnown (by decide))
    (.wellKnown (s := .t) (by decide))).1
  obtain ⟨N, _, hname, h₄, _⟩ := h₃.alloc (.str (Bytes.ofString "<toplevel>").toByteArray) trivial
  have h₅ := (h₄.defineGlobal (x := .streamName) (N.wellKnown (by decide)) (.ref hname.pair)).1
  have h₆ := (h₅.defineGlobal (x := .streamLine) (N.wellKnown (by decide)) (.num 0)).1
  exact h₆.installAll Native.all

theorem shown (h : M.Guards s) (ha : Hosting.Shown s held a) : M.Pair a a := by
  cases ha with
  | root => exact h.root.pair
  | global hglobal =>
    unfold Interp.global? at hglobal
    split at hglobal
    · rename_i symbol _
      obtain ⟨found, _, hfound, _, hv⟩ := h.seals.stores.lookup h.root.pair symbol
      rw [hfound, Option.getD_some] at hglobal
      subst hglobal
      cases hv with
      | some hv => exact h.seals.pair_of_values hv
    · cases hglobal
  | @item l _ items _ hitems hmem =>
    rw [Interp.list?, Interp.object?, Value.addr?, Option.bind_some] at hitems
    obtain ⟨o, ho, hitems⟩ := Option.bind_eq_some_iff.mp hitems
    cases o with
    | list =>
      cases hitems
      exact h.seals.pair_of_mentions ho hmem
    | str | scope | function | failure | input | output => cases hitems
  | @subject e _ f _ hfailure hsubject =>
    rw [Interp.failure?, Interp.object?, Value.addr?, Option.bind_some] at hfailure
    split at hfailure
    · rename_i ho
      cases hfailure
      exact h.seals.pair_of_mentions ho hsubject
    · cases hfailure

theorem granted (h : M.Guards s) {q : Request} {r : Except Addr Value}
    (hv : ∀ v ∈ q.values, M.Values v v) (hx : q.evaluation s = none)
    (hr : q.serve 0 s = .finished r s') :
    s'.depth = s.depth ∧
      ∃ N : Matching, N.Guards s' ∧ M.Follows s.store N s'.store ∧ ∀ a, resultAddr? r = some a →
        N.Pair a a := by
  cases q with
  | intern name =>
    cases hr
    exact ⟨rfl, _, h.intern name, .of_le (.refl _ _) (M.le_learn _), nofun⟩
  | setGlobal name v =>
    cases hr
    have hi := h.intern name
    obtain ⟨hM, hfollows⟩ := hi.defineGlobal (.inr rfl) ((hv v (.head _)).mono (M.le_learn _))
    exact ⟨rfl, _, hM, hfollows.of_le (M.le_learn _), nofun⟩
  | collect roots =>
    cases hr
    have hk := h.seals.stores.left.keeps_collect (s.root :: roots.filterMap Value.addr?)
    have hroot := hk.root (.head _) (h.seals.stores.live_left h.root.pair)
    obtain ⟨hst, hfollows⟩ := h.seals.keeps hk
    exact ⟨rfl, _, ⟨hst, ⟨h.root, hroot, hroot⟩, h.knows_iff⟩, hfollows, nofun⟩
  | newList items =>
    cases hr
    have hs : M.Lists items items := List.forall₂_same.mpr hv
    obtain ⟨N, _, hp, hN, hfollows⟩ := h.alloc (States.newList_objects hs) trivial
    refine ⟨rfl, N, hN, hfollows, ?_⟩
    intro a ha
    cases ha
    exact hp.pair
  | newText bytes =>
    cases hr
    obtain ⟨N, _, hp, hN, hfollows⟩ := h.alloc (.str bytes.toByteArray) trivial
    refine ⟨rfl, N, hN, hfollows, ?_⟩
    intro a ha
    cases ha
    exact hp.pair
  | evalText | load | converse | eval | apply | progn | fill | bind | raise => cases hx

end Guards

theorem Follows.pair {st st' : Store Object} (h : M.Follows st N st') (hp : M.Pair a a)
    (ha : st'.contains a = true) :
    N.Pair a a := by
  obtain ⟨k, hk⟩ := hp
  exact ⟨k, h.le.1 k a a ⟨hk, ha, ha⟩⟩

end Matching

/-- The interpreter is guarded, and what it works on is matched with itself. -/
inductive Stage.Guarded (M : Matching) : Stage → Prop where
  | idle {s : Interp} (h : M.Guards s) (hd : s.depth = 0) : Guarded M (.idle s)
  | busy {m : Machine}
    (h : m.Matched (fun N s _ => N.Guards s) (fun N r t => N.Ending N.Values r t) M m) :
    Guarded M (.busy m)

theorem Stage.Guarded.seals {M : Matching} {stage : Stage} (h : stage.Guarded M) :
    M.Seals stage.interp.store := by
  cases h with
  | idle h _ => exact h.seals
  | busy h => exact h.states.seals

/-- A machine at work stays guarded, and ends with what programs can get hold of. -/
theorem Machine.Matched.onward {P : Post Value} {M : Matching} {m : Machine}
    (h : m.Matched (fun N s _ => N.Guards s) P M m) :
    Progress.Matched (M.Onward m.interp) P m.step m.step := by
  apply h.step rfl rfl
  · intro n
    exact ⟨rfl, ⟨h.states.seals, h.states.root, h.states.knows_iff⟩, .refl M m.interp.store⟩
  · intro top e f Q k l he hf hask hnested
    have hsame : e = f := (Eval.effect.inj (he.symm.trans hf)).1
    exact h.states.answered hask hsame hnested

namespace Hosting

variable {M : Matching} {σ τ : Hosting}

/-- The interpreter is guarded, and the host holds nothing but what programs can get hold of. -/
structure Guarded (M : Matching) (σ : Hosting) : Prop where
  stage : σ.stage.Guarded M
  held : ∀ a ∈ σ.held, M.Pair a a

theorem values_of_held {s : Interp} {held : Set Addr} (hs : M.Guards s) (h : ∀ a ∈ held, M.Pair a a)
    {q : Request} (hq : Asks s held q) : ∀ v ∈ q.values, M.Values v v := by
  intro v hv
  cases v with
  | num n => exact .num n
  | sym x => exact .sym ((hs.knows_iff x).mpr (hq.named _ hv x rfl))
  | ref a => exact .ref (h a (hq.held a hv))

theorem pair_of_ending {N : Matching} {r : Except Addr Value} (h : N.Ending N.Values r r) {a : Addr}
    (ha : resultAddr? r = some a) : N.Pair a a := by
  cases r with
  | ok v =>
    cases Value.addr?_eq_some_iff.mp ha
    cases h with
    | ok hv => exact hv.pair
  | error e =>
    cases ha
    cases h with
    | error he => exact he.pair

theorem Guarded.step (h : σ.Guarded M) (hstep : σ.Step τ) :
    ∃ N : Matching, τ.Guarded N ∧ M.Follows σ.store N τ.store := by
  obtain ⟨hstage, hheld⟩ := h
  have left {held : Set Addr} {st st' : Store Object} {N : Matching}
    (hheld : ∀ a ∈ held, M.Pair a a)
      (hfollows : M.Follows st N st') : ∀ a ∈ remaining held st', N.Pair a a :=
    fun a ha => hfollows.pair (hheld a ha.1) ha.2
  cases hstep with
  | world console disk clock =>
    cases hstage with
    | idle hs hd => exact ⟨M, ⟨.idle ⟨hs.seals, hs.root, hs.knows_iff⟩ hd, hheld⟩, .refl _ _⟩
  | look ha =>
    cases hstage with
    | idle hs hd =>
      refine ⟨M, ⟨.idle hs hd, ?_⟩, .refl _ _⟩
      intro b hb
      obtain rfl | hb := hb
      · exact hs.shown ha
      · exact hheld b hb
  | grant hq hx hr =>
    cases hstage with
    | idle hs hd =>
      obtain ⟨hdepth, N, hN, hfollows, hresult⟩ := hs.granted (values_of_held hs hheld hq) hx hr
      refine ⟨N, ⟨.idle hN (hdepth.trans hd), ?_⟩, hfollows⟩
      intro a ha
      exact ha.elim (left hheld hfollows a) (hresult a)
  | start hq hx =>
    cases hstage with
    | idle hs hd =>
      have hself := Request.alike hx hs.root.pair (values_of_held hs hheld hq)
      exact ⟨M, ⟨.busy ⟨hs, hd, true, _, .base, hself⟩, hheld⟩, .refl _ _⟩
  | work hm =>
    cases hstage with
    | busy hmatched =>
      have hon := hmatched.onward
      rw [hm] at hon
      cases hon with
      | @running N _ _ hnext =>
        obtain ⟨_, hN, hfollows⟩ := hnext.states
        exact ⟨N, ⟨.busy ⟨hN, hnext.depth_eq, hnext.running⟩, left hheld hfollows⟩, hfollows⟩
  | finish hm =>
    cases hstage with
    | busy hmatched =>
      have hon := hmatched.onward
      rw [hm] at hon
      cases hon with
      | @finished N _ _ _ _ hend hnext hd =>
        obtain ⟨_, hN, hfollows⟩ := hnext
        refine ⟨N, ⟨.idle hN hd, ?_⟩, hfollows⟩
        intro a ha
        exact ha.elim (left hheld hfollows a) (pair_of_ending hend)

theorem Reached.guarded (h : σ.Reached) : ∃ M : Matching, σ.Guarded M := by
  obtain ⟨config, disk, clock, hpath⟩ := h
  induction hpath with
  | refl =>
    obtain ⟨M, hM⟩ := Matching.Guards.new config disk clock
    exact ⟨M, .idle hM rfl, fun a ha => ha.elim⟩
  | tail _ hstep ih =>
    obtain ⟨M, hM⟩ := ih
    obtain ⟨N, hN, _⟩ := hM.step hstep
    exact ⟨N, hN⟩

end Hosting

/-- The interpreter is one that a host can come to have, or one on its way to the end of a
request. -/
inductive Stage.Served : Stage → Prop where
  | idle {s : Interp} (h : s.Reached) : Served (.idle s)
  | busy {s : Interp} {m : Machine} {q : Request} {x : Eval Value} (h : s.Reached)
    (hq : ∀ v ∈ q.values, s.Owns v) (hx : q.evaluation s = some x)
    (hm : Machine.Reaches ⟨x, [], s⟩ m) : Served (.busy m)

namespace Hosting

variable {M : Matching} {σ τ : Hosting}

theorem Guarded.owns {s : Interp} {held : Set Addr} {q : Request} (h : Guarded M ⟨.idle s, held⟩)
    (hq : Asks s held q) : ∀ v ∈ q.values, s.Owns v := by
  refine fun v hv => ⟨?_, hq.named v hv⟩
  rintro a rfl
  exact h.stage.seals.stores.live_left (h.held a (hq.held a hv))

theorem Guarded.served (h : σ.Guarded M) (hs : σ.stage.Served) (hstep : σ.Step τ) :
    τ.stage.Served := by
  cases hstep with
  | world console disk clock =>
    cases hs with
    | idle hs => exact .idle (.world console disk clock hs)
  | look _ =>
    cases hs with
    | idle hs => exact .idle hs
  | grant hq _ hr =>
    cases hs with
    | idle hs => exact .idle (.served hs (h.owns hq) hr)
  | start hq hx =>
    cases hs with
    | idle hs => exact .busy hs (h.owns hq) hx .refl
  | work hm =>
    cases hs with
    | busy hs hq hx hreach => exact .busy hs hq hx (hreach.tail hm)
  | finish hm =>
    cases hs with
    | busy hs hq hx hreach =>
      obtain ⟨fuel, hrun⟩ := Machine.run_of_reaches hreach hm
      exact .idle (.served hs hq ((Request.serve_eq_run hx fuel).trans hrun))

/-- Whatever a host comes to step by step is an interpreter that it can come to have. -/
theorem Reached.served (h : σ.Reached) : σ.stage.Served := by
  obtain ⟨config, disk, clock, hpath⟩ := h
  induction hpath with
  | refl => exact .idle (.new config disk clock)
  | tail hpath hstep ih =>
    obtain ⟨M, hM⟩ := Reached.guarded ⟨config, disk, clock, hpath⟩
    exact hM.served ih hstep

end Hosting

end HeapLisp
