import HeapLisp.Proofs.Host.Soundness

namespace HeapLisp

/-- Ends that a host cannot tell apart: the same was printed, and the values or errors have the same
text. Where one run is not at its end, the other is not. -/
inductive Outcome.Same : Outcome → Outcome → Prop where
  | value {v w : Value} {s t : Interp} {text : Bytes} (hc : s.console = t.console)
    (hv : s.render? .canonical v = some text) (hw : t.render? .canonical w = some text) :
    Same (.finished (.ok v) s) (.finished (.ok w) t)
  | error {e f : Addr} {s t : Interp} (hc : s.console = t.console) (he : s.report e = t.report f) :
    Same (.finished (.error e) s) (.finished (.error f) t)
  | outOfFuel : Same .outOfFuel .outOfFuel

theorem States.report {timed : Bool} {M : Matching} {s t : Interp} {e f : Addr}
    (h : States timed M s t) (hp : M.pairs .failure e f) : s.report e = t.report f := by
  obtain ⟨text, htext, htext'⟩ := h.render? .canonical (.ref hp.pair)
  have hr : s.render .canonical (.ref e) = t.render .canonical (.ref f) := by
    rw [Interp.render, Interp.render, htext, htext']
  obtain ⟨o, p, ho, hp, hk, hop⟩ := h.stores.objects hp
  cases hop with
  | failure fault location hv =>
    simp only [Interp.report, Interp.failure?, Interp.object?, Value.addr?, Option.bind_some,
      ho, hp, hr]
    rfl
  | str | list | scope | function | input | output => cases hk

/-- What was printed until a run ended with a value. -/
def Outcome.printed? : Outcome → Option Bytes
  | .finished (.ok _) s => some s.takeOutput.1
  | _ => none

namespace Interp

variable {s t : Interp}

/-- The same but for their addresses, their clocks and when they collect. -/
def Twins (s t : Interp) : Prop := s.depth = 0 ∧ ∃ M, States false M s t

/-- The interpreter at another time, with another number of allocations between collections. -/
def collectingAfter (s : Interp) (n : Nat) (clock : Int64) : Interp :=
  { s with config := { s.config with gcThreshold := n }, clock }

theorem Sound.twins (h : s.Sound) (n : Nat) (clock : Int64) : s.Twins (s.collectingAfter n clock) :=
  ⟨h.depth, .self s, { h.states with clock := by rintro ⟨⟩ }⟩

theorem Twins.load (h : s.Twins t) {fuel : Nat} {path : Bytes}
    (hu : Machine.untimed fuel ⟨Eval.loadFile s.root path, [], s⟩ = true) :
    Outcome.Same (s.load fuel path) (t.load fuel path) := by
  obtain ⟨hd, M, hs⟩ := h
  have hx : Alike true (Alike.Settled true M) M (Eval.loadFile s.root path)
      (Eval.loadFile t.root path) :=
    Alike.loadFile hs.root.pair path
  have hm : (Simulation.matching false).Machines _ M ⟨Eval.loadFile s.root path, [], s⟩
      ⟨Eval.loadFile t.root path, [], t⟩ :=
    ⟨hs, hd, true, _, .base, hx⟩
  have ho := Simulation.run hm fuel fun _ => hu
  rw [Interp.load, Interp.load, Interp.run, Interp.run]
  generalize Machine.run fuel ⟨Eval.loadFile s.root path, [], s⟩ = o,
    Machine.run fuel ⟨Eval.loadFile t.root path, [], t⟩ = o'
    at ho ⊢
  cases ho with
  | outOfFuel => exact .outOfFuel
  | finished he hs =>
    cases he.2 with
    | ok hv =>
      obtain ⟨text, hv, hw⟩ := hs.render? .canonical hv
      exact .value hs.console hv hw
    | error hp => exact .error hs.console (hs.report hp)

section New

variable (s : Interp) (n : Nat) (clock : Int64)

theorem defineGlobal_collectingAfter (symbol : Symbol) (v : Value) :
    (s.collectingAfter n clock).defineGlobal symbol v =
      (s.defineGlobal symbol v).collectingAfter n clock :=
  rfl

theorem alloc_collectingAfter (o : Object) :
    (s.collectingAfter n clock).alloc o = ((s.alloc o).1, (s.alloc o).2.collectingAfter n clock) :=
  rfl

theorem installAll_collectingAfter (ns : List Native) :
    ns.foldl install (s.collectingAfter n clock) =
      (ns.foldl install s).collectingAfter n clock := by
  induction ns generalizing s with
  | nil => rfl
  | cons m ns ih => exact ih (s.install m)

theorem new_collectingAfter (config : Config) (disk : Disk) (clock₀ : Int64) :
    new { config with gcThreshold := n } disk clock =
      (new config disk clock₀).collectingAfter n clock := by
  have hbare : bare { config with gcThreshold := n } disk clock =
      (bare config disk clock₀).collectingAfter n clock :=
    rfl
  simp only [new, hbare, defineGlobal_collectingAfter, alloc_collectingAfter,
    installAll_collectingAfter]

end New

/-- Loading a file without reading the clock is the same for every number of allocations between
collections. -/
theorem load_same_for_every_gcThreshold (h : s.Reached) (n : Nat) (clock : Int64) (path : Bytes)
    (fuel : Nat) (hu : Machine.untimed fuel ⟨Eval.loadFile s.root path, [], s⟩ = true) :
    Outcome.Same (s.load fuel path) ((s.collectingAfter n clock).load fuel path) :=
  (h.sound.twins n clock).load hu

/-- One interpreter never collects and the other after every form of the file, which makes lists
that are garbage at once. -/
theorem load_same_for_every_gcThreshold_garbage :
    let disk :=
      Disk.ofFiles
        [(Bytes.ofString "a", Bytes.ofString "(defq x (list 1)) (list x) (print (list x 2))")]
    Outcome.Same ((new ⟨200, 65536, false⟩ disk 0).load 2000 (Bytes.ofString "a"))
      ((new ⟨200, 0, false⟩ disk 7).load 2000 (Bytes.ofString "a")) ∧
    ((new ⟨200, 65536, false⟩ disk 0).load 2000 (Bytes.ofString "a")).printed? =
      some (Bytes.ofString "((1) 2)\n") := by
  intro disk
  constructor
  · have hu :
      Machine.untimed 2000
        ⟨Eval.loadFile (new ⟨200, 65536, false⟩ disk 0).root (Bytes.ofString "a"), [],
        new ⟨200, 65536, false⟩ disk 0⟩ = true := by decide +kernel
    have hsame := load_same_for_every_gcThreshold (.new ⟨200, 65536, false⟩ disk 0) 0 7 _ _ hu
    rwa [← new_collectingAfter] at hsame
  · decide +kernel

end Interp

end HeapLisp
