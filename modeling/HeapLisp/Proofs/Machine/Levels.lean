import HeapLisp.Host
import HeapLisp.Proofs.Machine.Sparing
import HeapLisp.Proofs.Store.Slots
import Mathlib.Logic.Relation

namespace HeapLisp

/-- How deep an interpreter is nested, and its configuration. -/
def Interp.level (s : Interp) : Nat × Config := (s.depth, s.config)

namespace Interp

mutual

theorem build_level : (f : Form) → ∀ s : Interp, (s.build f).2.level = s.level
  | .num _, _ | .str _, _ | .sym _, _ => rfl
  | .list items, s => buildAll_level items s

theorem buildAll_level : (fs : List Form) → ∀ s : Interp, (s.buildAll fs).2.level = s.level
  | [], _ => rfl
  | f :: fs, s => (buildAll_level fs _).trans (build_level f s)

end

end Interp

namespace Effect

theorem perform_define (scope : Addr) (x : Symbol) (v : Value) (s : Interp) :
    (define scope x v).perform s =
      if s.store.contains scope then
        some ((), { s with store := s.store.modifyBindings scope (·.insert x v) })
      else none := by
  have unchanged {o : Object} (hget : s.store.get? scope = some o)
      (ho : o.mapBindings (·.insert x v) = o) :
      s.store.modifyBindings scope (·.insert x v) = s.store := by
    rw [Store.modifyBindings, Store.modify_congr hget (g := id) ho, Store.modify_id]
  rw [perform, Store.define, Store.contains]
  cases hget : s.store.get? scope with
  | none => rfl
  | some o =>
    cases o with
    | scope => rfl
    | str | list | function | failure | input | output =>
      simp [unchanged hget rfl]

/-- An assignment changes the bindings of one scope or nothing. -/
theorem perform_assign {scope : Addr} {x : Symbol} {v : Value} {s s' : Interp} {found : Bool}
    (h : (assign scope x v).perform s = some (found, s')) :
    s' = s ∨ ∃ o, s' = { s with store := s.store.modifyBindings o (·.insert x v) } := by
  rw [perform, Store.assign] at h
  rcases howner : s.store.owner? scope x with _ | _ | o <;> rw [howner] at h <;> cases h
  · exact .inl rfl
  · exact .inr ⟨o, rfl⟩

theorem readout_level (reading : Reading) (s : Interp) : (readout reading s).2.level = s.level := by
  cases reading with
  | ended => rfl
  | form f => exact s.build_level f
  | failed e complete => exact s.buildAll_level complete

theorem readFrom_level {source : Source} {mark : Bookmark} {s s' : Interp}
    {r : Readout × Bookmark × Source} (h : readFrom source mark s = some (r, s')) :
    s'.level = s.level := by
  cases source with
  | own stream =>
    cases h
    exact readout_level _ s
  | object a =>
    rw [readFrom] at h
    split at h
    · cases h
    · cases h
      exact readout_level _ _
    · cases h
      rfl

/-- Only calls and their ends change the depth. -/
theorem perform_level {e : Effect} {s s' : Interp} {r : e.Reply} (h : e.perform s = some (r, s')) :
    s'.level = s.level := by
  cases e with
  | alloc | intern | gensym | print | echoes | clock | openFile | save =>
    cases h
    rfl
  | tidy roots =>
    cases h
    unfold tidyUp
    split <;> rfl
  | fetch | updateItems | lookup | define | assign | restore | copy | spelling | sameText | position
  | render | readByte | readLine | append =>
    rw [perform] at h
    split at h <;> cases h <;> rfl
  | readForm source mark => exact readFrom_level h
  | overrun => cases h

theorem perform_depth {e : Effect} {s s' : Interp} {r : e.Reply} (h : e.perform s = some (r, s')) :
    s'.depth = s.depth :=
  congrArg Prod.fst (perform_level h)

end Effect

/-- The evaluation runs no native function at its own level. -/
inductive Eval.NativeFree {α : Type} : Eval α → Prop where
  | done (a : α) : NativeFree (.done a)
  | fail (e : Addr) : NativeFree (.fail e)
  | effect (e : Effect) {k : e.Reply → Eval α} (h : ∀ r, NativeFree (k r)) :
    NativeFree (.effect e k)
  | call (c : Call) {k : Except Addr Value → Eval α} (h : ∀ r, NativeFree (k r)) :
    NativeFree (.call c k)
  | loop (l : Loop) {k : Except Addr Value → Eval α} (h : ∀ r, NativeFree (k r)) :
    NativeFree (.loop l k)

namespace Eval.NativeFree

variable {α β : Type}

theorem resume {x : Eval α} {k : Except Addr α → Eval β} (h : x.NativeFree)
    (hk : ∀ r, (k r).NativeFree) :
    (x.resume k).NativeFree := by
  induction h with
  | done a => exact hk (.ok a)
  | fail e => exact hk (.error e)
  | effect e _ ih => exact .effect e ih
  | call c _ ih => exact .call c ih
  | loop l _ ih => exact .loop l ih

theorem of_spares {A : Set Addr} {V : α → Prop} {x : Eval α} (h : x.Spares A V) : x.NativeFree := by
  induction h with
  | done => exact .done _
  | fail e => exact .fail e
  | effect _ _ ih => exact .effect _ ih
  | call c _ ih => exact .call c ih
  | loop _ _ ih => exact .loop _ ih

theorem raise (scope : Addr) (fault : Fault) (subject : Value) :
    (Eval.raise scope fault subject : Eval α).NativeFree :=
  .of_spares (A := ∅) (V := fun _ => True) (.raise scope fault subject)

theorem unroll (l : Loop) {k : Except Addr Value → Eval α} (hk : ∀ r, (k r).NativeFree) :
    (l.unroll k).NativeFree := by
  have hturn := Eval.Spares.turn (l.spares_empty)
  refine (of_spares hturn).resume fun r => ?_
  split
  · exact .loop _ hk
  · exact hk _
  · exact hk _

end Eval.NativeFree

/-- A way to have something evaluated. -/
inductive Operation where
  | eval (scope : Addr) (form : Value)
  | apply (scope : Addr) (f : Value) (args : List Value)
  | progn (scope : Addr) (forms : List Value)
  | bind (scope : Addr) (params : Value) (args : List Value)
  | fill (scope : Addr) (template : Value)
  | session (scope : Addr) (source : Source) (name : Bytes) (report : Bool)

namespace Operation

def evaluation : Operation → Eval Value
  | eval scope form => Eval.evaluate scope form
  | apply scope f args => Eval.apply scope f args
  | progn scope forms => Eval.sequence scope .nil forms
  | bind scope params args => do
    Eval.bindParams scope params args
    return .nil
  | fill scope template => Eval.fill scope template
  | session scope source name report => Eval.runStream scope source name report

/-- How the host has it done. -/
def run (fuel : Nat) (s : Interp) : Operation → Outcome
  | eval scope form => s.eval fuel scope form
  | apply scope f args => s.apply fuel scope f args
  | progn scope forms => s.progn fuel scope forms
  | bind scope params args => s.bind fuel scope params args
  | fill scope template => s.fill fuel scope template
  | session scope source name report => s.run fuel (Eval.runStream scope source name report)

/-- The machine that does it. -/
def start (s : Interp) (op : Operation) : Machine := ⟨op.evaluation, [], s⟩

theorem run_eq (fuel : Nat) (s : Interp) (op : Operation) :
    op.run fuel s = (op.start s).run fuel := by
  cases op <;> rfl

/-- Whether it is a session that reports errors, which alone may collect. -/
def reports : Operation → Bool
  | session _ _ _ report => report
  | _ => false

/-- Native functions are left to calls, and without reports there is no collection at the level of
the operation. -/
theorem spares (op : Operation) {A : Set Addr} (h : op.reports = true → A = ∅) :
    op.evaluation.Spares A fun _ => True := by
  cases op with
  | eval scope form => exact .evaluate scope form
  | apply scope f args => exact .apply scope f args
  | progn scope forms => exact .sequence scope .nil forms
  | bind scope params args =>
    exact (Eval.Spares.bindParams scope params args).bind fun _ _ => .done trivial
  | fill scope template => exact .fill scope template
  | session scope source name report =>
    apply Eval.Spares.runStream
    intro hreport a ha
    rw [h hreport] at ha
    cases ha

theorem nativeFree (op : Operation) : op.evaluation.NativeFree :=
  .of_spares (op.spares fun _ => rfl)

end Operation

namespace Machine

variable {m m' : Machine} {s s' : Interp}

/-- One machine comes to the other step by step. -/
def Reaches : Machine → Machine → Prop := Relation.ReflTransGen fun m m' => m.step = .running m'

/-- One machine comes to the other while the callers that wait for the first one go on waiting. -/
def Within (m m' : Machine) : Prop :=
  Relation.ReflTransGen (fun a b => a.step = .running b ∧ m.stack <:+ b.stack) m m'

theorem Within.reaches (h : m.Within m') : m.Reaches m' := by
  induction h with
  | refl => exact .refl
  | tail _ hstep ih => exact ih.tail hstep.1

theorem Within.stack_suffix (h : m.Within m') : m.stack <:+ m'.stack := by
  induction h with
  | refl => exact List.suffix_rfl
  | tail _ hstep _ => exact hstep.2

/-- What comes after every caller that waits runs no native function. -/
def BaseFree (x : Eval Value) : List Frame → Prop
  | [] => x.NativeFree
  | k :: stack => ∀ r, BaseFree (k r) stack

/-- A machine under way since the interpreter was `s`: every caller that waits is one level, and the
configuration allows them all. -/
structure Since (s : Interp) (m : Machine) : Prop where
  config_eq : m.interp.config = s.config
  depth_eq : m.interp.depth = s.depth + m.stack.length
  depth_le : m.interp.depth ≤ s.config.maxDepth
  baseFree : BaseFree m.eval m.stack

theorem BaseFree.imp {x y : Eval Value} {stack : List Frame} (h : BaseFree x stack)
    (hxy : x.NativeFree → y.NativeFree) :
    BaseFree y stack := by
  cases stack with
  | nil => exact hxy h
  | cons k stack => exact h

/-- A native function has a caller that waits for it. -/
theorem BaseFree.ne_nil {scope : Addr} {n : Native} {args : List Value} {k : Frame}
    {stack : List Frame} (h : BaseFree (.native scope n args k) stack) : stack ≠ [] := by
  rintro rfl
  cases h

namespace Since

theorem start (op : Operation) (h : s.depth ≤ s.config.maxDepth) : Since s (op.start s) :=
  ⟨rfl, rfl, h, op.nativeFree⟩

/-- The end of a call is one level up, where its caller goes on. -/
theorem up {x : Eval Value} {k : Frame} {stack : List Frame} {t : Interp}
    (h : Since s ⟨x, k :: stack, t⟩) (r : Except Addr Value) :
    Since s ⟨k r, stack, { t with depth := t.depth - 1 }⟩ := by
  obtain ⟨hconfig, hdepth, hle, hbase⟩ := h
  simp only [List.length_cons] at hdepth hle
  exact ⟨hconfig, by simp only; omega, by simp only; omega, hbase r⟩

/-- What goes on at the same level. -/
theorem same {x y : Eval Value} {stack : List Frame} {t t' : Interp} (h : Since s ⟨x, stack, t⟩)
    (hlevel : t'.level = t.level) (hxy : x.NativeFree → y.NativeFree) : Since s ⟨y, stack, t'⟩ := by
  obtain ⟨hconfig, hdepth, hle, hbase⟩ := h
  obtain ⟨hd, hc⟩ := Prod.mk.inj hlevel
  exact ⟨hc.trans hconfig, hd.trans hdepth, Nat.le_trans (Nat.le_of_eq hd) hle, hbase.imp hxy⟩

theorem step (h : Since s m) (hstep : m.step = .running m') : Since s m' := by
  obtain ⟨x, stack, t⟩ := m
  cases x with
  | done v =>
    cases stack with
    | nil => cases hstep
    | cons k stack =>
      cases hstep
      exact h.up (.ok v)
  | fail e =>
    cases stack with
    | nil => cases hstep
    | cons k stack =>
      cases hstep
      exact h.up (.error e)
  | effect e k =>
    rw [Machine.step] at hstep
    split at hstep
    · rename_i r t' hperform
      cases hstep
      refine h.same (Effect.perform_level hperform) ?_
      intro hfree
      cases hfree with
      | effect _ hk => exact hk r
    · cases hstep
  | call c k =>
    have hk (hfree : (Eval.call c k).NativeFree) (r : Except Addr Value) : (k r).NativeFree := by
      cases hfree with
      | call _ hk => exact hk r
    rw [Machine.step] at hstep
    split at hstep
    · rename_i hroom
      cases hstep
      -- one level deeper, with the caller on the stack
      obtain ⟨hconfig, hdepth, hle, hbase⟩ := h
      dsimp only at hconfig hdepth
      rw [hconfig] at hroom
      refine ⟨hconfig, ?_, hroom, fun r => hbase.imp fun hfree => hk hfree r⟩
      simp only [List.length_cons]
      omega
    · cases hstep
      exact h.same rfl fun hfree =>
        (Eval.NativeFree.raise c.scope .tooDeep c.subject).resume (hk hfree)
  | native scope n args k =>
    cases hstep
    -- a caller waits here, so that nothing has to be shown of the evaluation itself
    refine h.same rfl fun hfree => ?_
    cases hfree
  | loop l k =>
    cases hstep
    refine h.same rfl fun hfree => ?_
    cases hfree with
    | loop _ hk => exact .unroll l hk

theorem reaches (h : Since s m) (hreach : m.Reaches m') : Since s m' := by
  induction hreach with
  | refl => exact h
  | tail _ hstep ih => exact ih.step hstep

theorem finished (h : Since s m) {r : Except Addr Value} (hstep : m.step = .finished r s') :
    s'.depth = s.depth := by
  obtain ⟨x, stack, t⟩ := m
  have hend (hnil : stack = []) : t.depth = s.depth := by
    have hdepth := h.depth_eq
    rw [hnil] at hdepth
    exact hdepth
  cases x with
  | done v =>
    cases stack with
    | nil =>
      cases hstep
      exact hend rfl
    | cons k stack => cases hstep
  | fail e =>
    cases stack with
    | nil =>
      cases hstep
      exact hend rfl
    | cons k stack => cases hstep
  | effect e k =>
    rw [Machine.step] at hstep
    split at hstep <;> cases hstep
  | call c k =>
    rw [Machine.step] at hstep
    split at hstep <;> cases hstep
  | native | loop => cases hstep

theorem run (h : Since s m) {fuel : Nat} {r : Except Addr Value}
    (hrun : m.run fuel = .finished r s') :
    s'.depth = s.depth := by
  induction fuel generalizing m with
  | zero => cases hrun
  | succ fuel ih =>
    rw [Machine.run] at hrun
    split at hrun
    · rename_i hstep
      exact ih (h.step hstep) hrun
    · rename_i hstep
      cases hrun
      exact h.finished hstep
    · cases hrun

end Since

end Machine

/-- However an operation ends, evaluation is then as deep as before; on the way it is never deeper
than the configuration allows, and a native function runs inside a call from its beginning until its
caller goes on. -/
theorem Operation.depth_bounded_and_unwound (op : Operation) {s : Interp}
    (h : s.depth ≤ s.config.maxDepth) :
    (∀ fuel r s', op.run fuel s = .finished r s' → s'.depth = s.depth) ∧
    ∀ m, (op.start s).Reaches m → m.interp.config = s.config ∧ m.interp.depth ≤ s.config.maxDepth ∧
      ∀ scope n args k, m.eval = .native scope n args k → ∀ m', m.Within m' →
        1 ≤ m'.interp.depth := by
  have hstart := Machine.Since.start op h
  constructor
  · intro fuel r s' hrun
    rw [op.run_eq] at hrun
    exact hstart.run hrun
  · intro m hreach
    have hm := hstart.reaches hreach
    refine ⟨hm.config_eq, hm.depth_le, ?_⟩
    intro scope n args k hnative m' hwithin
    have hbase := hm.baseFree
    rw [hnative] at hbase
    have hwaiting := List.length_pos_iff.mpr hbase.ne_nil
    have hlonger := hwithin.stack_suffix.length_le
    have hdepth := (hm.reaches hwithin.reaches).depth_eq
    omega

/-- The sum of two numbers, called as deep as the configuration allows. -/
theorem Operation.depth_bounded_and_unwound_sum :
    let s :=
      ((Interp.bare ⟨1, 65536, false⟩ .empty 0).alloc (.function (.native (.primitive .add)))).2
    let op := Operation.apply ⟨0⟩ (.ref ⟨1⟩) [.num 1, .num 2]
    ∃ s', op.run 10 s = .finished (.ok (.num 3)) s' ∧ s'.depth = s.depth ∧
      ∃ m k, (op.start s).Reaches m ∧ m.eval = .native ⟨0⟩ (.primitive .add) [.num 1, .num 2] k ∧
        1 ≤ m.interp.depth := by
  intro s op
  have hlimit : s.depth ≤ s.config.maxDepth := by decide
  obtain ⟨hends, hreached⟩ := op.depth_bounded_and_unwound hlimit
  have hrun : op.run 10 s = .finished (.ok (.num 3)) s := rfl
  have hreach : (op.start s).Reaches
      ⟨Eval.invoke ⟨0⟩ (.primitive .add) [.num 1, .num 2], [.ofExcept], { s with depth := 1 }⟩ :=
        .tail (.tail .refl rfl) rfl
  refine ⟨s, hrun, hends 10 _ s hrun, _, _, hreach, rfl, ?_⟩
  exact (hreached _ hreach).2.2 _ _ _ _ rfl _ .refl

end HeapLisp
