import HeapLisp.Machine
import Mathlib.Data.Set.Defs

namespace HeapLisp

/-- A collection that the effect asks for has the given addresses among its roots. -/
def Effect.Spares (A : Set Addr) : Effect → Prop
  | tidy roots => ∀ a ∈ A, .ref a ∈ roots
  | _ => True

/-- The collections that the loop asks for have the given addresses among their roots. -/
def Loop.Spares (A : Set Addr) : Loop → Prop
  | repeating _ _ _ _ => True
  | session scope _ _ report keep _ => report = true → ∀ a ∈ A, a = scope ∨ .ref a ∈ keep

theorem Loop.spares_empty (l : Loop) : l.Spares ∅ := by
  cases l with
  | repeating => trivial
  | session =>
    intro _ a ha
    cases ha

def Turn.Spares (A : Set Addr) : Turn → Prop
  | again l => l.Spares A
  | finished _ => True

/-- At its own level the evaluation runs no native function, and all collections that it asks for
there have the given addresses among their roots. If it comes to a value, that one satisfies `V`. -/
inductive Eval.Spares {α : Type} (A : Set Addr) (V : α → Prop) : Eval α → Prop where
  | done {a : α} (h : V a) : Spares A V (.done a)
  | fail (e : Addr) : Spares A V (.fail e)
  | effect {e : Effect} {k : e.Reply → Eval α} (he : e.Spares A) (h : ∀ r, Spares A V (k r)) :
    Spares A V (.effect e k)
  | call (c : Call) {k : Except Addr Value → Eval α} (h : ∀ r, Spares A V (k r)) :
    Spares A V (.call c k)
  | loop {l : Loop} {k : Except Addr Value → Eval α} (hl : l.Spares A) (h : ∀ r, Spares A V (k r)) :
    Spares A V (.loop l k)

namespace Eval.Spares

variable {α β : Type} {A : Set Addr} {V : α → Prop} {W : β → Prop}

theorem of_effect {e : Effect} {k : e.Reply → Eval α} (h : (Eval.effect e k).Spares A V) :
    e.Spares A ∧ ∀ r, (k r).Spares A V := by
  cases h with
  | effect he hk => exact ⟨he, hk⟩

theorem of_call {c : Call} {k : Except Addr Value → Eval α} (h : (Eval.call c k).Spares A V)
    (r : Except Addr Value) :
    (k r).Spares A V := by
  cases h with
  | call _ hk => exact hk r

theorem of_loop {l : Loop} {k : Except Addr Value → Eval α} (h : (Eval.loop l k).Spares A V) :
    l.Spares A ∧ ∀ r, (k r).Spares A V := by
  cases h with
  | loop hl hk => exact ⟨hl, hk⟩

theorem bind {x : Eval α} {f : α → Eval β} (h : x.Spares A V) (hf : ∀ a, V a → (f a).Spares A W) :
    (x >>= f).Spares A W := by
  induction h with
  | done ha => exact hf _ ha
  | fail e => exact .fail e
  | effect he _ ih => exact .effect he ih
  | call c _ ih => exact .call c ih
  | loop hl _ ih => exact .loop hl ih

theorem attempt {x : Eval α} (h : x.Spares A V) : x.attempt.Spares A fun _ => True := by
  induction h with
  | done | fail => exact .done trivial
  | effect he _ ih => exact .effect he ih
  | call c _ ih => exact .call c ih
  | loop hl _ ih => exact .loop hl ih

theorem perform (e : Effect) (he : e.Spares A) : (Eval.perform e).Spares A fun _ => True :=
  .effect he fun _ => .done trivial

theorem perform_bind {e : Effect} {f : e.Reply → Eval β} (he : e.Spares A)
    (hf : ∀ r, (f r).Spares A W) :
    (Eval.perform e >>= f).Spares A W := .effect he hf

theorem ofExcept (r : Except Addr α) : (Eval.ofExcept r).Spares A fun _ => True := by
  cases r with
  | ok a => exact .done trivial
  | error e => exact .fail e

theorem enter (c : Call) : (Eval.enter c).Spares A fun _ => True := .call c ofExcept

theorem iterate {l : Loop} (hl : l.Spares A) : (Eval.iterate l).Spares A fun _ => True :=
  .loop hl ofExcept

theorem locate (scope : Addr) : (Eval.locate scope).Spares A fun _ => True := by
  refine perform_bind trivial fun name => ?_
  split
  · refine perform_bind trivial fun o => ?_
    split
    · refine perform_bind trivial fun line => ?_
      split <;> exact .done trivial
    · exact .done trivial
  · exact .done trivial

theorem raise (scope : Addr) (fault : Fault) (subject : Value) :
    (Eval.raise scope fault subject : Eval α).Spares A V :=
  (locate scope).bind fun _ _ => perform_bind trivial fun e => .fail e

theorem newList (items : List Value) : (Eval.newList items).Spares A fun _ => True :=
  perform_bind trivial fun _ => .done trivial

theorem newStr (bytes : Bytes) : (Eval.newStr bytes).Spares A fun _ => True :=
  perform_bind trivial fun _ => .done trivial

theorem refuseArgs (scope : Addr) (args : List Value) :
    (Eval.refuseArgs scope args : Eval α).Spares A V :=
  (newList args).bind fun _ _ => raise scope _ _

theorem itemsOf (v : Value) : (Eval.itemsOf v).Spares A fun _ => True := by
  cases v with
  | ref a => exact perform_bind trivial fun _ => .done trivial
  | num | sym => exact .done trivial

theorem evaluate (scope : Addr) (form : Value) :
    (Eval.evaluate scope form).Spares A fun _ => True := by
  cases form with
  | num n => exact .done trivial
  | sym s =>
    refine perform_bind trivial fun v => ?_
    split
    · exact .done trivial
    · exact raise scope _ _
  | ref a =>
    refine perform_bind trivial fun o => ?_
    split
    · exact enter _
    · exact .done trivial

theorem sequence (scope : Addr) (last : Value) (forms : List Value) :
    (Eval.sequence scope last forms).Spares A fun _ => True := by
  induction forms generalizing last with
  | nil => exact .done trivial
  | cons form forms ih => exact (evaluate scope form).bind fun v _ => ih v

theorem functionOf (v : Value) : (Eval.functionOf v).Spares A fun _ => True := by
  cases v with
  | ref a =>
    refine perform_bind trivial fun o => ?_
    split <;> exact .done trivial
  | num | sym => exact .done trivial

theorem apply (scope : Addr) (f : Value) (args : List Value) :
    (Eval.apply scope f args).Spares A fun _ => True := by
  refine (functionOf f).bind fun g _ => ?_
  split
  · exact enter _
  · exact enter _
  · exact raise scope _ _

theorem bindOne (scope : Addr) (name v : Value) :
    (Eval.bindOne scope name v).Spares A fun _ => True := by
  cases name with
  | sym s => exact perform (.define scope s v) trivial
  | num n => exact raise scope _ _
  | ref a =>
    refine perform_bind trivial fun o => ?_
    split
    · refine (itemsOf v).bind fun items _ => ?_
      split
      · exact (enter _).bind fun _ _ => .done trivial
      · exact raise scope _ _
    · exact raise scope _ _

theorem bindNames (scope : Addr) (params : Value) (args names left : List Value) (optional : Bool) :
    (Eval.bindNames scope params args names left optional).Spares A fun _ => True := by
  fun_induction Eval.bindNames scope params args names left optional with
  | case1 => exact .done trivial
  | case2 => exact refuseArgs scope args
  | case3 => exact raise scope _ _
  | case4 left optional restName => exact (newList left).bind fun _ _ => bindOne scope restName _
  | case5 => assumption
  | case6 name names optional _ _ v left ih => exact (bindOne scope name v).bind fun _ _ => ih
  | case7 name names _ _ ih => exact (bindOne scope name _).bind fun _ _ => ih
  | case8 => exact refuseArgs scope args

theorem bindParams (scope : Addr) (params : Value) (args : List Value) :
    (Eval.bindParams scope params args).Spares A fun _ => True := by
  refine (itemsOf params).bind fun items _ => ?_
  split
  · exact bindNames scope params args _ args false
  · exact raise scope _ _

theorem fillItems (scope : Addr) (before items : List Value) :
    (Eval.fillItems scope before items).Spares A fun _ => True := by
  induction items generalizing before with
  | nil => exact .done trivial
  | cons item items ih =>
    refine (itemsOf item).bind fun inner _ => ?_
    split
    · refine (evaluate scope _).bind fun spliced _ => ?_
      refine (itemsOf spliced).bind fun values _ => ?_
      split
      · exact ih _
      · exact raise scope _ _
    · exact (enter _).bind fun v _ => ih _

theorem fill (scope : Addr) (template : Value) :
    (Eval.fill scope template).Spares A fun _ => True := by
  refine (itemsOf template).bind fun items _ => ?_
  split
  · exact .done trivial
  · exact evaluate scope _
  · exact (fillItems scope [] _).bind fun filled _ => newList filled

theorem printLine (v : Value) : (Eval.printLine v).Spares A fun _ => True :=
  perform_bind trivial fun text => perform (.print (text ++ [Byte.newline])) trivial

theorem evaluateRead (scope : Addr) (r : Readout) :
    (Eval.evaluateRead scope r).Spares A fun _ => True := by
  cases r with
  | ended => exact .done trivial
  | value form => exact (evaluate scope form).attempt.bind fun _ _ => .done trivial
  | failed e =>
    have hraise : (Eval.raise scope (.unreadable e) .nil : Eval Value).Spares A fun _ => True :=
      raise scope _ _
    exact hraise.attempt.bind fun _ _ => .done trivial

/-- The end of a turn asks for no collection, or for one with the scope and what the session keeps
as roots. -/
theorem endTurn {scope : Addr} {source : Source} {mark : Bookmark} {report : Bool}
    {keep : List Value} {last : Value} (result : Option (Except Addr Value))
    (h : (Loop.session scope source mark report keep last).Spares A) :
    (Eval.endTurn scope source mark report keep last result).Spares A (Turn.Spares A) := by
  have htidy (hreport : report = true) (v : Value) :
      (Effect.tidy (.ref scope :: v :: keep)).Spares A := by
    intro a ha
    obtain rfl | hkeep := h hreport a ha
    · exact .head _
    · exact .tail _ (.tail _ hkeep)
  obtain _ | e | v := result
  · exact .done trivial
  · cases report
    · exact .fail e
    · exact (printLine _).bind fun _ _ => perform_bind (htidy rfl (.ref e)) fun _ => .done h
  · have hend : ((if report then Eval.perform (.tidy (.ref scope :: v :: keep)) else pure ()) >>=
        fun _ => (pure (.again (.session scope source mark report keep v)) : Eval Turn)).Spares A
          (Turn.Spares A) := by
      cases report
      · exact .done h
      · exact perform_bind (htidy rfl v) fun _ => .done h
    refine perform_bind trivial fun echo => ?_
    cases echo
    · cases report <;> exact hend
    · cases report <;> exact (printLine v).bind fun _ _ => hend

theorem sessionTurn {scope : Addr} {source : Source} {mark : Bookmark} {report : Bool}
    {keep : List Value} {last : Value}
    (h : (Loop.session scope source mark report keep last).Spares A) :
    (Eval.sessionTurn scope source mark report keep last).Spares A (Turn.Spares A) := by
  refine perform_bind trivial fun read => ?_
  refine perform_bind trivial fun _ => ?_
  exact (evaluateRead scope read.1).bind fun result _ => endTurn result h

theorem turn {l : Loop} (h : l.Spares A) : l.turn.Spares A (Turn.Spares A) := by
  cases l with
  | repeating scope test body last =>
    refine (evaluate scope test).bind fun v _ => ?_
    split
    · exact .done trivial
    · exact (sequence scope _ body).bind fun _ _ => .done trivial
  | session => exact sessionTurn h

/-- Without reports no collection is asked for. -/
theorem runStream {scope : Addr} {report : Bool} (source : Source) (name : Bytes)
    (h : report = true → ∀ a ∈ A, a = scope) :
    (Eval.runStream scope source name report).Spares A fun _ => True := by
  refine perform_bind trivial fun o => ?_
  split
  · refine (newStr name).bind fun _ _ => ?_
    refine perform_bind trivial fun _ => ?_
    refine perform_bind trivial fun _ => ?_
    have hloop (keep : List Value) : (Loop.session scope source .start report keep .nil).Spares A :=
      fun hreport a ha => .inl (h hreport a ha)
    refine (iterate (hloop _)).attempt.bind fun result _ => ?_
    refine perform_bind trivial fun _ => ?_
    exact perform_bind trivial fun _ => ofExcept result
  · exact raise scope _ _

end Eval.Spares

end HeapLisp
