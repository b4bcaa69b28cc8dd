import HeapLisp.Proofs.Machine.Endings
import HeapLisp.Proofs.Reader.Skipping

namespace HeapLisp

namespace Reader

variable {limit limit' : Nat}

/-- Whether reading on comes to a list or a mark that the limit leaves no room for. -/
def refuses (limit : Nat) (n : Nesting) : Lexeme → Bool
  | .token t after =>
    match step limit after.line n t with
    | .more n => refuses limit n (Token.next after)
    | .tooDeep => true
    | _ => false
  | _ => false
termination_by lexeme => room lexeme
decreasing_by exact room_next_lt t after

/-- Whether reading one form from a bookmark on comes to a list or a mark that the limit leaves no
room for. -/
def refusesAt (limit : Nat) (mark : Bookmark) (rest : Bytes) : Bool :=
  match mark.peek with
  | .ended => false
  | .byte b => refuses limit .none (Token.next ⟨b :: rest, mark.line⟩)
  | .other code =>
    lowByte code != Byte.semicolon && refuses limit .none
      (Token.start (lowByte code) rest mark.line)

theorem step_of_le (hlimit : limit ≤ limit') {line : Nat} {n : Nesting} {t : Token}
    (h : step limit line n t ≠ .tooDeep) :
    step limit' line n t = step limit line n t := by
  have hentered {o : Open} (h : enter limit o n ≠ .tooDeep) :
      enter limit' o n = enter limit o n := by
    unfold enter at h ⊢
    split_ifs at h with hroom
    · rw [if_pos hroom, if_pos (Nat.lt_of_lt_of_le hroom hlimit)]
    · exact absurd rfl h
  cases t with
  | opening => exact hentered h
  | mark m => exact hentered h
  | closing | str | num | sym => rfl

theorem parse_of_le (hlimit : limit ≤ limit') {n : Nesting} {l : Lexeme}
    (h : refuses limit n l = false) :
    parse limit' n l = parse limit n l := by
  fun_induction parse limit n l with
  | case1 n after hin => rw [parse, hin]
  | case2 n after e hin => rw [parse, hin]
  | case3 n e after => rw [parse]
  | case4 n t after n' hstep ih =>
    rw [refuses, hstep] at h
    rw [parse, step_of_le hlimit (by rw [hstep]; exact Step.noConfusion), hstep]
    exact ih h
  | case5 n t after f hstep =>
    rw [parse, step_of_le hlimit (by rw [hstep]; exact Step.noConfusion), hstep]
  | case6 n t after hstep =>
    rw [parse, step_of_le hlimit (by rw [hstep]; exact Step.noConfusion), hstep]
  | case7 n t after hstep =>
    rw [refuses, hstep] at h
    cases h

theorem readAt_of_le (hlimit : limit ≤ limit') {mark : Bookmark} {rest : Bytes}
    (h : refusesAt limit mark rest = false) :
    readAt limit' mark rest = readAt limit mark rest := by
  obtain ⟨peek, line⟩ := mark
  cases peek with
  | ended => rfl
  | byte b =>
    have hparse := parse_of_le hlimit h
    simp only [readAt, read, hparse]
  | other code =>
    by_cases hsemi : lowByte code = Byte.semicolon
    · simp [readAt, hsemi]
    · simp [refusesAt, hsemi] at h
      simp [readAt, hsemi, parse_of_le hlimit h]

end Reader

theorem InputStream.readForm_of_le {d : Disk} {limit limit' : Nat} (hlimit : limit ≤ limit')
    {mark : Bookmark} {stream : InputStream}
    (h : Reader.refusesAt limit mark (stream.pending d) = false) :
    stream.readForm d limit' mark = stream.readForm d limit mark := by
  rcases hread : Reader.readAt limit mark (stream.pending d) with ⟨reading, mark', left⟩
  rw [readForm_eq hread, readForm_eq ((Reader.readAt_of_le hlimit h).trans hread)]

namespace Printer

variable {store : Store Object} {symbols : SymbolTable}

/-- The values that are printed inside an object. -/
def inner (symbols : SymbolTable) : Object → List Value
  | .list items => items.toList
  | .scope s => ((namedBindings? symbols s.bindings).getD []).map Prod.snd
  | .function (.closure c) => [.ref c.form]
  | .failure f => [f.subject]
  | _ => []

/-- Whether the text of a value is cut short at an object that is not one of those around it,
because `room` more may be entered and no further ones. -/
def cuts (store : Store Object) (symbols : SymbolTable) : (room : Nat) → (path : Std.TreeSet Nat) →
    Value → Bool
  | _, _, .num _ => false
  | _, _, .sym _ => false
  | 0, path, .ref a => !path.contains a.index
  | room + 1, path, .ref a =>
    !path.contains a.index && match store.get? a with
      | none => false
      | some o => (inner symbols o).any fun v => cuts store symbols room (path.insert a.index) v

theorem onto_of_le {room room' : Nat} (hroom : room ≤ room') {path : Std.TreeSet Nat} {v : Value}
    (h : cuts store symbols room path v = false) (style : Style) (rest : Option Bytes) :
    onto store symbols room' path style v rest = onto store symbols room path style v rest := by
  induction room generalizing room' path v style rest with
  | zero =>
    cases v with
    | num n => rw [onto, onto]
    | sym s => rw [onto, onto]
    | ref a =>
      rw [cuts, Bool.not_eq_false'] at h
      cases room' with
      | zero => rfl
      | succ room' => rw [onto, onto, if_pos h]
  | succ room ih =>
    obtain ⟨room', rfl⟩ : ∃ more, room' = more + 1 := ⟨room' - 1, by omega⟩
    cases v with
    | num n => rw [onto, onto]
    | sym s => rw [onto, onto]
    | ref a =>
      rw [onto, onto]
      split_ifs with hpath
      · rfl
      · have hinner : ∀ o, store.get? a = some o → ∀ v ∈ inner symbols o, ∀ style rest,
            onto store symbols room' (path.insert a.index) style v rest =
              onto store symbols room (path.insert a.index) style v rest := by
          intro o ho v hv style rest
          rw [cuts, eq_false_of_ne_true hpath, Bool.not_false, Bool.true_and, ho,
            List.any_eq_false] at h
          exact ih (Nat.le_of_succ_le_succ hroom) (eq_false_of_ne_true (h v hv)) style rest
        cases hget : store.get? a with
        | none => rfl
        | some o =>
          have hinner := hinner o hget
          cases o with
          | str | input | output => rfl
          | list items =>
            rw [inner] at hinner
            dsimp only
            cases hitems : items.toList with
            | nil => rfl
            | cons first others =>
              rw [hitems] at hinner
              dsimp only
              rw [hinner first (.head _), List.foldr_ext _ _ _ fun v hv rest =>
                by rw [hinner v (.tail _ hv)]]
          | scope s =>
            rw [inner] at hinner
            dsimp only
            cases hnamed : namedBindings? symbols s.bindings with
            | none => rfl
            | some entries =>
              rw [hnamed, Option.getD_some] at hinner
              dsimp only
              rw [List.foldr_ext]
              intro p hp rest
              have hvalue := hinner p.2 (List.mem_map_of_mem hp)
              rw [hvalue]
          | function f =>
            cases f with
            | native n => rfl
            | closure c => exact hinner _ (.head _) _ _
          | failure f =>
            dsimp only
            rw [hinner _ (.head _)]

end Printer

namespace Interp

mutual

theorem build_limited (limit : Nat) : (f : Form) → ∀ s : Interp,
    (s.limited limit).build f = ((s.build f).1, (s.build f).2.limited limit)
  | .num _, _ | .str _, _ | .sym _, _ => rfl
  | .list items, s => by
    rw [build, buildAll_limited limit items s]
    rfl

theorem buildAll_limited (limit : Nat) : (fs : List Form) → ∀ s : Interp,
    (s.limited limit).buildAll fs = ((s.buildAll fs).1, (s.buildAll fs).2.limited limit)
  | [], _ => rfl
  | f :: fs, s => by
    rw [buildAll, build_limited limit f s]
    dsimp only
    rw [buildAll_limited limit fs (s.build f).2]
    rfl

end

end Interp

namespace Effect

variable {s : Interp} {limit : Nat}

/-- Whether performing an effect meets the depth limit. -/
def meetsLimit (s : Interp) : Effect → Bool
  | render _ v => Printer.cuts s.store s.symbols s.config.maxDepth ∅ v
  | readForm source mark =>
    match source.stream? s with
    | some stream => Reader.refusesAt s.config.maxDepth mark (stream.pending s.disk)
    | none => false
  | _ => false

theorem readout_limited (limit : Nat) (reading : Reading) (s : Interp) :
    readout reading (s.limited limit) =
      ((readout reading s).1, (readout reading s).2.limited limit) := by
  cases reading with
  | ended => rfl
  | form f =>
    rw [readout, Interp.build_limited]
    rfl
  | failed e complete =>
    rw [readout, Interp.buildAll_limited]
    rfl

theorem readFrom_limit {source : Source} {mark : Bookmark} (hlimit : s.config.maxDepth ≤ limit)
    (h : (readForm source mark).meetsLimit s = false) :
    readFrom source mark (s.limited limit) = (readFrom source mark s).map fun p =>
      (p.1, p.2.limited limit) := by
  have hread (stream : InputStream) (hstream : source.stream? s = some stream) :
      stream.readForm (s.limited limit).disk (s.limited limit).config.maxDepth mark =
        stream.readForm s.disk s.config.maxDepth mark := by
    simp only [meetsLimit, hstream] at h
    exact InputStream.readForm_of_le hlimit h
  cases source with
  | own stream =>
    rw [readFrom, readFrom, hread stream rfl]
    rcases stream.readForm s.disk s.config.maxDepth mark with ⟨reading, mark', stream'⟩
    dsimp only
    rw [readout_limited]
    rfl
  | object a =>
    have hstore : (s.limited limit).store = s.store := rfl
    rw [readFrom, readFrom, hstore]
    cases hget : s.store.get? a with
    | none => rfl
    | some o =>
      cases o with
      | input stream =>
        dsimp only
        rw [hread stream (by simp [Source.stream?, hget])]
        rcases stream.readForm s.disk s.config.maxDepth mark with ⟨reading, mark', stream'⟩
        have hreadout :=
          readout_limited limit reading { s with store := s.store.set a (.input stream') }
        exact congrArg (fun p => some ((p.1, mark', Source.object a), p.2)) hreadout
      | str | list | scope | function | failure | output => rfl

/-- An effect that does not meet the limit has the same answer and leaves the same behind under a
higher one. -/
theorem perform_limited (e : Effect) (hlimit : s.config.maxDepth ≤ limit)
    (h : e.meetsLimit s = false) :
    e.perform (s.limited limit) = (e.perform s).map fun p => (p.1, p.2.limited limit) := by
  cases e with
  | alloc | intern | gensym | print | echoes | clock | openFile | save | overrun => rfl
  | spelling x => cases hx : s.symbols.spelling? x <;> simp [perform, Interp.limited, hx]
  | render style v =>
    have htext : (s.limited limit).render? style v = s.render? style v :=
      Printer.onto_of_le hlimit h style (some [])
    rw [perform, perform, htext]
    cases s.render? style v <;> rfl
  | tidy roots =>
    have htidy : tidyUp roots (s.limited limit) = (tidyUp roots s).limited limit := by
      rw [tidyUp, tidyUp, apply_ite (Interp.limited limit)]
      rfl
    rw [perform, htidy]
    rfl
  | define a x v =>
    rw [perform_define, perform_define]
    cases hlive : s.store.contains a <;> simp [Interp.limited, hlive]
  | updateItems a _ | restore a _ _ | append a _ =>
    cases hlive : s.store.contains a <;> simp [perform, Interp.limited, hlive]
  | fetch a => cases hget : s.store.get? a <;> simp [perform, Interp.limited, hget]
  | lookup a symbol =>
    cases hfound : s.store.lookup a symbol <;> simp [perform, Interp.limited, hfound]
  | copy v => cases hcopy : s.store.deepCopy v <;> simp [perform, Interp.limited, hcopy]
  | sameText a b => cases hsame : s.store.sameText a b <;> simp [perform, Interp.limited, hsame]
  | position v a => cases hfound : s.store.position v a <;> simp [perform, Interp.limited, hfound]
  | assign a symbol v =>
    cases hassign : s.store.assign a symbol v <;> simp [perform, Interp.limited, hassign]
  | readByte a | readLine a =>
    rcases hget : s.store.get? a with _ | o
    · simp [perform, Interp.limited, hget]
    · cases o <;> simp [perform, Interp.limited, hget]
  | readForm source mark => exact readFrom_limit hlimit h

end Effect

namespace Machine

/-- The machine with another limit. -/
def limited (limit : Nat) (m : Machine) : Machine := { m with interp := m.interp.limited limit }

/-- Whether the next step meets the depth limit. -/
def meetsLimit : Machine → Bool
  | ⟨.call _ _, _, s⟩ => decide (s.config.maxDepth ≤ s.depth)
  | ⟨.effect e _, _, s⟩ => e.meetsLimit s
  | _ => false

/-- Whether no step of a run meets the depth limit. -/
def staysWithin : (fuel : Nat) → Machine → Bool
  | 0, _ => true
  | fuel + 1, m =>
    !m.meetsLimit && match m.step with
      | .running m => staysWithin fuel m
      | _ => true

end Machine

/-- What a step leads to, with another limit. -/
def Progress.limited (limit : Nat) : Progress → Progress
  | running m => running (m.limited limit)
  | finished r s => finished r (s.limited limit)
  | dangling => dangling

/-- How a run ends, with another limit. -/
def Outcome.limited (limit : Nat) : Outcome → Outcome
  | finished r s => finished r (s.limited limit)
  | dangling => dangling
  | outOfFuel => outOfFuel

namespace Machine

variable {m m' : Machine} {limit : Nat}

theorem step_config (h : m.step = .running m') : m'.interp.config = m.interp.config := by
  obtain ⟨x, stack, s⟩ := m
  cases x with
  | done v => cases stack <;> cases h; rfl
  | fail e => cases stack <;> cases h; rfl
  | effect e k =>
    rw [step] at h
    split at h
    · rename_i hperform
      cases h
      exact congrArg Prod.snd (Effect.perform_level hperform)
    · cases h
  | call c k =>
    rw [step] at h
    split at h <;> cases h <;> rfl
  | native scope n args k => cases h; rfl
  | loop l k => cases h; rfl

theorem step_limited (hlimit : m.interp.config.maxDepth ≤ limit) (h : m.meetsLimit = false) :
    (m.limited limit).step = m.step.limited limit := by
  obtain ⟨x, stack, s⟩ := m
  cases x with
  | done v => cases stack <;> rfl
  | fail e => cases stack <;> rfl
  | effect e k =>
    have hperform := e.perform_limited hlimit h
    rw [limited, step, step, hperform]
    cases e.perform s <;> rfl
  | call c k =>
    have hroom : s.depth < s.config.maxDepth := by
      simp only [meetsLimit, decide_eq_false_iff_not] at h
      omega
    have hroom' : s.depth < limit := Nat.lt_of_lt_of_le hroom hlimit
    rw [step, if_pos hroom]
    exact if_pos hroom'
  | native scope n args k => rfl
  | loop l k => rfl

theorem run_limited {fuel : Nat} (hlimit : m.interp.config.maxDepth ≤ limit)
    (h : m.staysWithin fuel = true) :
    (m.limited limit).run fuel = (m.run fuel).limited limit := by
  induction fuel generalizing m with
  | zero => rfl
  | succ fuel ih =>
    rw [staysWithin, Bool.and_eq_true, Bool.not_eq_true'] at h
    obtain ⟨hmeets, hrest⟩ := h
    rw [run, run, step_limited hlimit hmeets]
    cases hstep : m.step with
    | running m' =>
      rw [hstep] at hrest
      have hlimit' : m'.interp.config.maxDepth ≤ limit := by rwa [step_config hstep]
      exact ih hlimit' hrest
    | finished r s => rfl
    | dangling => rfl

end Machine

namespace Interp

/-- An evaluation that comes to its end without meeting the depth limit comes to the same end under
every higher limit. -/
theorem eval_same_under_higher_limit {s s' : Interp} {scope : Addr} {form : Value}
    {r : Except Addr Value} {fuel limit : Nat} (hlimit : s.config.maxDepth ≤ limit)
    (hwithin : Machine.staysWithin fuel ⟨Eval.evaluate scope form, [], s⟩ = true)
    (hrun : s.eval fuel scope form = .finished r s') :
    (s.limited limit).eval fuel scope form = .finished r (s'.limited limit) := by
  have hlimited := Machine.run_limited hlimit hwithin
  rw [eval, run] at hrun
  rw [hrun] at hlimited
  exact hlimited

/-- An error about a nested list is caught and printed: the innermost call and the innermost list
are as deep as the limit allows. -/
theorem eval_same_under_higher_limit_caught :
    let quoted := Form.list [.sym (Bytes.ofString "quote"), .list [.list [.list [.num 1]]]]
    let throwing := Form.list [.sym (Bytes.ofString "throw"), .str (Bytes.ofString "a"), quoted]
    let code :=
      Form.list [.sym (Bytes.ofString "print"), .list [.sym (Bytes.ofString "catch"), throwing]]
    let built := (new ⟨4, 65536, false⟩ .empty 0).build code
    let s := built.2
    ∃ r s', s.eval 1000 s.root built.1 = .finished r s' ∧
      (s.limited 200).eval 1000 s.root built.1 = .finished r (s'.limited 200) := by
  intro quoted throwing code built s
  have hlimit : s.config.maxDepth ≤ 200 := by decide +kernel
  have hwithin : Machine.staysWithin 1000 ⟨Eval.evaluate s.root built.1, [], s⟩ = true := by
    decide +kernel
  have hfinished : (s.eval 1000 s.root built.1).isFinished = true := by decide +kernel
  obtain ⟨r, s', hrun⟩ := Outcome.exists_of_isFinished hfinished
  exact ⟨r, s', hrun, eval_same_under_higher_limit hlimit hwithin hrun⟩

end Interp

end HeapLisp
