import HeapLisp.Proofs.Reader.Locality

namespace HeapLisp

/-- The same place, `k` lines lower down. -/
def Cursor.lower (k : Nat) (c : Cursor) : Cursor := ⟨c.text, c.line + k⟩

namespace ReadError

/-- The same error, blamed on a line that is `k` lines lower down. -/
def lower (k : Nat) (e : ReadError) : ReadError := { e with line := e.line.map (· + (k : Int)) }

theorem lower_atLine (e : ReadError) (line k : Nat) :
    (e.atLine line).lower k = e.atLine ((line + k : Nat) : Int) := by
  simp [lower, atLine]

end ReadError

/-- The same lexeme, `k` lines lower down. -/
def Lexeme.lower (k : Nat) : Lexeme → Lexeme
  | ended after => ended (after.lower k)
  | token t after => token t (after.lower k)
  | failed e after => failed (e.lower k) (after.lower k)

/-- What is open, `k` lines lower down. -/
def Open.lower (k : Nat) : Open → Open
  | list line items => list (line + k) items
  | mark m => mark m

def Nesting.lower (k : Nat) (n : Nesting) : Nesting :=
  ⟨n.opens.map (Open.lower k), n.depth, by simp [n.depth_eq]⟩

/-- The same reading, `k` lines lower down. -/
def Reading.lower (k : Nat) : Reading → Reading
  | ended => ended
  | form f => form f
  | failed e complete => failed (e.lower k) complete

namespace Token

theorem skipBlanks_lower (comment : Bool) (text : Bytes) (line k : Nat) :
    skipBlanks comment text (line + k) = (skipBlanks comment text line).lower k := by
  induction text generalizing comment line with
  | nil => rfl
  | cons b rest ih =>
    unfold skipBlanks
    split_ifs
    · rw [Nat.add_right_comm]
      exact ih false (line + 1)
    · exact ih true line
    · exact ih false line
    · exact ih true line
    · rfl

theorem ofAtom_lower (name : Bytes) (c : Cursor) (k : Nat) :
    ofAtom name (c.lower k) = (ofAtom name c).lower k := by
  unfold ofAtom
  split_ifs
  · split
    · rfl
    · rw [Lexeme.lower, ReadError.lower_atLine]
      rfl
  · rfl

theorem start_lower (b : UInt8) (rest : Bytes) (line k : Nat) :
    start b rest (line + k) = (start b rest line).lower k := by
  unfold start
  split_ifs
  · rfl
  · rfl
  · rfl
  · rfl
  · split <;> rfl
  · dsimp only
    split
    · rw [Lexeme.lower, ReadError.lower_atLine, Cursor.lower, Nat.add_right_comm]
    · rw [Lexeme.lower, Cursor.lower, Nat.add_right_comm]
  · exact ofAtom_lower _ ⟨_, line⟩ k

theorem next_lower (c : Cursor) (k : Nat) : next (c.lower k) = (next c).lower k := by
  unfold next
  rw [Cursor.lower, skipBlanks_lower]
  obtain ⟨text, line⟩ := skipBlanks false c.text c.line
  cases text with
  | nil => rfl
  | cons b rest => exact start_lower b rest line k

end Token

namespace Reader

variable {limit k : Nat}

/-- What a token does to the open lists and marks, `k` lines lower down. -/
def Step.lower (k : Nat) : Step → Step
  | more n => more (n.lower k)
  | finished f => finished f
  | misplaced => misplaced
  | tooDeep => tooDeep

theorem placeIn_lower (f : Form) (opens : List Open) (depth : Nat) (h : depth = opens.length)
    (h' : depth = (opens.map (Open.lower k)).length) :
    placeIn f (opens.map (Open.lower k)) depth h' = (placeIn f opens depth h).lower k := by
  induction opens generalizing f depth with
  | nil => rfl
  | cons o outer ih =>
    cases o with
    | list line items => rfl
    | mark m => exact ih (m.wrap f) (depth - 1) _ _

theorem enter_lower (limit : Nat) (o : Open) (n : Nesting) :
    enter limit (o.lower k) (n.lower k) = (enter limit o n).lower k := by
  unfold enter
  rw [apply_ite (Step.lower k)]
  rfl

theorem close_lower (n : Nesting) : close (n.lower k) = (close n).lower k := by
  obtain ⟨opens, depth, h⟩ := n
  cases opens with
  | nil => rfl
  | cons o outer =>
    cases o with
    | list line items => exact placeIn_lower _ outer (depth - 1) _ _
    | mark m => rfl

theorem step_lower (limit line : Nat) (n : Nesting) (t : Token) :
    step limit (line + k) (n.lower k) t = (step limit line n t).lower k := by
  cases t with
  | opening => exact enter_lower limit (.list line []) n
  | mark m => exact enter_lower limit (.mark m) n
  | closing => exact close_lower n
  | str | num | sym => exact placeIn_lower _ n.opens n.depth _ _

theorem openLists_lower (opens : List Open) :
    openLists (opens.map (Open.lower k)) = openLists opens := by
  induction opens with
  | nil => rfl
  | cons o outer ih =>
    cases o with
    | list line items => exact congrArg (· + 1) ih
    | mark m => exact ih

theorem completeForms_lower (opens : List Open) :
    completeForms (opens.map (Open.lower k)) = completeForms opens := by
  unfold completeForms
  generalize [] = after
  induction opens generalizing after with
  | nil => rfl
  | cons o outer ih =>
    cases o with
    | list line items => exact ih (items.reverse ++ after)
    | mark m => exact ih after

theorem endedInside_lower (line : Nat) (opens : List Open) :
    endedInside (line + k) (opens.map (Open.lower k)) = (endedInside line opens).map
      (ReadError.lower k) := by
  cases opens with
  | nil => rfl
  | cons o outer =>
    cases o with
    | list line items => exact congrArg some (ReadError.lower_atLine _ line k).symm
    | mark m => exact congrArg some (ReadError.lower_atLine _ line k).symm

theorem inside_lower (e : ReadError) (opens : List Open) :
    inside (e.lower k) (opens.map (Open.lower k)) = (inside e opens).lower k := by
  cases opens with
  | nil => rfl
  | cons o outer => cases o <;> rfl

/-- What was passed over and where that ended, `k` lines lower down. -/
def lowerPassed (k : Nat) (r : Except ReadError Unit × Cursor) : Except ReadError Unit × Cursor :=
  (r.1.mapError (ReadError.lower k), r.2.lower k)

theorem skipLists_lower (lists : Nat) (c : Cursor) :
    skipLists lists (c.lower k) = lowerPassed k (skipLists lists c) := by
  fun_induction skipLists lists c with
  | case1 c =>
    rw [skipLists]
    rfl
  | case2 c n after h | case3 c n e after h =>
    rw [skipLists, Token.next_lower, h]
    rfl
  | case4 c n after h ih | case5 c n after h ih | case6 c n t after _ _ h ih =>
    rw [skipLists, Token.next_lower, h]
    simpa [Lexeme.lower] using ih

theorem skipMarked_lower (lists : Nat) (c : Cursor) :
    skipMarked lists (c.lower k) = lowerPassed k (skipMarked lists c) := by
  fun_induction skipMarked lists c with
  | case1 c after h | case2 c e after h =>
    rw [skipMarked, Token.next_lower, h]
    rfl
  | case3 c m after h ih =>
    rw [skipMarked, Token.next_lower, h]
    exact ih
  | case4 c after h | case5 c t after _ _ h =>
    rw [skipMarked, Token.next_lower, h]
    simpa [Lexeme.lower] using skipLists_lower _ after

theorem passOver_lower (t : Token) (opens : List Open) (c : Cursor) :
    passOver t (opens.map (Open.lower k)) (c.lower k) = lowerPassed k (passOver t opens c) := by
  unfold passOver
  rw [openLists_lower]
  split
  · exact skipLists_lower _ c
  · exact skipMarked_lower _ c

/-- What was read and where that ended, `k` lines lower down. -/
def lowerRead (k : Nat) (r : Reading × Cursor) : Reading × Cursor := (r.1.lower k, r.2.lower k)

theorem failAfter_lower (e : ReadError) (complete : List Form)
    (r : Except ReadError Unit × Cursor) :
    failAfter (e.lower k) complete (lowerPassed k r) = lowerRead k (failAfter e complete r) := by
  obtain ⟨_ | _, after⟩ := r <;> rfl

theorem skipDeep_lower (t : Token) (opens : List Open) (c : Cursor) :
    skipDeep t (opens.map (Open.lower k)) (c.lower k) = lowerRead k (skipDeep t opens c) := by
  rw [skipDeep, skipDeep, passOver_lower, completeForms_lower, ← failAfter_lower,
    ReadError.lower_atLine]
  rfl

theorem parse_lower (limit : Nat) (n : Nesting) (l : Lexeme) :
    parse limit (n.lower k) (l.lower k) = lowerRead k (parse limit n l) := by
  have hline (c : Cursor) : (c.lower k).line = c.line + k := rfl
  have hopens (n : Nesting) : (n.lower k).opens = n.opens.map (Open.lower k) := rfl
  fun_induction parse limit n l with
  | case1 n after h | case2 n after e h =>
    rw [Lexeme.lower, parse, hline, hopens, endedInside_lower, h, completeForms_lower]
    rfl
  | case3 n e after =>
    rw [Lexeme.lower, parse, hopens, inside_lower, completeForms_lower]
    rfl
  | case4 n t after n' h ih =>
    rw [Lexeme.lower, parse, hline, step_lower, h]
    dsimp only [Step.lower]
    rw [Token.next_lower]
    exact ih
  | case5 n t after f h =>
    rw [Lexeme.lower, parse, hline, step_lower, h]
    rfl
  | case6 n t after h =>
    rw [Lexeme.lower, parse, hline, hopens, step_lower, h, completeForms_lower]
    dsimp only [Step.lower]
    rw [← ReadError.lower_atLine]
    rfl
  | case7 n t after h =>
    rw [Lexeme.lower, parse, hline, hopens, step_lower, h]
    exact skipDeep_lower t n.opens after

/-- The line of a bookmark decides nothing but the lines of the reading and of the next bookmark. -/
theorem readAt_lower (limit : Nat) (peek : Peek) (line : Nat) (rest : Bytes) :
    ∃ reading peek' line' left, ∀ k,
      readAt limit ⟨peek, line + k⟩ rest = (Reading.lower k reading, ⟨peek', line' + k⟩, left) := by
  have hmarked (l : Lexeme) : ∃ reading peek' line' left, ∀ k,
      marked (parse limit .none (l.lower k)) = (Reading.lower k reading, ⟨peek', line' + k⟩,
          left) := by
    rcases hread : parse limit .none l with ⟨reading, ⟨_ | ⟨b, left⟩, line'⟩⟩
    · refine ⟨reading, .ended, line', [], fun k => ?_⟩
      have hlower := parse_lower (k := k) limit .none l
      rw [hread] at hlower
      exact congrArg marked hlower
    · refine ⟨reading, .byte b, line', left, fun k => ?_⟩
      have hlower := parse_lower (k := k) limit .none l
      rw [hread] at hlower
      exact congrArg marked hlower
  cases peek with
  | ended => exact ⟨.ended, .ended, line, rest, fun k => rfl⟩
  | byte b =>
    obtain ⟨reading, peek', line', left, h⟩ := hmarked (Token.next ⟨b :: rest, line⟩)
    refine ⟨reading, peek', line', left, fun k => ?_⟩
    rw [← h k, ← Token.next_lower]
    rfl
  | other code =>
    by_cases hsemi : lowByte code = Byte.semicolon
    · refine ⟨.form (.sym []), .other code, line, rest, fun k => ?_⟩
      simp [readAt, hsemi, Reading.lower]
    · obtain ⟨reading, peek', line', left, h⟩ := hmarked (Token.start (lowByte code) rest line)
      refine ⟨reading, peek', line', left, fun k => ?_⟩
      rw [← h k, ← Token.start_lower]
      simp [readAt, hsemi, marked]

end Reader

end HeapLisp
