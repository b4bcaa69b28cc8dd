import HeapLisp.Reader.Token

namespace HeapLisp

/-- A list or a mark whose form is not complete yet. -/
inductive Open where
  | list (line : Nat) (items : List Form)
  | mark (m : Mark)
deriving Repr

/-- The result of one reading. A failed one still names the forms that were complete, in the order
of the text. -/
inductive Reading where
  | ended
  | form (f : Form)
  | failed (e : ReadError) (complete : List Form)
deriving Repr

/-- The lists and marks that are open, innermost first, and their number. -/
structure Nesting where
  opens : List Open
  depth : Nat
  depth_eq : depth = opens.length

namespace Nesting

def none : Nesting := ⟨[], 0, rfl⟩

def push (o : Open) (n : Nesting) : Nesting := ⟨o :: n.opens, n.depth + 1, by simp [n.depth_eq]⟩

end Nesting

namespace Reader

inductive Step where
  | more (nesting : Nesting)
  | finished (f : Form)
  | misplaced
  | tooDeep

/-- A complete form closes the marks before it and joins the innermost open list. -/
def placeIn (f : Form) : (opens : List Open) → (depth : Nat) → depth = opens.length → Step
  | [], _, _ => .finished f
  | .list line items :: outer, depth, h => .more ⟨.list line (f :: items) :: outer, depth, h⟩
  | .mark m :: outer, depth, h => placeIn (m.wrap f) outer (depth - 1) (by simp [h])

def place (f : Form) (n : Nesting) : Step := placeIn f n.opens n.depth n.depth_eq

def enter (limit : Nat) (o : Open) (n : Nesting) : Step :=
  if n.depth < limit then .more (n.push o) else .tooDeep

/-- Closes the innermost list; a mark has to get its form first. -/
def close : Nesting → Step
  | ⟨.list _ items :: outer, depth, h⟩ =>
    placeIn (.list items.reverse) outer (depth - 1) (by simp [h])
  | _ => .misplaced

def step (limit line : Nat) (n : Nesting) : Token → Step
  | .opening => enter limit (.list line []) n
  | .mark m => enter limit (.mark m) n
  | .closing => close n
  | .str bytes => place (.str bytes) n
  | .num k => place (.num k) n
  | .sym name => place (.sym name) n

def openLists : List Open → Nat
  | [] => 0
  | .list _ _ :: outer => openLists outer + 1
  | .mark _ :: outer => openLists outer

/-- The complete forms of the open lists, in the order of the text, before those in `after`. -/
def completeBefore (after : List Form) : List Open → List Form
  | [] => after
  | .list _ items :: outer => completeBefore (items.reverse ++ after) outer
  | .mark _ :: outer => completeBefore after outer

def completeForms (opens : List Open) : List Form := completeBefore [] opens

def endedInside (line : Nat) : List Open → Option ReadError
  | [] => none
  | .list start _ :: _ => some ((ReadError.of (.unclosed .list)).atLine start)
  | .mark _ :: _ => some (((ReadError.of .unexpectedEnd).whileReading .quotedForm).atLine line)

def inside (e : ReadError) : List Open → ReadError
  | [] => e
  | .list _ _ :: _ => e.whileReading .list
  | .mark _ :: _ => e.whileReading .quotedForm

/-- Passes over tokens until `lists` open lists are closed or the text ends. -/
def skipLists (lists : Nat) (c : Cursor) : Except ReadError Unit × Cursor :=
  match lists with
  | 0 => (.ok (), c)
  | n + 1 =>
    match h : Token.next c with
    | .ended after => (.ok (), after)
    | .failed e after => (.error e, after)
    | .token .opening after => skipLists (n + 2) after
    | .token .closing after => skipLists n after
    | .token _ after => skipLists (n + 1) after
termination_by c.text.length
decreasing_by all_goals exact Token.length_next_lt h

/-- Passes over the form after a mark, and then to the end of the `lists` lists around it. -/
def skipMarked (lists : Nat) (c : Cursor) : Except ReadError Unit × Cursor :=
  match h : Token.next c with
  | .ended after => (.ok (), after)
  | .failed e after => (.error e, after)
  | .token (.mark _) after => skipMarked lists after
  | .token .opening after => skipLists (lists + 1) after
  | .token _ after => skipLists lists after
termination_by c.text.length
decreasing_by exact Token.length_next_lt h

def passOver (t : Token) (opens : List Open) (c : Cursor) : Except ReadError Unit × Cursor :=
  match t with
  | .opening => skipLists (openLists opens + 1) c
  | _ => skipMarked (openLists opens) c

/-- The failed reading after a text was passed over: because of `e`, unless that failed itself. -/
def failAfter (e : ReadError) (complete : List Form) :
    Except ReadError Unit × Cursor → Reading × Cursor
  | (.ok (), after) => (.failed e complete, after)
  | (.error e, after) => (.failed e complete, after)

/-- A form that would nest deeper than the limit is passed over as a whole, together with the lists
around it, so that the next reading starts after it. -/
def skipDeep (t : Token) (opens : List Open) (c : Cursor) : Reading × Cursor :=
  failAfter ((ReadError.of .tooDeep).atLine c.line) (completeForms opens) (passOver t opens c)

/-- The text that a lexeme leaves, and one more if it is a token. -/
def room : Lexeme → Nat
  | .token _ after => after.text.length + 1
  | _ => 0

theorem room_next_lt (t : Token) (c : Cursor) : room (Token.next c) < room (.token t c) := by
  cases h : Token.next c with
  | token t' after => simpa [room] using Token.length_next_lt h
  | _ => simp [room]

def parse (limit : Nat) (n : Nesting) : Lexeme → Reading × Cursor
  | .ended after =>
    match endedInside after.line n.opens with
    | none => (.ended, after)
    | some e => (.failed e (completeForms n.opens), after)
  | .failed e after => (.failed (inside e n.opens) (completeForms n.opens), after)
  | .token t after =>
    match step limit after.line n t with
    | .more n => parse limit n (Token.next after)
    | .finished f => (.form f, after)
    | .misplaced =>
      (.failed ((ReadError.of (.unexpected ')')).atLine after.line) (completeForms n.opens), after)
    | .tooDeep => skipDeep t n.opens after
termination_by lexeme => room lexeme
decreasing_by exact room_next_lt t after

def read (limit : Nat) (c : Cursor) : Reading × Cursor := parse limit .none (Token.next c)

end Reader

end HeapLisp
