import HeapLisp.Bytes.Utf8
import HeapLisp.Numeral
import HeapLisp.Reader.Failure
import HeapLisp.Reader.Form

namespace HeapLisp

inductive Token where
  | opening
  | closing
  | mark (m : Mark)
  | str (bytes : Bytes)
  | num (n : Int64)
  | sym (name : Bytes)
deriving DecidableEq, Repr

/-- A place in the text: what is still unread, and the line it starts on. -/
structure Cursor where
  text : Bytes
  line : Nat
deriving DecidableEq, Repr

inductive Lexeme where
  | ended (after : Cursor)
  | token (t : Token) (after : Cursor)
  | failed (e : ReadError) (after : Cursor)
deriving DecidableEq, Repr

namespace Token

def endsAtom (b : UInt8) : Bool :=
  Byte.isBlank b || b == Byte.openParen || b == Byte.closeParen || b == Byte.doubleQuote ||
    b == Byte.semicolon

/-- The place after blanks and comments; `comment` says whether the text starts inside a comment. -/
def skipBlanks (comment : Bool) : Bytes → Nat → Cursor
  | [], line => ⟨[], line⟩
  | b :: rest, line =>
    if b == Byte.newline then skipBlanks false rest (line + 1)
    else if comment then skipBlanks true rest line
    else if Byte.isBlank b then skipBlanks false rest line
    else if b == Byte.semicolon then skipBlanks true rest line
    else ⟨b :: rest, line⟩

def ofAtom (name : Bytes) (after : Cursor) : Lexeme :=
  if Numeral.looksNumeric name then
    match Numeral.parse name with
    | some n => .token (.num n) after
    | none => .failed ((ReadError.of (.invalidNumber (Utf8.scrub name))).atLine after.line) after
  else .token (.sym name) after

/-- The atom that a text begins with: its first byte, and those up to the next that ends an atom. -/
def atom (text : Bytes) (line : Nat) : Lexeme :=
  match text with
  | [] => .ended ⟨[], line⟩
  | b :: rest => ofAtom (b :: rest.takeWhile (!endsAtom ·)) ⟨rest.dropWhile (!endsAtom ·), line⟩

/-- The token that begins with the byte `b`, which is neither a blank nor the start of a comment. A
string runs to the next double quote and has no escapes. -/
def start (b : UInt8) (rest : Bytes) (line : Nat) : Lexeme :=
  if b == Byte.openParen then .token .opening ⟨rest, line⟩
  else if b == Byte.closeParen then .token .closing ⟨rest, line⟩
  else if b == Byte.quote then .token (.mark .quote) ⟨rest, line⟩
  else if b == Byte.backquote then .token (.mark .template) ⟨rest, line⟩
  else if b == Byte.comma then
    match rest with
    | 64 :: rest => .token (.mark .splice) ⟨rest, line⟩
    | _ => .token (.mark .unquote) ⟨rest, line⟩
  else if b == Byte.doubleQuote then
    let body := rest.takeWhile (· != Byte.doubleQuote)
    match rest.dropWhile (· != Byte.doubleQuote) with
    | [] =>
      .failed ((ReadError.of (.unclosed .string)).atLine line) ⟨[], line + Bytes.lineBreaks body⟩
    | _ :: after => .token (.str body) ⟨after, line + Bytes.lineBreaks body⟩
  else atom (b :: rest) line

def next (c : Cursor) : Lexeme :=
  match skipBlanks false c.text c.line with
  | ⟨[], line⟩ => .ended ⟨[], line⟩
  | ⟨b :: rest, line⟩ => start b rest line

theorem length_skipBlanks_le (comment : Bool) (text : Bytes) (line : Nat) :
    (skipBlanks comment text line).text.length ≤ text.length := by
  fun_induction skipBlanks comment text line <;> grind

theorem length_ofAtom_le {name : Bytes} {c after : Cursor} {t : Token}
    (h : ofAtom name c = .token t after) :
    after.text.length ≤ c.text.length := by
  unfold ofAtom at h
  grind

theorem length_start_le {b : UInt8} {rest : Bytes} {line : Nat} {t : Token} {after : Cursor}
    (h : start b rest line = .token t after) : after.text.length ≤ rest.length := by
  have quoted := (List.dropWhile_sublist (l := rest) (· != Byte.doubleQuote)).length_le
  have plain := (List.dropWhile_sublist (l := rest) (!endsAtom ·)).length_le
  unfold start at h
  split at h
  · grind
  split at h
  · grind
  split at h
  · grind
  split at h
  · grind
  split at h
  · split at h <;> grind
  split at h
  · split at h <;> grind
  · exact Nat.le_trans (length_ofAtom_le h) plain

/-- A token takes at least one byte. -/
theorem length_next_lt {c after : Cursor} {t : Token} (h : next c = .token t after) :
    after.text.length < c.text.length := by
  have skipped := length_skipBlanks_le false c.text c.line
  unfold next at h
  split at h
  · simp at h
  · rename_i b rest line hs
    have := length_start_le h
    rw [hs] at skipped
    simp only [List.length_cons] at skipped
    omega

end Token

end HeapLisp
