import HeapLisp.Reader.Parse

namespace HeapLisp

/-- The character looked at: the end of the text, a byte, or another code that a caller resumes
with. -/
inductive Peek where
  | ended
  | byte (b : UInt8)
  | other (code : Int32)
deriving DecidableEq, Repr

namespace Peek

/-- A code is cut to 32 bits, and -1 stands for the end of the text. -/
def ofCode (n : Int64) : Peek :=
  let code := n.toInt32
  if code = -1 then .ended
  else if 0 ≤ code ∧ code ≤ 255 then .byte code.toInt.toNat.toUInt8
  else .other code

def toCode : Peek → Int64
  | ended => -1
  | byte b => Int64.ofNat b.toNat
  | other code => code.toInt64

end Peek

structure Bookmark where
  peek : Peek
  line : Nat
deriving DecidableEq, Repr

namespace Bookmark

/-- Before the first character: as if a blank had been looked at. -/
def start : Bookmark := ⟨.byte Byte.space, 1⟩

def resume (code : Int64) : Bookmark := ⟨.ofCode code, 1⟩

def ofCursor : Cursor → Bookmark × Bytes
  | ⟨[], line⟩ => (⟨.ended, line⟩, [])
  | ⟨b :: rest, line⟩ => (⟨.byte b, line⟩, rest)

end Bookmark

namespace Reader

/-- The byte that a code outside the byte range is taken for. -/
def lowByte (code : Int32) : UInt8 := code.toUInt32.toUInt8

/-- Reads one form, the bookmark's character standing before `rest`. A code outside the byte range
is no blank and ends no line; it begins the token that its low byte begins, and where that is a
semicolon it is a symbol without a name that nothing is consumed for. -/
def readAt (limit : Nat) (mark : Bookmark) (rest : Bytes) : Reading × Bookmark × Bytes :=
  match mark.peek with
  | .ended => (.ended, mark, rest)
  | .byte b =>
    let (reading, c) := read limit ⟨b :: rest, mark.line⟩
    (reading, Bookmark.ofCursor c)
  | .other code =>
    if lowByte code == Byte.semicolon then (.form (.sym []), mark, rest)
    else
      let (reading, c) := parse limit .none (Token.start (lowByte code) rest mark.line)
      (reading, Bookmark.ofCursor c)

end Reader

end HeapLisp
