import HeapLisp.Bytes

namespace HeapLisp

/-- What the reader was in the middle of. -/
inductive Thing where
  | list
  | string
  | quotedForm
deriving DecidableEq, Repr

def Thing.text : Thing → String
  | list => "list"
  | string => "string"
  | quotedForm => "quoted form"

inductive ReadFault where
  | unexpected (c : Char)
  | unclosed (thing : Thing)
  | invalidNumber (text : Bytes)
  | unexpectedEnd
  | tooDeep
deriving DecidableEq, Repr

def ReadFault.message : ReadFault → Bytes
  | unexpected c => Bytes.ofString "unexpected '" ++ Bytes.ofString c.toString ++ Bytes.ofString "'"
  | unclosed thing => Bytes.ofString "unterminated " ++ Bytes.ofString thing.text
  | invalidNumber text => Bytes.ofString "invalid number '" ++ text ++ Bytes.ofString "'"
  | unexpectedEnd => Bytes.ofString "unexpected end of stream"
  | tooDeep => Bytes.ofString "nesting too deep"

/-- A failed reading: its cause, the line it is blamed on, and what was being read, innermost
first. -/
structure ReadError where
  fault : ReadFault
  line : Option Int
  context : List Thing
deriving DecidableEq, Repr

namespace ReadError

def of (fault : ReadFault) : ReadError := ⟨fault, none, []⟩

def atLine (e : ReadError) (line : Int) : ReadError := { e with line := some line }

def whileReading (e : ReadError) (thing : Thing) : ReadError :=
  { e with context := e.context ++ [thing] }

/-- The cause, and the innermost thing that was being read if one is known. -/
def message (e : ReadError) : Bytes :=
  match e.context with
  | [] => e.fault.message
  | thing :: _ => e.fault.message ++ Bytes.ofString " while reading " ++ Bytes.ofString thing.text

end ReadError

end HeapLisp
