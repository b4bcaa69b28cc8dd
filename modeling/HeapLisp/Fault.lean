import HeapLisp.Reader.Failure
import HeapLisp.Stream.Disk

namespace HeapLisp

/-- The kind that an error belongs to. -/
inductive FaultKind where
  | unboundSymbol
  | arity
  | index
  | type
  | io
  | user
  | read
  | arithmetic
  | depth
deriving DecidableEq, Repr

def FaultKind.name : FaultKind → String
  | unboundSymbol => "UnboundSymbol"
  | arity => "ArityError"
  | index => "IndexError"
  | type => "TypeError"
  | io => "IOError"
  | user => "UserError"
  | read => "ReadError"
  | arithmetic => "ArithmeticError"
  | depth => "DepthError"

/-- Why an evaluation failed. -/
inductive Fault where
  | unboundSymbol
  | wrongArgCount
  | tooDeep
  | notFunction
  | malformedFunction
  | notList
  | notNumber
  | notCharacter
  | notSymbol
  | notString
  | notScope
  | notInput
  | notOutput
  | notSequence
  | notClause
  | missingRestName
  | mixedSequences
  | outOfBounds
  | divisionByZero
  | shiftOutOfRange
  | streamClosed
  | cannotOpen
  | cannotCreate
  | unwritable (cause : WriteFault)
  | unreadable (cause : ReadError)
  | thrown (message : Bytes)
  | host (kind : FaultKind) (message : Bytes)
deriving DecidableEq, Repr

namespace Fault

def kind : Fault → FaultKind
  | unboundSymbol => .unboundSymbol
  | wrongArgCount => .arity
  | tooDeep => .depth
  | outOfBounds => .index
  | divisionByZero | shiftOutOfRange => .arithmetic
  | streamClosed | cannotOpen | cannotCreate | unwritable _ => .io
  | unreadable _ => .read
  | thrown _ => .user
  | host kind _ => kind
  | notFunction | malformedFunction | notList | notNumber | notCharacter | notSymbol | notString
  | notScope | notInput
  | notOutput | notSequence | notClause | missingRestName | mixedSequences => .type

def message : Fault → Bytes
  | unboundSymbol => Bytes.ofString "symbol not bound"
  | wrongArgCount => Bytes.ofString "wrong number of args"
  | tooDeep => Bytes.ofString "recursion limit exceeded"
  | notFunction => Bytes.ofString "not a lambda"
  | malformedFunction => Bytes.ofString "malformed lambda"
  | notList => Bytes.ofString "not a list"
  | notNumber => Bytes.ofString "not a number"
  | notCharacter => Bytes.ofString "not a character code"
  | notSymbol => Bytes.ofString "not a symbol"
  | notString => Bytes.ofString "not a string"
  | notScope => Bytes.ofString "not an environment"
  | notInput => Bytes.ofString "not an input stream"
  | notOutput => Bytes.ofString "not an output stream"
  | notSequence => Bytes.ofString "not a sequence"
  | notClause => Bytes.ofString "not a cond clause"
  | missingRestName => Bytes.ofString "missing &rest name"
  | mixedSequences => Bytes.ofString "cannot cat lists with strings"
  | outOfBounds => Bytes.ofString "index out of bounds"
  | divisionByZero => Bytes.ofString "division by zero"
  | shiftOutOfRange => Bytes.ofString "shift out of range"
  | streamClosed => Bytes.ofString "stream not open"
  | cannotOpen => Bytes.ofString "could not open"
  | cannotCreate => Bytes.ofString "could not create"
  | unwritable cause => Bytes.ofString cause.message
  | unreadable cause => cause.message
  | thrown message => message
  | host _ message => message

end Fault

end HeapLisp
