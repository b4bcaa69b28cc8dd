import HeapLisp.Eval.Form

namespace HeapLisp

inductive Turn where
  | again (l : Loop)
  | finished (v : Value)

namespace Eval

def printLine (v : Value) : Eval Unit := do
  let text ← render .canonical v
  perform (.print (text ++ [Byte.newline]))

/-- The line that a reading is blamed on: the error's own, or the one reached. -/
def lineOf (result : Readout) (mark : Bookmark) : Int :=
  match result with
  | .failed e => e.line.getD mark.line
  | _ => mark.line

def evaluateRead (scope : Addr) : Readout → Eval (Option (Except Addr Value))
  | .ended => return none
  | .value form => do return some (← attempt (evaluate scope form))
  | .failed e => do return some (← attempt (raise scope (.unreadable e) .nil))

/-- Prints what is to be printed of the form that was read, if there was one, and goes on to the
next. -/
def endTurn (scope : Addr) (source : Source) (mark : Bookmark) (report : Bool) (keep : List Value)
    (last : Value) : Option (Except Addr Value) → Eval Turn
  | none => return .finished last
  | some (.ok v) => do
    if ← perform .echoes then printLine v
    if report then perform (.tidy (.ref scope :: v :: keep))
    return .again (.session scope source mark report keep v)
  | some (.error e) => do
    if report then
      printLine (.ref e)
      perform (.tidy (.ref scope :: .ref e :: keep))
      return .again (.session scope source mark report keep (.ref e))
    else fail e

def sessionTurn (scope : Addr) (source : Source) (mark : Bookmark) (report : Bool)
    (keep : List Value) (last : Value) : Eval Turn := do
  let (result, mark, source) ← perform (.readForm source mark)
  define scope .streamLine (.num (Int64.ofInt (lineOf result mark)))
  endTurn scope source mark report keep last (← evaluateRead scope result)

def repeatingTurn (scope : Addr) (test : Value) (body : List Value) (last : Value) :
    Eval Turn := do
  let v ← evaluate scope test
  if v.isNil then return .finished last
  else
    let last ← sequence scope .nil body
    return .again (.repeating scope test body last)

/-- Evaluates every form of a stream in a scope, which meanwhile tells the stream's name and line.
Its own are put back at the end, however it ends. -/
def runStream (scope : Addr) (source : Source) (name : Bytes) (report : Bool) : Eval Value := do
  match ← fetch scope with
  | .scope s =>
    let oldName := s.bindings.get? .streamName
    let oldLine := s.bindings.get? .streamLine
    let name ← newStr name
    define scope .streamName name
    define scope .streamLine (.num 1)
    let keep := oldName.toList ++ oldLine.toList
    let result ← attempt (iterate (.session scope source .start report keep .nil))
    perform (.restore scope .streamName oldName)
    perform (.restore scope .streamLine oldLine)
    ofExcept result
  | _ => raise scope .notScope (.ref scope)

/-- Runs a file as a session that reports errors. -/
def loadFile (scope : Addr) (path : Bytes) : Eval Value := do
  let stream ← perform (.openFile path)
  if stream.isOpen then runStream scope (.own stream) path true
  else
    let name ← newStr path
    raise scope .cannotOpen name

def converse (scope : Addr) (input : Bytes) : Eval Value :=
  runStream scope (.own (.memory input)) (Bytes.ofString "stdin") true

end Eval

def Loop.turn : Loop → Eval Turn
  | repeating scope test body last => Eval.repeatingTurn scope test body last
  | session scope source mark report keep last =>
    Eval.sessionTurn scope source mark report keep last

end HeapLisp
