import HeapLisp.Eval.Special

namespace HeapLisp.Eval

def scopeAndPairs (scope : Addr) (args : List Value) :
    Eval (Addr × List (Value × Value)) := do
  if args.length < 3 ∨ args.length % 2 = 0 then refuseArgs scope args
  else
    match args with
    | target :: rest =>
      let target ← scopeArg scope target
      return (target, ← inPairs rest)
    | [] => overrun

def defineIn (scope target : Addr) (last : Value) : List (Value × Value) → Eval Value
  | [] => return last
  | (name, v) :: rest => do
    let s ← symArg scope name
    define target s v
    defineIn scope target v rest

/-- Changes symbols to values in turn where they are bound, seen from `target`. -/
def assignIn (scope target : Addr) (last : Value) : List (Value × Value) → Eval Value
  | [] => return last
  | (name, v) :: rest => do
    let s ← symArg scope name
    if ← assign target s v then assignIn scope target v rest
    else raise scope .unboundSymbol name

/-- The scope that an optional argument names, the calling one if it is missing. -/
def targetArg (scope : Addr) : Option Value → Eval Addr
  | some v => scopeArg scope v
  | none => return scope

def isDefined (scope : Addr) (name : Value) (target : Option Value) : Eval Value := do
  let s ← symArg scope name
  let target ← targetArg scope target
  return (← lookup target s).getD .nil

/-- What a reading gives a program: a list of the form and the next character. -/
def handOver (scope : Addr) (result : Readout) (mark : Bookmark) : Eval Value :=
  match result with
  | .failed e => raise scope (.unreadable e) .nil
  | .ended => newList [.nil, .num mark.peek.toCode]
  | .value form => newList [form, .num mark.peek.toCode]

def readNext (scope : Addr) (stream last : Value) : Eval Value := do
  let a ← inputArg scope stream
  let n ← numArg scope last
  let (result, mark, _) ← perform (.readForm (.object a) (.resume n))
  handOver scope result mark

def writeTo (a : Addr) (stream : Value) (bytes : Bytes) : Eval Value := do
  perform (.append a bytes)
  return stream

/-- The display texts of values, one after the other, after the bytes in `before`, last first. -/
def displayOnto (before : Bytes) : List Value → Eval Bytes
  | [] => return before.reverse
  | v :: vs => do
    let text ← render .display v
    displayOnto (text.reverse ++ before) vs

def printAll (args : List Value) (ending : Bytes) : Eval Value := do
  let text ← displayOnto [] args
  perform (.print (text ++ ending))
  return args.getLast?.getD .nil

def save (scope : Addr) (v path : Value) : Eval Value := do
  let name ← textArg scope path
  let text ← render .canonical v
  match ← perform (.save name text) with
  | .ok () => return v
  | .error fault => raise scope fault path

end HeapLisp.Eval
