import HeapLisp.Eval.Effect

namespace HeapLisp

/-- What a call does. -/
inductive Work where
  /-- Evaluates a form with the given head and arguments. -/
  | combine (head : Value) (args : List Value)
  | native (n : Native) (args : List Value)
  | closure (c : Closure) (args : List Value)
  | bind (params : Value) (args : List Value)
  | fill (template : Value)

/-- A step into the depth: the scope it is taken in, what it is about, and the work. -/
structure Call where
  scope : Addr
  subject : Value
  work : Work

/-- A repetition at the same depth, with what it has come to. -/
inductive Loop where
  /-- Evaluates `body` as long as `test` is true. -/
  | repeating (scope : Addr) (test : Value) (body : List Value) (last : Value)
  /-- Evaluates the forms of a stream. With `report`, errors are printed and skipped, and
  collections keep `keep`. -/
  | session (scope : Addr) (source : Source) (mark : Bookmark) (report : Bool) (keep : List Value)
    (last : Value)

/-- An evaluation as a tree: it is done, or has failed with an error object, or waits for the answer
to an effect, for the result of a call one level deeper, or for that of a native function or the end
of a loop at its own level. -/
inductive Eval (α : Type) where
  | done (a : α)
  | fail (error : Addr)
  | effect (e : Effect) (k : e.Reply → Eval α)
  | call (c : Call) (k : Except Addr Value → Eval α)
  | native (scope : Addr) (n : Native) (args : List Value) (k : Except Addr Value → Eval α)
  | loop (l : Loop) (k : Except Addr Value → Eval α)

namespace Eval

variable {α β : Type}

/-- Goes on from either ending of an evaluation. -/
def resume : Eval α → (Except Addr α → Eval β) → Eval β
  | done a, k => k (.ok a)
  | fail e, k => k (.error e)
  | effect e next, k => effect e fun r => (next r).resume k
  | call c next, k => call c fun r => (next r).resume k
  | native scope n args next, k => native scope n args fun r => (next r).resume k
  | loop l next, k => loop l fun r => (next r).resume k

def ofExcept : Except Addr α → Eval α
  | .ok a => done a
  | .error e => fail e

/-- Goes on from the value of an evaluation. -/
def bind : Eval α → (α → Eval β) → Eval β
  | done a, f => f a
  | fail e, _ => fail e
  | effect e next, f => effect e fun r => (next r).bind f
  | call c next, f => call c fun r => (next r).bind f
  | native scope n args next, f => native scope n args fun r => (next r).bind f
  | loop l next, f => loop l fun r => (next r).bind f

instance : Monad Eval where
  pure := done
  bind := bind

/-- Turns both endings into a result. -/
def attempt (x : Eval α) : Eval (Except Addr α) := x.resume done

def perform (e : Effect) : Eval e.Reply := effect e done

/-- Where an index leads past the end. -/
def overrun : Eval α := effect .overrun Empty.elim

def enter (c : Call) : Eval Value := call c ofExcept

/-- The result of a native function, run at the same level. -/
def invoke (scope : Addr) (n : Native) (args : List Value) : Eval Value :=
  native scope n args ofExcept

def iterate (l : Loop) : Eval Value := loop l ofExcept

def fetch (a : Addr) : Eval Object := perform (.fetch a)

def alloc (o : Object) : Eval Value := do return .ref (← perform (.alloc o))

def newList (items : List Value) : Eval Value := alloc (.list items.toArray)

def newStr (bytes : Bytes) : Eval Value := alloc (.str bytes.toByteArray)

def lookup (scope : Addr) (s : Symbol) : Eval (Option Value) := perform (.lookup scope s)

def define (scope : Addr) (s : Symbol) (v : Value) : Eval Unit := perform (.define scope s v)

def assign (scope : Addr) (s : Symbol) (v : Value) : Eval Bool := perform (.assign scope s v)

def updateItems (a : Addr) (f : Array Value → Array Value) : Eval Unit :=
  perform (.updateItems a f)

def render (style : Style) (v : Value) : Eval Bytes := perform (.render style v)

def itemsOf : Value → Eval (Option (List Value))
  | .ref a => do return (← fetch a).items?
  | _ => return none

/-- Where evaluation in a scope takes place, by the stream symbols it sees. -/
def locate (scope : Addr) : Eval Location := do
  match ← lookup scope .streamName with
  | some (.ref a) =>
    match ← fetch a with
    | .str name =>
      match ← lookup scope .streamLine with
      | some (.num line) => return ⟨Utf8.scrub (Bytes.ofPacked name), line⟩
      | _ => return ⟨Utf8.scrub (Bytes.ofPacked name), 0⟩
    | _ => return .unknown
  | _ => return .unknown

/-- Fails with a new error object. -/
def raise (scope : Addr) (fault : Fault) (subject : Value) : Eval α := do
  let location ← locate scope
  let e ← perform (.alloc (.failure ⟨fault, location, subject⟩))
  fail e

/-- Fails because of the number of arguments; the error is about a new list of them. -/
def refuseArgs (scope : Addr) (args : List Value) : Eval α := do
  let got ← newList args
  raise scope .wrongArgCount got

def numArg (scope : Addr) : Value → Eval Int64
  | .num n => return n
  | v => raise scope .notNumber v

/-- A number in the byte range. -/
def byteArg (scope : Addr) (v : Value) : Eval UInt8 := do
  let n ← numArg scope v
  if 0 ≤ n ∧ n ≤ 255 then return n.toUInt64.toUInt8 else raise scope .notCharacter v

def symArg (scope : Addr) : Value → Eval Symbol
  | .sym s => return s
  | v => raise scope .notSymbol v

def listArg (scope : Addr) (v : Value) : Eval (List Value) := do
  match ← itemsOf v with
  | some items => return items
  | none => raise scope .notList v

def listRefArg (scope : Addr) (v : Value) : Eval Addr := do
  match v with
  | .ref a =>
    match ← fetch a with
    | .list _ => return a
    | _ => raise scope .notList v
  | _ => raise scope .notList v

/-- The contents of a string, or of a symbol's name. -/
def stringArg (scope : Addr) (v : Value) : Eval ByteArray := do
  match v with
  | .sym s => perform (.spelling s)
  | .ref a =>
    match ← fetch a with
    | .str text => return text
    | _ => raise scope .notString v
  | .num _ => raise scope .notString v

def bytesArg (scope : Addr) (v : Value) : Eval Bytes := do
  return Bytes.ofPacked (← stringArg scope v)

def textArg (scope : Addr) (v : Value) : Eval Bytes := do return Utf8.scrub (← bytesArg scope v)

def scopeArg (scope : Addr) (v : Value) : Eval Addr := do
  match v with
  | .ref a =>
    match ← fetch a with
    | .scope _ => return a
    | _ => raise scope .notScope v
  | _ => raise scope .notScope v

/-- The address of an open input stream. -/
def inputArg (scope : Addr) (v : Value) : Eval Addr := do
  match v with
  | .ref a =>
    match ← fetch a with
    | .input stream => if stream.isOpen then return a else raise scope .streamClosed v
    | _ => raise scope .notInput v
  | _ => raise scope .notInput v

def outputArg (scope : Addr) (v : Value) : Eval Addr := do
  match v with
  | .ref a =>
    match ← fetch a with
    | .output _ => return a
    | _ => raise scope .notOutput v
  | _ => raise scope .notOutput v

end Eval

end HeapLisp
