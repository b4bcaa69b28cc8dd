import HeapLisp.Machine

namespace HeapLisp.Interp

def run (fuel : Nat) (x : Eval Value) (s : Interp) : Outcome := Machine.run fuel ⟨x, [], s⟩

def eval (fuel : Nat) (scope : Addr) (form : Value) (s : Interp) : Outcome :=
  s.run fuel (Eval.evaluate scope form)

def apply (fuel : Nat) (scope : Addr) (f : Value) (args : List Value) (s : Interp) : Outcome :=
  s.run fuel (Eval.apply scope f args)

def progn (fuel : Nat) (scope : Addr) (forms : List Value) (s : Interp) : Outcome :=
  s.run fuel (Eval.sequence scope .nil forms)

def fill (fuel : Nat) (scope : Addr) (template : Value) (s : Interp) : Outcome :=
  s.run fuel (Eval.fill scope template)

/-- Binds parameters to arguments in a scope; the value on success is nil. -/
def bind (fuel : Nat) (scope : Addr) (params : Value) (args : List Value) (s : Interp) : Outcome :=
  s.run fuel do
    Eval.bindParams scope params args
    return .nil

/-- Makes an error object, and ends with it. -/
def raise (fuel : Nat) (scope : Addr) (kind : FaultKind) (message : Bytes) (subject : Value)
    (s : Interp) : Outcome :=
  s.run fuel (Eval.raise scope (.host kind message) subject)

/-- Evaluates every form of a text in the root scope, up to the first error. -/
def evalText (fuel : Nat) (code name : Bytes) (s : Interp) : Outcome :=
  s.run fuel (Eval.runStream s.root (.own (.memory code)) name false)

def unnamed : Bytes := Bytes.ofString "<eval>"

/-- Evaluates every form of a file in the root scope. Errors in it are printed; only a file that
cannot be opened fails. -/
def load (fuel : Nat) (path : Bytes) (s : Interp) : Outcome :=
  s.run fuel (Eval.loadFile s.root path)

def setGlobal (name : Bytes) (v : Value) (s : Interp) : Interp :=
  let (symbol, s) := s.intern name
  s.defineGlobal symbol v

/-- The value of a name in the root scope; a name that was never interned has none. -/
def global? (s : Interp) (name : Bytes) : Option Value :=
  match s.symbols.find? name with
  | some symbol => (s.store.lookup s.root symbol).getD none
  | none => none

def object? (s : Interp) (v : Value) : Option Object := v.addr?.bind s.store.get?

def list? (s : Interp) (v : Value) : Option (List Value) := (s.object? v).bind Object.items?

def string? (s : Interp) (v : Value) : Option Bytes :=
  match s.object? v with
  | some (.str text) => some (Bytes.ofPacked text)
  | _ => none

def failure? (s : Interp) (v : Value) : Option Failure :=
  match s.object? v with
  | some (.failure f) => some f
  | _ => none

/-- The kind of an error that reached the host, and its text. -/
def report (s : Interp) (error : Addr) : FaultKind × Bytes :=
  (((s.failure? (.ref error)).map fun f => f.fault.kind).getD .user,
    s.render .canonical (.ref error))

/-- What was printed since the last time, and the interpreter without it. -/
def takeOutput (s : Interp) : Bytes × Interp :=
  (Bytes.ofPacked s.console.written, { s with console := { s.console with written := .empty } })

end HeapLisp.Interp
