import HeapLisp.Fault
import HeapLisp.Native
import HeapLisp.Stream.Input
import HeapLisp.Value
import Std.Data.TreeMap.Lemmas

namespace HeapLisp

/-- Values by symbol, each symbol once. -/
structure Bindings where
  values : Std.TreeMap Nat Value

namespace Bindings

def empty : Bindings := ⟨∅⟩

def get? (b : Bindings) (s : Symbol) : Option Value := b.values[s.index]?

def insert (b : Bindings) (s : Symbol) (v : Value) : Bindings := ⟨b.values.insert s.index v⟩

def erase (b : Bindings) (s : Symbol) : Bindings := ⟨b.values.erase s.index⟩

/-- Binds a symbol, or unbinds it where there is no value. -/
def put (b : Bindings) (s : Symbol) : Option Value → Bindings
  | some v => b.insert s v
  | none => b.erase s

/-- The bindings in the order of the symbols. -/
def toList (b : Bindings) : List (Symbol × Value) := b.values.toList.map fun (n, v) => (⟨n⟩, v)

end Bindings

structure Scope where
  bindings : Bindings
  parent : Option Addr

def Scope.inside (parent : Option Addr) : Scope := ⟨.empty, parent⟩

/-- A lambda is called with values; an expander is called with forms, and its result is evaluated in
their place. -/
inductive ClosureKind where
  | lambda
  | expander
deriving DecidableEq, Repr

def ClosureKind.symbol : ClosureKind → Symbol
  | lambda => .lambda
  | expander => .expander

/-- A function of the language: its form is the list of its kind's symbol, its parameters and its
body. -/
structure Closure where
  kind : ClosureKind
  form : Addr
  scope : Addr
deriving DecidableEq, Repr

inductive Function where
  | native (n : Native)
  | closure (c : Closure)
deriving DecidableEq, Repr

/-- An error: why, where, and what it is about. -/
structure Failure where
  fault : Fault
  location : Location
  subject : Value

inductive Object where
  | str (text : ByteArray)
  | list (items : Array Value)
  | scope (s : Scope)
  | function (f : Function)
  | failure (f : Failure)
  | input (stream : InputStream)
  | output (written : ByteArray)

namespace Object

def children : Object → List Addr
  | list items => items.toList.filterMap Value.addr?
  | scope s => s.bindings.toList.filterMap (·.2.addr?) ++ s.parent.toList
  | function (.closure c) => [c.form, c.scope]
  | failure f => f.subject.addr?.toList
  | str _ | function (.native _) | input _ | output _ => []

def typeName : Object → String
  | str _ => "string"
  | list _ => "list"
  | scope _ => "env"
  | function _ => "function"
  | failure _ => "error"
  | input _ => "input stream"
  | output _ => "output stream"

def items? : Object → Option (List Value)
  | list items => some items.toList
  | _ => none

/-- Changes the items of a list; an object of another kind stays as it is. -/
def mapItems (f : Array Value → Array Value) : Object → Object
  | list items => list (f items)
  | o => o

/-- Changes the bindings of a scope; an object of another kind stays as it is. -/
def mapBindings (f : Bindings → Bindings) : Object → Object
  | scope s => scope { s with bindings := f s.bindings }
  | o => o

/-- Adds to what was written to an output stream; an object of another kind stays as it is. -/
def append (bytes : Bytes) : Object → Object
  | output written => output (Bytes.appendTo written bytes)
  | o => o

def scope? : Object → Option Scope
  | scope s => some s
  | _ => none

end Object

end HeapLisp
