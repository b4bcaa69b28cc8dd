import HeapLisp.Printer
import HeapLisp.Scope.Chain
import HeapLisp.Store.Collect
import HeapLisp.Store.Copy
import HeapLisp.Store.Equal
import HeapLisp.Stream.Output

namespace HeapLisp

structure Config where
  /-- The deepest nesting of evaluation, reading and printing. -/
  maxDepth : Nat
  /-- How many allocations may be made between collections. -/
  gcThreshold : Nat
  /-- Whether a session prints the value of every form. -/
  echo : Bool
deriving DecidableEq, Repr

def Config.standard : Config := ⟨200, 65536, false⟩

/-- Where printed text goes; a broken console loses it. -/
structure Console where
  written : ByteArray
  broken : Bool

namespace Console

def empty : Console := ⟨.empty, false⟩

def print (c : Console) (text : Bytes) : Console :=
  if c.broken then c else { c with written := Bytes.appendTo c.written text }

end Console

/-- An interpreter: what it stores, what it can see of the world, and how deep its evaluation is
nested. -/
structure Interp where
  store : Store Object
  symbols : SymbolTable
  root : Addr
  config : Config
  depth : Nat
  /-- The last number that a generated symbol was tried with. -/
  generated : Nat
  console : Console
  disk : Disk
  /-- The time in microseconds, later at every reading. -/
  clock : Int64

namespace Interp

def alloc (o : Object) (s : Interp) : Addr × Interp :=
  (s.store.next, { s with store := s.store.insert o })

def intern (name : Bytes) (s : Interp) : Symbol × Interp :=
  (s.symbols.symbolOf name, { s with symbols := s.symbols.insert name })

def defineGlobal (symbol : Symbol) (v : Value) (s : Interp) : Interp :=
  { s with store := s.store.modifyBindings s.root (·.insert symbol v) }

/-- Stores a function under its name in the root scope. -/
def install (s : Interp) (n : Native) : Interp :=
  let (symbol, s) := s.intern (Bytes.ofString n.name)
  let (a, s) := s.alloc (.function (.native n))
  s.defineGlobal symbol (.ref a)

def bare (config : Config) (disk : Disk) (clock : Int64) : Interp :=
  { store := Store.empty.insert (.scope (.inside none))
    symbols := SymbolTable.empty.internAll Symbol.wellKnown
    root := ⟨0⟩
    config, depth := 0, generated := 0, console := .empty, disk, clock }

/-- A new interpreter: `nil` and `t` stand for themselves, the stream name is a string, and every
function is bound. -/
def new (config : Config) (disk : Disk) (clock : Int64) : Interp :=
  let s := ((bare config disk clock).defineGlobal .nil .nil).defineGlobal .t .t
  let (name, s) := s.alloc (.str (Bytes.ofString "<toplevel>").toByteArray)
  let s := (s.defineGlobal .streamName (.ref name)).defineGlobal .streamLine (.num 0)
  Native.all.foldl install s

/-- The text of a value; there is none where a dead address or a symbol without a name is met. -/
def render? (s : Interp) (style : Style) (v : Value) : Option Bytes :=
  Printer.render s.store s.symbols s.config.maxDepth style v

def render (s : Interp) (style : Style) (v : Value) : Bytes := (s.render? style v).getD []

/-- The first name `G1`, `G2`, ... after the numbers already tried that is not interned, in at most
`tries` tries. -/
def freshNumber (symbols : SymbolTable) : (tries : Nat) → (last : Nat) → Nat
  | 0, last => last + 1
  | tries + 1, last =>
    match symbols.find? (71 :: Numeral.decimal (last + 1)) with
    | none => last + 1
    | some _ => freshNumber symbols tries (last + 1)

def gensym (s : Interp) : Symbol × Interp :=
  let n := freshNumber s.symbols s.symbols.size s.generated
  let (symbol, s) := s.intern (71 :: Numeral.decimal n)
  (symbol, { s with generated := n })

mutual

/-- Stores a form: strings and lists become objects, what is inside a list before the list
itself. -/
def build : Form → Interp → Value × Interp
  | .num n, s => (.num n, s)
  | .str bytes, s =>
    let (a, s) := s.alloc (.str bytes.toByteArray)
    (.ref a, s)
  | .sym name, s =>
    let (symbol, s) := s.intern name
    (.sym symbol, s)
  | .list items, s =>
    let (values, s) := buildAll items s
    let (a, s) := s.alloc (.list values.toArray)
    (.ref a, s)

def buildAll : List Form → Interp → List Value × Interp
  | [], s => ([], s)
  | f :: rest, s =>
    let (v, s) := build f s
    let (values, s) := buildAll rest s
    (v :: values, s)

end

/-- Empties every slot that cannot be reached from the root scope and `roots`; the first part is
their number. -/
def collect (roots : List Value) (s : Interp) : Nat × Interp :=
  let (store, freed) := s.store.collect Object.children (s.root :: roots.filterMap Value.addr?)
  (freed, { s with store := store })

end Interp

end HeapLisp
