import HeapLisp.Interp

namespace HeapLisp

/-- Where forms are read from: a stream of one's own, or one that is an object. -/
inductive Source where
  | own (stream : InputStream)
  | object (a : Addr)

inductive Readout where
  | ended
  | value (v : Value)
  | failed (e : ReadError)

/-- Everything that an evaluation can do to its interpreter, one at a time. An effect never empties
or retypes a slot, except that a collection, which is refused while evaluation is nested, empties
what cannot be reached. -/
inductive Effect where
  | fetch (a : Addr)
  | alloc (o : Object)
  | updateItems (a : Addr) (f : Array Value → Array Value)
  | lookup (scope : Addr) (s : Symbol)
  | define (scope : Addr) (s : Symbol) (v : Value)
  /-- Changes a symbol where it is bound, and tells whether it is. -/
  | assign (scope : Addr) (s : Symbol) (v : Value)
  /-- Binds a symbol in a scope, or unbinds it. -/
  | restore (scope : Addr) (s : Symbol) (old : Option Value)
  | copy (v : Value)
  | intern (name : Bytes)
  | spelling (s : Symbol)
  /-- Whether two objects are strings of the same bytes. -/
  | sameText (a b : Addr)
  /-- The position of the first item of a list that is equal to a value. -/
  | position (v : Value) (list : Addr)
  | gensym
  | render (style : Style) (v : Value)
  /-- Collects with the given roots, if that is due. -/
  | tidy (roots : List Value)
  | print (text : Bytes)
  /-- Whether a session prints the value of every form. -/
  | echoes
  | clock
  | openFile (path : Bytes)
  | readByte (stream : Addr)
  | readLine (stream : Addr)
  | readForm (source : Source) (mark : Bookmark)
  | append (stream : Addr) (bytes : Bytes)
  /-- Writes a line to a new file. -/
  | save (path : Bytes) (line : Bytes)
  /-- Follows an index past the end of what it is an index of, which no reply comes from. -/
  | overrun

namespace Effect

@[reducible] def Reply : Effect → Type
  | fetch _ => Object
  | alloc _ => Addr
  | updateItems _ _ => Unit
  | lookup _ _ => Option Value
  | define _ _ _ => Unit
  | assign _ _ _ => Bool
  | restore _ _ _ => Unit
  | copy _ => Value
  | intern _ => Symbol
  | spelling _ => ByteArray
  | sameText _ _ => Bool
  | position _ _ => Option Nat
  | gensym => Symbol
  | render _ _ => Bytes
  | tidy _ => Unit
  | print _ => Unit
  | echoes => Bool
  | clock => Int64
  | openFile _ => InputStream
  | readByte _ => Option UInt8
  | readLine _ => Option Bytes
  | readForm _ _ => Readout × Bookmark × Source
  | append _ _ => Unit
  | save _ _ => Except Fault Unit
  | overrun => Empty

/-- A collection is due outside all evaluation, once there were more allocations than the
configuration allows. -/
def tidyUp (roots : List Value) (s : Interp) : Interp :=
  if s.depth = 0 ∧ s.config.gcThreshold < s.store.pending then (s.collect roots).2 else s

/-- Stores what a reading gave; the complete forms of a failed one are stored too. -/
def readout (reading : Reading) (s : Interp) : Readout × Interp :=
  match reading with
  | .ended => (.ended, s)
  | .form f =>
    let (v, s) := s.build f
    (.value v, s)
  | .failed e complete => (.failed e, (s.buildAll complete).2)

def readFrom (source : Source) (mark : Bookmark) (s : Interp) :
    Option ((Readout × Bookmark × Source) × Interp) :=
  match source with
  | .own stream =>
    let (reading, mark, stream) := stream.readForm s.disk s.config.maxDepth mark
    let (result, s) := readout reading s
    some ((result, mark, .own stream), s)
  | .object a =>
    match s.store.get? a with
    | none => none
    | some (.input stream) =>
      let (reading, mark, stream) := stream.readForm s.disk s.config.maxDepth mark
      let (result, s) := readout reading { s with store := s.store.set a (.input stream) }
      some ((result, mark, .object a), s)
    | some _ => some ((.ended, mark, .object a), s)

def saveLine (path line : Bytes) (d : Disk) : Except Fault Unit × Disk :=
  match OutputStream.createFile d path with
  | (.file none, d) => (.error .cannotCreate, d)
  | (stream, d) =>
    match stream.writeLine d line with
    | (.error e, _, d) => (.error (.unwritable e), d)
    | (.ok (), stream, d) =>
      match stream.flush d with
      | (.error e, _, d) => (.error (.unwritable e), d)
      | (.ok (), _, d) => (.ok (), d)

/-- What an effect answers and leaves behind; `none` where it follows a dead address, a symbol
without a name or an index past the end. -/
def perform : (e : Effect) → Interp → Option (e.Reply × Interp)
  | fetch a, s =>
    match s.store.get? a with
    | some o => some (o, s)
    | none => none
  | alloc o, s => some (s.alloc o)
  | updateItems a f, s =>
    if s.store.contains a then
      some ((), { s with store := s.store.modify a (Object.mapItems f) })
    else none
  | lookup scope symbol, s =>
    match s.store.lookup scope symbol with
    | none => none
    | some found => some (found, s)
  | define scope symbol v, s =>
    match s.store.define scope symbol v with
    | none => none
    | some (_, store) => some ((), { s with store })
  | assign scope symbol v, s =>
    match s.store.assign scope symbol v with
    | none => none
    | some (owner, store) => some (owner.isSome, { s with store })
  | restore scope symbol old, s =>
    if s.store.contains scope then
      some ((), { s with store := s.store.modifyBindings scope (·.put symbol old) })
    else none
  | copy v, s =>
    match s.store.deepCopy v with
    | none => none
    | some (v, store) => some (v, { s with store := store })
  | intern name, s => some (s.intern name)
  | spelling symbol, s =>
    match s.symbols.spelling? symbol with
    | none => none
    | some text => some (text, s)
  | sameText a b, s =>
    match s.store.sameText a b with
    | none => none
    | some same => some (same, s)
  | position v a, s =>
    match s.store.position v a with
    | none => none
    | some found => some (found, s)
  | gensym, s => some s.gensym
  | render style v, s =>
    match s.render? style v with
    | none => none
    | some text => some (text, s)
  | tidy roots, s => some ((), tidyUp roots s)
  | print text, s => some ((), { s with console := s.console.print text })
  | echoes, s => some (s.config.echo, s)
  | clock, s => some (s.clock, { s with clock := s.clock + 1 })
  | openFile path, s => some (InputStream.openFile s.disk path, s)
  | readByte a, s =>
    match s.store.get? a with
    | none => none
    | some (.input stream) =>
      let (b, stream) := stream.readByte s.disk
      some (b, { s with store := s.store.set a (.input stream) })
    | some _ => some (none, s)
  | readLine a, s =>
    match s.store.get? a with
    | none => none
    | some (.input stream) =>
      let (line, stream) := stream.readLine s.disk
      some (line, { s with store := s.store.set a (.input stream) })
    | some _ => some (none, s)
  | readForm source mark, s => readFrom source mark s
  | append a bytes, s =>
    if s.store.contains a then
      some ((), { s with store := s.store.modify a (Object.append bytes) })
    else none
  | save path line, s =>
    let (result, disk) := saveLine path line s.disk
    some (result, { s with disk := disk })
  | overrun, _ => none

end Effect

end HeapLisp
