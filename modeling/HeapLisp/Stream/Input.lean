import HeapLisp.Reader.Bookmark
import HeapLisp.Stream.Disk

namespace HeapLisp

/-- A file being read: how far it has been buffered, and the buffered bytes that are not
consumed. -/
structure FileReader where
  place : Place
  offset : Nat
  buffered : Bytes

namespace FileReader

def bufferSize : Nat := 8192

/-- How far a file can be seen at a time: all of it, of an endless one a buffer's worth. -/
def extent (place : Place) (d : Disk) : Nat :=
  match d.node? place with
  | some (.file bytes) => bytes.size
  | some (.device device) => if device.isEndless then bufferSize else 0
  | _ => 0

def content (place : Place) (offset count : Nat) (d : Disk) : Bytes :=
  match d.node? place with
  | some (.file bytes) => Bytes.ofPacked (bytes.extract offset (offset + count))
  | some (.device device) =>
    if device.isEndless then List.replicate (min count bufferSize) 0 else []
  | _ => []

def chunk (place : Place) (offset : Nat) (d : Disk) : Bytes := content place offset bufferSize d

/-- Reads the next buffer if nothing is buffered. -/
def fill (r : FileReader) (d : Disk) : FileReader :=
  match r.buffered with
  | [] =>
    let bytes := chunk r.place r.offset d
    { r with offset := r.offset + bytes.length, buffered := bytes }
  | _ :: _ => r

def ahead (r : FileReader) (d : Disk) (count : Nat) : Bytes :=
  r.buffered ++ content r.place r.offset count d

def rest (r : FileReader) (d : Disk) : Bytes := r.ahead d (extent r.place d)

/-- What `f` finds in the first bytes still to come: `count` of them beyond the buffer, and twice as
many at each further try. -/
def searchFrom {α : Type} (r : FileReader) (d : Disk) (f : Bytes → Option α) :
    (tries count : Nat) → Option α
  | 0, _ => none
  | tries + 1, count =>
    match f (r.ahead d count) with
    | some a => some a
    | none => searchFrom r d f tries (2 * count)

/-- What `f` finds in a part of the bytes still to come. The parts grow from a buffer's worth up to
half of the file, so that what is near is found without a look at the rest. -/
def search {α : Type} (r : FileReader) (d : Disk) (f : Bytes → Option α) : Option α :=
  r.searchFrom d f (Nat.log2 ((extent r.place d - r.offset) / bufferSize + 1)) bufferSize

/-- Consumes `n` of the bytes still to come; the buffer then holds what follows them in its part of
the file. -/
def skip (r : FileReader) (d : Disk) (n : Nat) : FileReader :=
  if n ≤ r.buffered.length then { r with buffered := r.buffered.drop n }
  else
    let ahead := n - r.buffered.length
    let whole := (ahead - 1) / bufferSize * bufferSize
    let bytes := chunk r.place (r.offset + whole) d
    { r with offset := r.offset + whole + bytes.length, buffered := bytes.drop (ahead - whole) }

end FileReader

def Bytes.firstLine? (text : Bytes) : Option (Bytes × Bytes) :=
  match text.dropWhile (· != Byte.newline) with
  | [] => none
  | _ :: after => some (text.takeWhile (· != Byte.newline), after)

/-- A stream to read from; a file that could not be opened is a closed stream. -/
inductive InputStream where
  | memory (rest : Bytes)
  | file (reader : Option FileReader)

namespace InputStream

/-- Opens a file for reading. A folder opens too, but holds nothing to read. -/
def openFile (d : Disk) (text : Bytes) : InputStream :=
  .file ((d.locate text).map fun place => ⟨place, 0, []⟩)

def isOpen : InputStream → Bool
  | memory _ => true
  | file reader => reader.isSome

def describe : InputStream → String
  | memory _ => "buffer"
  | file _ => "file"

def readByte (d : Disk) : InputStream → Option UInt8 × InputStream
  | memory [] => (none, memory [])
  | memory (b :: bytes) => (some b, memory bytes)
  | file none => (none, file none)
  | file (some r) =>
    let r := r.fill d
    (r.buffered.head?, file (some { r with buffered := r.buffered.tail }))

/-- The next line without its end, if there is anything left to read. A line that ends inside the
buffer is found without a look at the file. -/
def readLine (d : Disk) : InputStream → Option Bytes × InputStream
  | memory text =>
    match Bytes.firstLine? text with
    | some (line, after) => (some line, memory after)
    | none => (if text.isEmpty then none else some text, memory [])
  | file none => (none, file none)
  | file (some r) =>
    match Bytes.firstLine? r.buffered with
    | some (line, after) => (some line, file (some { r with buffered := after }))
    | none =>
      match r.search d Bytes.firstLine? with
      | some (line, _) => (some line, file (some (r.skip d (line.length + 1))))
      | none =>
        let text := r.rest d
        match Bytes.firstLine? text with
        | some (line, _) => (some line, file (some (r.skip d (line.length + 1))))
        | none => (if text.isEmpty then none else some text, file (some (r.skip d text.length)))

def readWithin (limit : Nat) (mark : Bookmark) (text : Bytes) : Option (Reading × Bookmark × Nat) :=
  match Reader.readAt limit mark text with
  | (_, _, []) => none
  | (reading, mark, left) => some (reading, mark, text.length - left.length)

/-- Reads one form from a bookmark on. A form that leaves something of the buffer is read without a
look at the file. -/
def readForm (d : Disk) (limit : Nat) (mark : Bookmark) :
    InputStream → Reading × Bookmark × InputStream
  | memory text =>
    let (reading, mark, left) := Reader.readAt limit mark text
    (reading, mark, memory left)
  | file none =>
    let (reading, mark, _) := Reader.readAt limit mark []
    (reading, mark, file none)
  | file (some r) =>
    match Reader.readAt limit mark r.buffered with
    | (reading, mark, b :: left) => (reading, mark, file (some { r with buffered := b :: left }))
    | (_, _, []) =>
      match r.search d (readWithin limit mark) with
      | some (reading, mark, consumed) => (reading, mark, file (some (r.skip d consumed)))
      | none =>
        let text := r.rest d
        let (reading, mark, left) := Reader.readAt limit mark text
        (reading, mark, file (some (r.skip d (text.length - left.length))))

end InputStream

end HeapLisp
