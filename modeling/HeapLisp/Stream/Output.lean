import HeapLisp.Stream.Disk

namespace HeapLisp

/-- A file being written: how far it has been written, and the bytes that wait to be written. -/
structure FileWriter where
  place : Place
  position : Nat
  buffered : ByteArray

namespace FileWriter

def bufferSize : Nat := 8192

def writeThrough (w : FileWriter) (d : Disk) (bytes : ByteArray) :
    Except WriteFault Unit × FileWriter × Disk :=
  match d.writeAt w.place w.position bytes with
  | .ok d => (.ok (), { w with position := w.position + bytes.size }, d)
  | .error e => (.error e, w, d)

/-- Writes what waits; on failure it goes on waiting. -/
def flush (w : FileWriter) (d : Disk) : Except WriteFault Unit × FileWriter × Disk :=
  match w.writeThrough d w.buffered with
  | (.ok (), w, d) => (.ok (), { w with buffered := .empty }, d)
  | failed => failed

/-- Adds bytes to a buffer that has just made room for them, or writes them at once if they would
fill it. -/
def add (w : FileWriter) (d : Disk) (bytes : Bytes) : Except WriteFault Unit × FileWriter × Disk :=
  if bytes.length < bufferSize
    then (.ok (), { w with buffered := Bytes.appendTo w.buffered bytes }, d)
  else w.writeThrough d bytes.toByteArray

def write (w : FileWriter) (d : Disk) (bytes : Bytes) :
    Except WriteFault Unit × FileWriter × Disk :=
  if w.buffered.size + bytes.length ≤ bufferSize then w.add d bytes
  else
    match w.flush d with
    | (.ok (), w, d) => w.add d bytes
    | failed => failed

end FileWriter

/-- A stream to write to; a file that could not be created is a closed stream. -/
inductive OutputStream where
  | text (written : ByteArray)
  | file (writer : Option FileWriter)

namespace OutputStream

def createFile (d : Disk) (path : Bytes) : OutputStream × Disk :=
  match d.create path with
  | some (place, d) => (.file (some ⟨place, 0, .empty⟩), d)
  | none => (.file none, d)

def isOpen : OutputStream → Bool
  | text _ => true
  | file writer => writer.isSome

def describe : OutputStream → String
  | text _ => "string"
  | file _ => "file"

/-- Everything written, for a stream that keeps it. -/
def contents? : OutputStream → Option Bytes
  | text written => some (Bytes.ofPacked written)
  | file _ => none

def write (d : Disk) (bytes : Bytes) : OutputStream → Except WriteFault Unit × OutputStream × Disk
  | text written => (.ok (), text (Bytes.appendTo written bytes), d)
  | file none => (.error .notOpen, file none, d)
  | file (some w) =>
    let (result, w, d) := w.write d bytes
    (result, file (some w), d)

def writeLine (d : Disk) (line : Bytes) (s : OutputStream) :
    Except WriteFault Unit × OutputStream × Disk :=
  match s.write d line with
  | (.ok (), s, d) => s.write d [Byte.newline]
  | failed => failed

/-- Writes what waits in a buffer; a closed stream has nothing waiting. -/
def flush (d : Disk) : OutputStream → Except WriteFault Unit × OutputStream × Disk
  | text written => (.ok (), text written, d)
  | file none => (.ok (), file none, d)
  | file (some w) =>
    let (result, w, d) := w.flush d
    (result, file (some w), d)

end OutputStream

end HeapLisp
