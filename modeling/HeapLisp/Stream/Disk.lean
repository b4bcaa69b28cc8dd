import HeapLisp.Bytes
import Std.Data.TreeMap.Lemmas

namespace HeapLisp

/-- A path as it is spelled: whether it starts at the root, the names along it, and whether it ends
like a folder's. -/
structure Path where
  absolute : Bool
  names : List Bytes
  folder : Bool
deriving DecidableEq, Repr

namespace Path

def slash : UInt8 := 47

def here : Bytes := Bytes.ofString "."

def up : Bytes := Bytes.ofString ".."

def maxLength : Nat := 4095

def maxName : Nat := 255

/-- The path that a text spells. An empty text, one that is too long and one with a zero byte spell
none. -/
def parse (text : Bytes) : Option Path :=
  if text.isEmpty || text.length > maxLength || text.contains 0 then none
  else some ⟨text.head? == some slash, Bytes.runs (· == slash) text, text.getLast? == some slash⟩

end Path

/-- Where a node stands: the names on the way from the root, the last one first. -/
structure Place where
  names : List Bytes
deriving DecidableEq, Repr

namespace Place

def root : Place := ⟨[]⟩

/-- The folder around; around the root is the root. -/
def parent (p : Place) : Place := ⟨p.names.tail⟩

def child (p : Place) (name : Bytes) : Place := ⟨name :: p.names⟩

def step (p : Place) (name : Bytes) : Place :=
  if name == Path.here then p else if name == Path.up then p.parent else p.child name

end Place

/-- Files that hold nothing: reading one finds its end at once or zeros without end, and writing to
one loses the bytes or fails for lack of space. -/
inductive Device where
  | null
  | zero
  | full
deriving DecidableEq, Repr

def Device.isEndless : Device → Bool
  | null => false
  | zero | full => true

inductive Node where
  | file (content : ByteArray)
  | folder
  | device (d : Device)

inductive WriteFault where
  | notOpen
  | noSpace
deriving DecidableEq, Repr

def WriteFault.message : WriteFault → String
  | notOpen => "stream not open"
  | noSpace => "No space left on device (os error 28)"

/-- The nodes of a disk by the names of their places, beside the root folder, and the folder that
relative paths start from. -/
structure Disk where
  nodes : Std.TreeMap (List Bytes) Node
  working : Place

namespace Disk

def node? (d : Disk) (p : Place) : Option Node :=
  if p = .root then some .folder else d.nodes[p.names]?

def isFolder (d : Disk) (p : Place) : Bool :=
  match d.node? p with
  | some .folder => true
  | _ => false

def put (d : Disk) (p : Place) (n : Node) : Disk := { d with nodes := d.nodes.insert p.names n }

/-- Where names lead from a place. Every name but the last has to lead to a folder, and so has the
place itself. -/
def walk (d : Disk) (p : Place) : List Bytes → Option Place
  | [] => some p
  | name :: names => if d.isFolder p then d.walk (p.step name) names else none

def start (d : Disk) (path : Path) : Place := if path.absolute then .root else d.working

/-- Where a path leads, and what stands there. What is spelled like a folder has to be one. -/
def resolve (d : Disk) (path : Path) : Option (Place × Option Node) :=
  match d.walk (d.start path) path.names with
  | none => none
  | some p =>
    match d.node? p with
    | some .folder => some (p, some .folder)
    | found => if path.folder then none else some (p, found)

def locate (d : Disk) (text : Bytes) : Option Place :=
  match (Path.parse text).bind d.resolve with
  | some (p, some _) => some p
  | _ => none

def file? (d : Disk) (text : Bytes) : Option Bytes :=
  match (Path.parse text).bind d.resolve with
  | some (_, some (.file bytes)) => some (Bytes.ofPacked bytes)
  | some (_, some (.device .null)) => some []
  | _ => none

/-- Empties the file that a text names, or makes a new one in a folder that exists. -/
def create (d : Disk) (text : Bytes) : Option (Place × Disk) :=
  match (Path.parse text).bind d.resolve with
  | some (p, some (.file _)) => some (p, d.put p (.file .empty))
  | some (p, some (.device _)) => some (p, d)
  | some (p, none) =>
    if p.names.all (·.length ≤ Path.maxName) then some (p, d.put p (.file .empty)) else none
  | _ => none

/-- Writes bytes into a file from a position on; a gap before it is filled with zeros. -/
def writeAt (d : Disk) (p : Place) (position : Nat) (bytes : ByteArray) : Except WriteFault Disk :=
  match d.node? p with
  | some (.file old) =>
    let before := old.extract 0 position
    let gap := (List.replicate (position - before.size) 0).toByteArray
    .ok (d.put p (.file (before ++ gap ++ bytes ++ old.extract (position + bytes.size) old.size)))
  | some (.device .full) => if bytes.isEmpty then .ok d else .error .noSpace
  | some (.device _) => .ok d
  | _ => .error .notOpen

def ensureFolder (d : Disk) (p : Place) : Disk := if (d.node? p).isSome then d else d.put p .folder

/-- Puts a node where a path leads, with folders on the way. -/
def addNode (d : Disk) (text : Bytes) (n : Node) : Disk :=
  match Path.parse text with
  | none => d
  | some path =>
    let (d, p) := path.names.foldl (fun (d, p) name => (d.ensureFolder p, p.step name))
      (d, d.start path)
    if p = .root then d else d.put p n

def addFile (d : Disk) (text content : Bytes) : Disk := d.addNode text (.file content.toByteArray)

def rootFolders : List String :=
  ["bin", "boot", "dev", "etc", "home", "lib", "media", "mnt", "opt", "proc", "root", "run", "sbin",
    "srv", "sys", "tmp",
    "usr", "var"]

def devices : List (String × Device) := [("null", .null), ("zero", .zero), ("full", .full)]

def placeOf (names : List String) : Place := ⟨(names.map Bytes.ofString).reverse⟩

/-- A disk without files, and an empty folder to work in. -/
def empty : Disk :=
  let bare : Disk := ⟨∅, placeOf ["tmp", "work"]⟩
  let furnished := rootFolders.foldl (fun d name => d.put (placeOf [name]) .folder)
    (bare.put bare.working .folder)
  devices.foldl (fun d (name, device) => d.put (placeOf ["dev", name]) (.device device)) furnished

/-- The same disk, worked on from the folder that a text names. -/
def workingIn (d : Disk) (text : Bytes) : Disk :=
  let d := d.addNode text .folder
  { d with working := (d.locate text).getD d.working }

def ofFiles (files : List (Bytes × Bytes)) : Disk :=
  files.foldl (fun d (name, content) => d.addFile name content) empty

end Disk

end HeapLisp
