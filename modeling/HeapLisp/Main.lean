import HeapLisp.CommandLine
import Std.Time.DateTime.Timestamp

namespace HeapLisp.Program

def toString? (bytes : Bytes) : Option String := String.fromUTF8? bytes.toByteArray

def isDevice (path : Bytes) (d : Disk) : Bool :=
  match (d.locate path).bind d.node? with
  | some (.device _) => true
  | _ => false

/-- What an open file is, by reading it whole; a folder opens but cannot be read. -/
def nodeOf (handle : IO.FS.Handle) : IO Node := do
  try return .file (← handle.readBinToEnd)
  catch _ => return .folder

/-- Puts the real file or folder at a path on the disk. -/
def fetchFile (path : Bytes) (d : Disk) : IO Disk := do
  match toString? path with
  | none => return d
  | some name =>
    if isDevice path d then return d
    try return d.addNode path (← nodeOf (← IO.FS.Handle.mk name .read))
    catch _ => return d

/-- Makes or empties the real file at a path, and puts it on the disk if that can be done. -/
def prepareFile (path : Bytes) (d : Disk) : IO Disk := do
  match toString? path with
  | none => return d
  | some name =>
    if isDevice path d then return d
    try
      IO.FS.writeBinFile name ByteArray.empty
      return d.addFile path []
    catch _ => return d

def storeFile (path : Bytes) (d : Disk) : IO Unit := do
  match toString? path, d.file? path with
  | some name, some content =>
    try IO.FS.writeBinFile name content.toByteArray
    catch _ => return ()
  | _, _ => return ()

def now : IO Int64 := do
  let time ← Std.Time.Timestamp.now
  return Int64.ofInt (time.toNanosecondsSinceUnixEpoch.toInt / 1000)

/-- Brings the disk or the clock up to date if the next step needs it. -/
def before (m : Machine) : IO Machine := do
  match m.eval with
  | .effect (.openFile path) _ =>
    return { m with interp := { m.interp with disk := ← fetchFile path m.interp.disk } }
  | .effect (.save path _) _ =>
    return { m with interp := { m.interp with disk := ← prepareFile path m.interp.disk } }
  | .effect .clock _ => return { m with interp := { m.interp with clock := ← now } }
  | _ => return m

def after (s : Interp) : IO Interp := do
  if s.console.written.isEmpty then return s
  else
    let (text, s) := s.takeOutput
    let out ← IO.getStdout
    out.write text.toByteArray
    out.flush
    return s

partial def drive (m : Machine) : IO Outcome := do
  let m ← before m
  let saving := match m.eval with
    | .effect (.save path _) _ => some path
    | _ => none
  match m.step with
  | .running m =>
    if let some path := saving then storeFile path m.interp.disk
    drive { m with interp := ← after m.interp }
  | .finished result s => return .finished result (← after s)
  | .dangling => return .dangling

partial def readAll (input : IO.FS.Stream) (before : ByteArray) : IO ByteArray := do
  let bytes ← input.read 65536
  if bytes.isEmpty then return before else readAll input (before ++ bytes)

end HeapLisp.Program

def main (args : List String) : IO UInt32 := do
  let files := args.map HeapLisp.Bytes.ofString
  let input ←
    if args.isEmpty then HeapLisp.Program.readAll (← IO.getStdin) ByteArray.empty
      else pure ByteArray.empty
  let clock ← HeapLisp.Program.now
  let folder ← IO.currentDir
  let disk := HeapLisp.Disk.empty.workingIn (HeapLisp.Bytes.ofString folder.toString)
  let result ← HeapLisp.CommandLine.run (fun x s => HeapLisp.Program.drive ⟨x, [], s⟩) files
    (HeapLisp.Bytes.ofPacked input)
    disk clock
  (← IO.getStderr).write result.complaints.toByteArray
  return result.exitCode.toUInt32
