import HeapLisp.Host

namespace HeapLisp.CommandLine

/-- The end of a run: whether it failed, its lines of complaint, and the interpreter. -/
structure Result where
  failed : Bool
  complaints : Bytes
  interp : Interp

def Result.exitCode (r : Result) : Nat := if r.failed then 1 else 0

def config (files : List Bytes) : Config :=
  { Config.standard with maxDepth := 10000, echo := files.isEmpty }

variable {m : Type → Type} [Monad m]

/-- Loads files in turn. The text of each error is a line of complaint, and one is enough to fail
the run. -/
def loadAll (exec : Eval Value → Interp → m Outcome) (r : Result) : List Bytes → m Result
  | [] => pure r
  | file :: files => do
    match ← exec (Eval.loadFile r.interp.root file) r.interp with
    | .finished (.ok _) s => loadAll exec { r with interp := s } files
    | .finished (.error e) s =>
      let complaints := r.complaints ++ (s.report e).2 ++ [Byte.newline]
      loadAll exec { failed := true, complaints, interp := s } files
    | .dangling | .outOfFuel => pure { r with failed := true }

/-- Evaluates the standard input; errors in it are printed, and do not fail the run. -/
def converse (exec : Eval Value → Interp → m Outcome) (input : Bytes) (s : Interp) : m Result := do
  match ← exec (Eval.converse s.root input) s with
  | .finished _ s => pure ⟨false, [], s⟩
  | .dangling | .outOfFuel => pure ⟨true, [], s⟩

def run (exec : Eval Value → Interp → m Outcome) (files : List Bytes) (input : Bytes) (disk : Disk)
    (clock : Int64) :
    m Result :=
  let s := Interp.new (config files) disk clock
  if files.isEmpty then converse exec input s else loadAll exec ⟨false, [], s⟩ files

end HeapLisp.CommandLine
