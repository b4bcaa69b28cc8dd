import HeapLisp.Eval.Form

namespace HeapLisp

namespace Arithmetic

/-- Division toward zero; the smallest number divided by -1 is itself. -/
def quotient (a b : Int64) : Int64 := a / b

def remainder (a b : Int64) : Int64 := a % b

def chained (r : Int64 → Int64 → Bool) : List Int64 → Bool
  | a :: b :: rest => r a b && chained r (b :: rest)
  | _ => true

/-- Whether no two numbers are equal, and none of them is in `seen`. -/
def distinctFrom (seen : Std.TreeSet Int64) : List Int64 → Bool
  | [] => true
  | a :: rest => !seen.contains a && distinctFrom (seen.insert a) rest

def distinct (ns : List Int64) : Bool := distinctFrom ∅ ns

theorem distinctFrom_iff (seen : Std.TreeSet Int64) (ns : List Int64) :
    distinctFrom seen ns = true ↔ ns.Nodup ∧ ∀ a ∈ ns, a ∉ seen := by
  induction ns generalizing seen with
  | nil => simp [distinctFrom]
  | cons a rest ih =>
    simp only [distinctFrom, Bool.and_eq_true, ih, List.nodup_cons, List.mem_cons,
      Std.TreeSet.mem_insert]
    grind

theorem distinct_iff (ns : List Int64) : distinct ns = true ↔ ns.Nodup := by
  simp [distinct, distinctFrom_iff]

def shiftLeft (a n : Int64) : Int64 := a <<< n

/-- Shift to the right with zeros from the left. -/
def shiftRight (a n : Int64) : Int64 := (a.toUInt64 >>> n.toUInt64).toInt64

def shiftArith (a n : Int64) : Int64 := a >>> n

end Arithmetic

def Value.asNum : Value → Except Value Int64
  | num n => .ok n
  | v => .error v

namespace Eval

/-- Arguments that are all numbers; the first one that is none is the error. -/
def numArgs (scope : Addr) (args : List Value) : Eval (List Int64) :=
  match args.mapM Value.asNum with
  | .ok ns => return ns
  | .error v => raise scope .notNumber v

def foldNums (scope : Addr) (args : List Value) (f : Int64 → Int64 → Int64) : Eval Value := do
  match ← numArgs scope args with
  | n :: ns => return .num (ns.foldl f n)
  | [] => overrun

/-- Divides the first number by the others in turn, none of which may be zero. -/
def divideNums (scope : Addr) (args : List Value) (f : Int64 → Int64 → Int64) : Eval Value := do
  match ← numArgs scope args with
  | n :: ns =>
    if ns.contains 0 then raise scope .divisionByZero (.num 0)
    else return .num (ns.foldl f n)
  | [] => overrun

def compareNums (scope : Addr) (args : List Value) (r : Int64 → Int64 → Bool) : Eval Value := do
  return .ofBool (Arithmetic.chained r (← numArgs scope args))

/-- Shifts a number by an amount from 0 to 63. -/
def shiftNum (scope : Addr) (v amount : Value) (f : Int64 → Int64 → Int64) : Eval Value := do
  let n ← numArg scope v
  let k ← numArg scope amount
  if 0 ≤ k ∧ k < 64 then return .num (f n k) else raise scope .shiftOutOfRange amount

/-- Equality of values: the same value, or strings of the same bytes. -/
def isEql (v w : Value) : Eval Bool := do
  if v = w then return true
  else
    match v, w with
    | .ref a, .ref b => perform (.sameText a b)
    | _, _ => return false

end Eval

end HeapLisp
