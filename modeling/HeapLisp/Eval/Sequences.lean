import HeapLisp.Eval.Arithmetic
import HeapLisp.Text

namespace HeapLisp

/-- A sequence, by what holds it. -/
inductive SeqRef where
  | list (a : Addr)
  | str (a : Addr)
  | sym (s : Symbol)
deriving DecidableEq, Repr

def SeqRef.isList : SeqRef → Bool
  | list _ => true
  | _ => false

namespace Eval

def seqArg (scope : Addr) (v : Value) : Eval SeqRef := do
  match v with
  | .sym s => return .sym s
  | .ref a =>
    match ← fetch a with
    | .list _ => return .list a
    | .str _ => return .str a
    | _ => raise scope .notSequence v
  | .num _ => raise scope .notSequence v

/-- Several sequences, after those in `before`, last first. -/
def seqArgsOnto (scope : Addr) (before : List SeqRef) : List Value → Eval (List SeqRef)
  | [] => return before.reverse
  | v :: vs => do
    let r ← seqArg scope v
    seqArgsOnto scope (r :: before) vs

def itemsAt (a : Addr) : Eval (Array Value) := do
  match ← fetch a with
  | .list items => return items
  | _ => return #[]

def seqItems : SeqRef → Eval (Array Value)
  | .list a => itemsAt a
  | _ => return #[]

def seqText : SeqRef → Eval ByteArray
  | .str a => do
    match ← fetch a with
    | .str text => return text
    | _ => return .empty
  | .sym s => perform (.spelling s)
  | .list _ => return .empty

def seqLength : SeqRef → Eval Nat
  | .list a => do return (← itemsAt a).size
  | r => do return (← seqText r).size

def byteAt (i : Nat) (text : ByteArray) : Eval (Option Value) := do
  match Text.elem? text i with
  | some b => return some (← newStr [b])
  | none => return none

/-- An element: an item of a list, or a new string of one byte. -/
def seqElem (r : SeqRef) (i : Nat) : Eval (Option Value) := do
  match r with
  | .list a => return Sequence.elem? (← itemsAt a) i
  | r => byteAt i (← seqText r)

def partOf (s e : Nat) (text : ByteArray) : Eval (Option Value) := do
  match Text.slice? text s e with
  | some text => return some (← alloc (.str text))
  | none => return none

def seqSlice (r : SeqRef) (s e : Nat) : Eval (Option Value) := do
  match r with
  | .list a =>
    match Sequence.slice? (← itemsAt a) s e with
    | some items => return some (← alloc (.list items))
    | none => return none
  | r => partOf s e (← seqText r)

def seqPartsOnto {α : Type} (part : SeqRef → Eval α) (before : List α) :
    List SeqRef → Eval (List α)
  | [] => return before.reverse
  | r :: rs => do
    let xs ← part r
    seqPartsOnto part (xs :: before) rs

def indexArg (scope : Addr) (v : Value) (length : Nat) : Eval Nat := do
  let n ← numArg scope v
  match Sequence.index? length n.toInt with
  | some i => return i
  | none => raise scope .outOfBounds v

def boundArg (scope : Addr) (v : Value) (length : Nat) : Eval Nat := do
  let n ← numArg scope v
  match Sequence.within? length n.toInt with
  | some i => return i
  | none => raise scope .outOfBounds v

/-- A bound of an iteration, which may count from the end. -/
def sweepArg (scope : Addr) (v : Value) (length : Nat) : Eval Nat := do
  let n ← numArg scope v
  match Sequence.within? length (Sequence.resolve length n.toInt) with
  | some i => return i
  | none => raise scope .outOfBounds v

def cat (scope : Addr) (args : List Value) : Eval Value := do
  let seqs ← seqArgsOnto scope [] args
  if seqs.all SeqRef.isList then
    let parts ← seqPartsOnto seqItems [] seqs
    alloc (.list (Sequence.cat parts))
  else if seqs.any SeqRef.isList then
    let got ← newList args
    raise scope .mixedSequences got
  else
    let parts ← seqPartsOnto seqText [] seqs
    alloc (.str (Text.cat parts))

def setItem (a : Addr) (size i : Nat) (v : Value) : Eval Unit :=
  if i < size then updateItems a fun items => items.setIfInBounds i v else overrun

def clearAll (scope : Addr) (last : Value) : List Value → Eval Value
  | [] => return last
  | v :: vs => do
    let a ← listRefArg scope v
    updateItems a fun _ => #[]
    clearAll scope v vs

def splitOnto (before : List Value) : List Bytes → Eval Value
  | [] => newList before.reverse
  | run :: runs => do
    let v ← newStr run
    splitOnto (v :: before) runs

/-- The index of an element: of an equal item, or of the first byte of a string. -/
def find (scope : Addr) (v seq : Value) : Eval Value := do
  let r ← seqArg scope seq
  let position ←
    match r with
    | .list a => perform (.position v a)
    | r => do
      let needle ← stringArg scope v
      let text ← seqText r
      match Text.elem? needle 0 with
      | none => pure none
      | some b => pure (Text.indexOf? b text)
  match position with
  | some i => return .ofNat i
  | none => return .nil

/-- Whether items match a pattern of the same length, in which an underscore matches anything. -/
def matchItems : (items pattern : List Value) → Eval Bool
  | [], [] => return true
  | item :: items, p :: pattern => do
    if p = .sym .underscore then matchItems items pattern
    else if ← isEql item p then matchItems items pattern
    else return false
  | _, _ => return false

/-- The least length of sequences, zero if there are none; `least` is that of the sequences
before. -/
def leastLength (least : Option Nat) : List SeqRef → Eval Nat
  | [] => return least.getD 0
  | r :: rs => do
    let n ← seqLength r
    leastLength (some (least.elim n (min n))) rs

def sweepArgs (scope : Addr) (start finish seqs : Value) :
    Eval (List SeqRef × List Nat) := do
  let values ← listArg scope seqs
  let seqs ← seqArgsOnto scope [] values
  let length ← leastLength none seqs
  let start ← sweepArg scope start length
  let finish ← sweepArg scope finish length
  return (seqs, Sequence.sweep start finish)

def elemsAt (scope : Addr) (i : Nat) (before : List Value) : List SeqRef → Eval (List Value)
  | [] => return before.reverse
  | r :: rs => do
    match ← seqElem r i with
    | some v => elemsAt scope i (v :: before) rs
    | none => raise scope .outOfBounds (.ofNat i)

/-- Calls a function with the elements at one index, the underscore bound to the index. -/
def visit (scope : Addr) (f : Value) (seqs : List SeqRef) (i : Nat) : Eval Value := do
  let args ← elemsAt scope i [] seqs
  define scope .underscore (.ofNat i)
  apply scope f args

def eachOf (scope : Addr) (f : Value) (seqs : List SeqRef) (last : Value) :
    List Nat → Eval Value
  | [] => return last
  | i :: rest => do
    let v ← visit scope f seqs i
    eachOf scope f seqs v rest

/-- Visits indices in order until a result is nil (`stopOnNil`) or is not. -/
def someOf (scope : Addr) (f : Value) (seqs : List SeqRef) (stopOnNil : Bool) (last : Value) :
    List Nat → Eval Value
  | [] => return last
  | i :: rest => do
    let v ← visit scope f seqs i
    if v.isNil == stopOnNil then return v else someOf scope f seqs stopOnNil v rest

def swapItems (a : Addr) (i j : Nat) : Eval Unit :=
  updateItems a fun items => Sequence.swap items i j

/-- Moves the item at an index behind those moved already, of which the last is at `store`, if the
result of a comparison with the pivot puts it before that. -/
def place (scope : Addr) (a : Addr) (store i : Nat) (order : Value) : Eval Nat := do
  let n ← numArg scope order
  if n < 0 then
    swapItems a (store + 1) i
    return store + 1
  else return store

def partitionFrom (scope : Addr) (f : Value) (a : Addr) (pivot : Value) (store : Nat) :
    List Nat → Eval Nat
  | [] => return store
  | i :: rest => do
    match Sequence.elem? (← itemsAt a) i with
    | none => return store
    | some item =>
      let order ← apply scope f [item, pivot]
      let store ← place scope a store i order
      partitionFrom scope f a pivot store rest

/-- Moves the items between two bounds that `f` puts before the first of them ahead of it; the value
is where the first one ends up. -/
def partition (scope : Addr) (f list start finish : Value) : Eval Value := do
  let a ← listRefArg scope list
  let items ← itemsAt a
  let start ← sweepArg scope start items.size
  let finish ← sweepArg scope finish items.size
  if start < finish then
    match items[start]? with
    | some pivot =>
      let indices := List.range' (start + 1) (finish - (start + 1))
      let store ← partitionFrom scope f a pivot start indices
      swapItems a start store
      return .ofNat store
    | none => overrun
  else return .ofNat start

/-- The index that an optional argument names in a text, the first one if it is missing. -/
def codeIndex (scope : Addr) (length : Nat) : Option Value → Eval Nat
  | some v => indexArg scope v length
  | none => if length = 0 then raise scope .outOfBounds (.num 0) else return 0

def code (scope : Addr) (str : Value) (index : Option Value) : Eval Value := do
  let text ← stringArg scope str
  let i ← codeIndex scope text.size index
  match Text.elem? text i with
  | some b => return .ofNat b.toNat
  | none => overrun

/-- What was written to an output stream, or the display text of any other value, as a new
string. -/
def strOf (v : Value) : Eval Value := do
  match v with
  | .ref a =>
    match ← fetch a with
    | .output written => alloc (.str written)
    | _ => newStr (← render .display v)
  | _ => newStr (← render .display v)

end Eval

end HeapLisp
