import HeapLisp.Bytes.Utf8
import HeapLisp.Numeral
import HeapLisp.Object
import Std.Data.TreeSet.Lemmas

namespace HeapLisp

/-- Canonical text quotes every string; display text leaves a string bare that is printed by
itself. -/
inductive Style where
  | canonical
  | display
deriving DecidableEq, Repr

namespace Printer

def dots : Bytes := Bytes.ofString "..."

/-- Bindings with the names of their symbols, in the order of the names; `none` if a symbol has no
name. -/
def namedBindings? (symbols : SymbolTable) (b : Bindings) : Option (List (Bytes × Value)) := do
  let named ← b.toList.mapM fun p => (symbols.nameOf? p.1).map (·, p.2)
  return (Std.TreeMap.ofList named).toList

def namedBindings (symbols : SymbolTable) (b : Bindings) : List (Bytes × Value) :=
  (namedBindings? symbols b).getD []

def location (l : Location) : Bytes :=
  l.name ++ Byte.openParen :: (Numeral.ofInt l.line.toInt ++ [Byte.closeParen])

def bracketed (text : String) : Bytes := 60 :: (Bytes.ofString text ++ [62])

/-- Text before what follows it, if that could be printed. -/
def put (text : Bytes) (rest : Option Bytes) : Option Bytes := rest.map (text ++ ·)

@[simp] theorem put_some (text rest : Bytes) : put text (some rest) = some (text ++ rest) := rfl

/-- The text of a value, put before `rest`. The slots of the objects around the value are in
`path`, and `room` more may be entered; an object inside itself, and one that there is no room for,
is printed as dots. There is no text where a dead address or a symbol without a name is met. -/
def onto (store : Store Object) (symbols : SymbolTable) : (room : Nat) →
    (path : Std.TreeSet Nat) → Style → Value → (rest : Option Bytes) → Option Bytes
  | _, _, _, .num n, rest => put (Numeral.ofInt n.toInt) rest
  | _, _, _, .sym s, rest =>
    match symbols.nameOf? s with
    | none => none
    | some name => put (Utf8.scrub name) rest
  | 0, _, _, .ref _, rest => put dots rest
  | room + 1, path, style, .ref a, rest =>
    if path.contains a.index then put dots rest
    else
      match store.get? a with
      | none => none
      | some (.str text) =>
        match style with
        | .display => put (Utf8.scrub (Bytes.ofPacked text)) rest
        | .canonical =>
          put [Byte.doubleQuote]
            (put (Utf8.scrub (Bytes.ofPacked text)) (put [Byte.doubleQuote] rest))
      | some (.list items) =>
        match items.toList with
        | [] => put [Byte.openParen, Byte.closeParen] rest
        | first :: others =>
          put [Byte.openParen] (onto store symbols room (path.insert a.index) .canonical first
            (others.foldr (fun v rest => put [Byte.space]
              (onto store symbols room (path.insert a.index) .canonical v rest))
              (put [Byte.closeParen] rest)))
      | some (.scope s) =>
        match namedBindings? symbols s.bindings with
        | none => none
        | some entries =>
          put [123] (entries.foldr (fun (name, v) rest =>
            put (91 :: (Utf8.scrub name ++ Bytes.ofString " : "))
              (onto store symbols room (path.insert a.index) .canonical v (put [93] rest)))
            (put [125] rest))
      | some (.function (.native n)) => put (bracketed ("function " ++ n.name)) rest
      | some (.function (.closure c)) =>
        onto store symbols room (path.insert a.index) .canonical (.ref c.form) rest
      | some (.failure f) =>
        put (Bytes.ofString "Error: " ++ (f.fault.message ++ Bytes.ofString " ! < "))
          (onto store symbols room (path.insert a.index) .canonical f.subject
            (put (Bytes.ofString " > File: " ++ location f.location) rest))
      | some (.input s) => put (bracketed (s.describe ++ " stream")) rest
      | some (.output _) => put (bracketed "string stream") rest

def render (store : Store Object) (symbols : SymbolTable) (limit : Nat) (style : Style)
    (v : Value) : Option Bytes :=
  onto store symbols limit ∅ style v (some [])

end Printer

end HeapLisp
