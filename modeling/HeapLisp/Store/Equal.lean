import HeapLisp.Object
import HeapLisp.Text

namespace HeapLisp.Store

def sameText (st : Store Object) (a b : Addr) : Option Bool :=
  match st.get? a, st.get? b with
  | some (.str x), some (.str y) => some (Text.same x y)
  | some _, some _ => some false
  | _, _ => none

def equal (st : Store Object) (v w : Value) : Option Bool :=
  if v = w then some true
  else
    match v, w with
    | .ref a, .ref b => st.sameText a b
    | _, _ => some false

/-- The position of the first item equal to `v`, from position `i` on. -/
def positionFrom (st : Store Object) (v : Value) (items : Array Value) (i : Nat) :
    Option (Option Nat) :=
  if h : i < items.size then
    match st.equal items[i] v with
    | none => none
    | some true => some (some i)
    | some false => positionFrom st v items (i + 1)
  else some none
termination_by items.size - i

/-- The position of the first item equal to `v` in the list at an address; what is no list has no
items. -/
def position (st : Store Object) (v : Value) (a : Addr) : Option (Option Nat) :=
  match st.get? a with
  | some (.list items) => st.positionFrom v items 0
  | some _ => some none
  | none => none

end HeapLisp.Store
