import HeapLisp.Object

namespace HeapLisp.Store

/-- The copies made so far, by the slot of the list. -/
abbrev Copies := Std.TreeMap Nat Addr

/-- Whether a value needs no copy of its own any more: no list, or a list that has a copy. -/
def isCopied (st : Store Object) (copies : Copies) : Value → Bool
  | .ref a =>
    copies.contains a.index ||
      match st.get? a with
      | some (.list _) | none => false
      | some _ => true
  | _ => true

/-- Makes an empty list for every list that can be reached from `pending`, one a step; `none` at a
dead address. -/
def makeCopies : (steps : Nat) → (pending : List Value) → Copies → Store Object →
    Option (Copies × Store Object)
  | 0, _, copies, st => some (copies, st)
  | steps + 1, pending, copies, st =>
    match pending.dropWhile (isCopied st copies) with
    | [] => some (copies, st)
    | v :: rest =>
      match v.addr? with
      | none => none
      | some a =>
        match st.get? a with
        | some (.list items) =>
          makeCopies steps (items.toList.reverse ++ rest) (copies.insert a.index st.next)
            (st.insert (.list #[]))
        | _ => none

def redirect (copies : Copies) : Value → Value
  | .ref a => .ref (copies[a.index]?.getD a)
  | v => v

def fillCopy (copies : Copies) (st : Store Object) (pair : Nat × Addr) : Store Object :=
  match st.get? ⟨pair.1⟩ with
  | some (.list items) => st.set pair.2 (.list (items.map (redirect copies)))
  | _ => st

def deepCopy (st : Store Object) (v : Value) : Option (Value × Store Object) :=
  match makeCopies st.capacity [v] ∅ st with
  | none => none
  | some (copies, st) => some (redirect copies v, copies.toList.foldl (fillCopy copies) st)

end HeapLisp.Store
