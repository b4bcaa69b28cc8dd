import HeapLisp.Store.Basic

namespace HeapLisp.Store

variable {α : Type}

/-- Whether marking has nothing to do at `a`: the slot has the mark already, or there is none. -/
def settled (bins : Array (Bin α)) (mark : Bool) (a : Addr) : Bool :=
  match slotAt? bins a with
  | some slot => slot.mark == mark
  | none => true

def childrenAt (children : α → List Addr) (bins : Array (Bin α)) (a : Addr) : List Addr :=
  match slotAt? bins a with
  | some slot => (slot.item.map children).getD []
  | none => []

def setMark (mark : Bool) (bins : Array (Bin α)) (a : Addr) : Array (Bin α) :=
  modifySlot bins a fun slot => { slot with mark := mark }

/-- Marks what is reachable from `pending`, one slot a step, in at most `steps` steps. -/
def markFrom (children : α → List Addr) (mark : Bool) :
    (steps : Nat) → (pending : List Addr) → (bins : Array (Bin α)) → Array (Bin α)
  | 0, _, bins => bins
  | steps + 1, pending, bins =>
    match pending.dropWhile (settled bins mark) with
    | [] => bins
    | a :: rest =>
      markFrom children mark steps (childrenAt children bins a ++ rest) (setMark mark bins a)

/-- Whether a slot holds an item that the marking did not meet. -/
def isGarbage (mark : Bool) (slot : Slot α) : Bool := slot.item.isSome && slot.mark != mark

def sweepSlot (mark : Bool) (slot : Slot α) : Slot α :=
  if isGarbage mark slot then { slot with item := none } else slot

def sweepBin (mark : Bool) (bin : Bin α) : Bin α := ⟨bin.slots.map (sweepSlot mark)⟩

/-- The addresses of garbage in bin `b`, the last slot first, before those `found` already. -/
def garbageIn (mark : Bool) (b : Nat) (bin : Bin α) (found : List Addr) : List Addr :=
  (bin.slots.foldl (fun (o, found) slot =>
    (o + 1, if isGarbage mark slot then .ofPosition b o :: found else found)) (0, found)).2

def garbage (mark : Bool) (bins : Array (Bin α)) : List Addr :=
  (bins.foldl (fun (b, found) bin => (b + 1, garbageIn mark b bin found)) (0, [])).2

/-- Empties every slot that cannot be reached from `roots`; the second part is the number of slots
emptied. The meaning of the mark alternates from one collection to the next, so that no pass has to
clear it. -/
def collect (children : α → List Addr) (roots : List Addr) (st : Store α) : Store α × Nat :=
  let mark := !st.mark
  let bins := markFrom children mark st.capacity roots st.bins
  let freed := garbage mark bins
  (⟨bins.map (sweepBin mark), freed ++ st.free, mark, 0⟩, freed.length)

end HeapLisp.Store
