namespace HeapLisp

def binBits : Nat := 8

/-- Slots are made in bins of this many. -/
def binSize : Nat := 1 <<< binBits

/-- The number of a slot: its bin, with the place in the bin in the lowest bits. -/
structure Addr where
  index : Nat
deriving DecidableEq, Repr

namespace Addr

def ofPosition (bin offset : Nat) : Addr := ⟨bin <<< binBits ||| offset⟩

def bin (a : Addr) : Nat := a.index >>> binBits

def offset (a : Addr) : Nat := a.index &&& (binSize - 1)

end Addr

/-- A slot is empty or holds an item; its mark tells whether the last collection met it. -/
structure Slot (α : Type) where
  mark : Bool
  item : Option α

/-- The slots made in a bin so far. -/
structure Bin (α : Type) where
  slots : Array (Slot α)

namespace Bin

variable {α : Type}

def empty : Bin α := ⟨#[]⟩

def hasSpace (bin : Bin α) : Bool := bin.slots.size < binSize

def insert (bin : Bin α) (slot : Slot α) : Bin α := ⟨bin.slots.push slot⟩

end Bin

/-- Bins of slots, the empty slots among them in the order they are reused, the mark of the last
collection, and the number of insertions since then. -/
structure Store (α : Type) where
  bins : Array (Bin α)
  free : List Addr
  mark : Bool
  pending : Nat

namespace Store

variable {α : Type}

def empty : Store α := ⟨#[], [], false, 0⟩

def slotAt? (bins : Array (Bin α)) (a : Addr) : Option (Slot α) :=
  match bins[a.bin]? with
  | some bin => bin.slots[a.offset]?
  | none => none

def modifySlot (bins : Array (Bin α)) (a : Addr) (f : Slot α → Slot α) : Array (Bin α) :=
  bins.modify a.bin fun bin => ⟨bin.slots.modify a.offset f⟩

/-- The bins with another one behind them, unless the last has space. -/
def makeSpace (bins : Array (Bin α)) : Array (Bin α) :=
  if bins.back?.any Bin.hasSpace then bins else bins.push .empty

/-- The number of slots that the bins have room for. -/
def capacity (st : Store α) : Nat := st.bins.size * binSize

def get? (st : Store α) (a : Addr) : Option α :=
  match slotAt? st.bins a with
  | some slot => slot.item
  | none => none

def contains (st : Store α) (a : Addr) : Bool := (st.get? a).isSome

/-- The address that the next insertion takes: the slot freed last, or a new one in the last bin. -/
def next (st : Store α) : Addr :=
  match st.free with
  | a :: _ => a
  | [] =>
    let bins := makeSpace st.bins
    .ofPosition (bins.size - 1) ((bins.back?.map (·.slots.size)).getD 0)

def insert (st : Store α) (x : α) : Store α :=
  let slot : Slot α := ⟨st.mark, some x⟩
  match st.free with
  | a :: free =>
    { st with bins := modifySlot st.bins a fun _ => slot, free := free, pending := st.pending + 1 }
  | [] =>
    let bins := makeSpace st.bins
    { st with bins := bins.modify (bins.size - 1) (·.insert slot), pending := st.pending + 1 }

/-- Changes the item at a live address; a dead address stays dead. -/
def modify (st : Store α) (a : Addr) (f : α → α) : Store α :=
  { st with bins := modifySlot st.bins a fun slot => { slot with item := slot.item.map f } }

def set (st : Store α) (a : Addr) (x : α) : Store α := st.modify a fun _ => x

/-- Counts of bins, of bins without space, of items, of empty slots, and of slots in all bins. -/
structure Stats where
  totalBins : Nat
  fullBins : Nat
  totalValues : Nat
  freeSlots : Nat
  capacity : Nat
deriving DecidableEq, Repr

def stats (st : Store α) : Stats :=
  { totalBins := st.bins.size
    fullBins := st.bins.countP (!·.hasSpace)
    totalValues := st.bins.foldl (fun n bin => n + bin.slots.countP (·.item.isSome)) 0
    freeSlots := st.free.length
    capacity := st.capacity }

end Store

end HeapLisp
