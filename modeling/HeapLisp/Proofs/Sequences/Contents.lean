import HeapLisp.Proofs.Sequences.Elements

namespace HeapLisp

/-- What a sequence holds: the items of a list, or the bytes of a string or a name. -/
inductive Contents where
  | items (values : List Value)
  | bytes (text : Bytes)
deriving DecidableEq, Repr

namespace Contents

variable {c : Contents} {cs : List Contents} {st : Store Object} {m n p q : Nat}

def length : Contents → Nat
  | items values => values.length
  | bytes text => text.length

/-- The part from `m` up to but not including `n`. -/
def part (m n : Nat) : Contents → Contents
  | items values => items (values.extract m n)
  | bytes text => bytes (text.extract m n)

/-- A new object that holds them. -/
def object : Contents → Object
  | items values => .list values.toArray
  | bytes text => .str text.toByteArray

/-- The contents of sequences of one kind, one after the other. -/
inductive Join : List Contents → Contents → Prop where
  | items (parts : List (List Value)) : Join (parts.map items) (.items parts.flatten)
  | bytes (parts : List Bytes) : Join (parts.map bytes) (.bytes parts.flatten)

/-- No item is dangling. -/
def Live (st : Store Object) : Contents → Prop
  | items values => ∀ v ∈ values, v.Live st
  | bytes _ => True

theorem object_bytes (text : ByteArray) : (bytes (Bytes.ofPacked text)).object = .str text := by
  rw [object, Object.str.injEq, ← Bytes.ofPacked_inj, Bytes.ofPacked_toByteArray]

theorem length_part (hn : n ≤ c.length) : (c.part m n).length = n - m := by
  cases c with
  | items values | bytes text =>
    rw [length] at hn
    simp only [part, length, List.extract_eq_take_drop, List.length_take, List.length_drop]
    omega

theorem part_part (h : q ≤ n - m) : (c.part m n).part p q = c.part (m + p) (m + q) := by
  have extract {α : Type} (xs : List α) :
      (xs.extract m n).extract p q = xs.extract (m + p) (m + q) := by
    simp only [List.extract_eq_take_drop, List.drop_take, List.drop_drop, List.take_take]
    congr 1
    omega
  cases c with
  | items values => exact congrArg items (extract values)
  | bytes text => exact congrArg bytes (extract text)

/-- Wherever contents are cut, they are those of the two parts. -/
theorem join_parts (c : Contents) (k : Nat) : Join [c.part 0 k, c.part k c.length] c := by
  have append {α : Type} (xs : List α) : [xs.extract 0 k, xs.extract k xs.length].flatten = xs := by
    simp [List.extract_eq_take_drop, List.take_of_length_le]
  cases c with
  | items values =>
    have hjoin := Join.items [values.extract 0 k, values.extract k values.length]
    rwa [append values] at hjoin
  | bytes text =>
    have hjoin := Join.bytes [text.extract 0 k, text.extract k text.length]
    rwa [append text] at hjoin

/-- Joining some of several contents first makes no difference. -/
theorem Join.group {before after : List Contents} (h : Join (before ++ cs ++ after) c) :
    ∃ d, Join cs d ∧ Join (before ++ d :: after) c := by
  generalize hall : before ++ cs ++ after = all at h
  cases h with
  | items parts =>
    obtain ⟨first, last, rfl, hfirst, rfl⟩ := List.map_eq_append_iff.mp hall.symm
    obtain ⟨first, middle, rfl, rfl, rfl⟩ := List.map_eq_append_iff.mp hfirst
    exact ⟨_, .items middle, by simpa using Join.items (first ++ middle.flatten :: last)⟩
  | bytes parts =>
    obtain ⟨first, last, rfl, hfirst, rfl⟩ := List.map_eq_append_iff.mp hall.symm
    obtain ⟨first, middle, rfl, rfl, rfl⟩ := List.map_eq_append_iff.mp hfirst
    exact ⟨_, .bytes middle, by simpa using Join.bytes (first ++ middle.flatten :: last)⟩

namespace Live

theorem part (h : c.Live st) (m n : Nat) : (c.part m n).Live st := by
  cases c with
  | items values =>
    intro v hv
    rw [List.extract_eq_take_drop] at hv
    exact h v (List.mem_of_mem_drop (List.mem_of_mem_take hv))
  | bytes text => trivial

theorem join (h : Join cs c) (hcs : ∀ d ∈ cs, d.Live st) : c.Live st := by
  cases h with
  | items parts =>
    intro v hv
    obtain ⟨part, hpart, hv⟩ := List.mem_flatten.mp hv
    exact hcs (.items part) (List.mem_map_of_mem hpart) v hv
  | bytes parts => trivial

theorem children (h : c.Live st) : ∀ a ∈ c.object.children, st.contains a = true := by
  intro a ha
  cases c with
  | items values => exact h (.ref a) (Object.mem_children_list.mp ha) a rfl
  | bytes text => cases ha

end Live

end Contents

namespace Interp

variable {s s₁ s' : Interp} {scope a : Addr} {v : Value} {c : Contents} {ref : SeqRef}

/-- The contents of a value, if it is a sequence. -/
def contents? (s : Interp) : Value → Option Contents
  | .sym x => (s.symbols.spelling? x).map fun name => .bytes (Bytes.ofPacked name)
  | .ref a =>
    match s.store.get? a with
    | some (.list items) => some (.items items.toList)
    | some (.str text) => some (.bytes (Bytes.ofPacked text))
    | _ => none
  | .num _ => none

/-- What a sequence holds, by where it is held. -/
inductive Held (s : Interp) : SeqRef → Contents → Prop where
  | list {a : Addr} {items : Array Value} (h : s.store.get? a = some (.list items)) :
    Held s (.list a) (.items items.toList)
  | str {a : Addr} {text : ByteArray} (h : s.store.get? a = some (.str text)) :
    Held s (.str a) (.bytes (Bytes.ofPacked text))
  | name {x : Symbol} {name : ByteArray} (h : s.symbols.spelling? x = some name) :
    Held s (.sym x) (.bytes (Bytes.ofPacked name))

theorem exists_held (h : s.contents? v = some c) : ∃ ref, s.seq? v = some ref ∧ s.Held ref c := by
  cases v with
  | num n => cases h
  | sym x =>
    obtain ⟨name, hx, rfl⟩ := Option.map_eq_some_iff.mp h
    exact ⟨.sym x, by rw [seq?, hx, Option.map_some], .name hx⟩
  | ref a =>
    rw [contents?] at h
    split at h <;> cases h
    · exact ⟨.list a, by rw [seq?, ‹s.store.get? a = _›], .list ‹_›⟩
    · exact ⟨.str a, by rw [seq?, ‹s.store.get? a = _›], .str ‹_›⟩

theorem Held.seqLength_eq (h : s.Held ref c) : s.seqLength ref = c.length := by
  cases h with
  | list h =>
    rw [seqLength, h]
    rfl
  | str h =>
    rw [seqLength, h]
    exact (Text.length_ofPacked _).symm
  | name h =>
    rw [seqLength, h]
    exact (Text.length_ofPacked _).symm

theorem contents?_object (h : s.store.get? a = some c.object) : s.contents? (.ref a) = some c := by
  cases c with
  | items values => rw [contents?, h, Contents.object]
  | bytes text =>
    rw [contents?, h]
    exact congrArg (fun text => some (Contents.bytes text)) (Bytes.ofPacked_toByteArray text)

theorem owns_of_contents? (h : s.contents? v = some c) : s.Owns v := by
  cases v with
  | num n => cases h
  | sym x =>
    obtain ⟨name, hx, _⟩ := Option.map_eq_some_iff.mp h
    exact .sym (Option.isSome_of_eq_some hx)
  | ref a =>
    rw [contents?] at h
    split at h
    · exact .ref ‹_›
    · exact .ref ‹_›
    · cases h

theorem contents_live (hs : s.store.Intact) (h : s.contents? v = some c) : c.Live s.store := by
  obtain ⟨ref, _, hheld⟩ := exists_held h
  cases hheld with
  | list ha => exact fun _ hv => hs.live_item ha hv
  | str | name => trivial

namespace Gains

theorem hasScope (h : s.Gains s') (hs : s.HasScope scope) : s'.HasScope scope := by
  obtain ⟨o, ho⟩ := hs.isScope
  exact ⟨h.intact, o, h.changed ho⟩

theorem contents? (h : s.Gains s') (hv : s.contents? v = some c) : s'.contents? v = some c := by
  cases v with
  | num n => cases hv
  | sym x =>
    rw [h.storeOnly]
    exact hv
  | ref a =>
    cases ha : s.store.get? a with
    | none => simp [Interp.contents?, ha] at hv
    | some o =>
      rw [Interp.contents?, ha] at hv
      rw [Interp.contents?, h.changed ha]
      exact hv

end Gains

end Interp

end HeapLisp
