import HeapLisp.Symbol
import Mathlib.Algebra.Group.Nat.Defs
import Mathlib.Data.Finset.Card
import Mathlib.Data.List.TakeWhile

namespace HeapLisp.SymbolTable

variable {t t₁ t' : SymbolTable} {x : Symbol} {name other : Bytes}

theorem spelling?_isSome_iff : (t.spelling? x).isSome ↔ x.index < t.size := by
  simp [spelling?, size]

theorem spelling?_of_find? (h : t.find? name = some x) : t.spelling? x = some name.toByteArray := by
  rw [find?_eq] at h
  obtain ⟨i, hi, rfl⟩ := Option.map_eq_some_iff.mp h
  obtain ⟨hlt, hname, _⟩ := List.findIdx?_eq_some_iff_getElem.mp hi
  have hget : t.names.toList[i] = name.toByteArray := by
    rw [← Bytes.ofPacked_inj, Bytes.ofPacked_toByteArray]
    exact beq_iff_eq.mp hname
  exact Array.getElem?_eq_some_iff.mpr ⟨hlt, hget⟩

theorem find?_ofPacked {packed : ByteArray} (h : t.spelling? x = some packed) :
    t.find? (Bytes.ofPacked packed) = some x := by
  obtain ⟨hlt, hget⟩ := Array.getElem?_eq_some_iff.mp h
  have hlt' : x.index < t.names.toList.length := hlt
  have hget' : t.names.toList[x.index] = packed := hget
  have hi : t.names.toList.findIdx? (Bytes.ofPacked · == Bytes.ofPacked packed) = some x.index := by
    rw [List.findIdx?_eq_some_iff_getElem]
    refine ⟨hlt', by rw [hget', beq_self_eq_true], fun j hj => ?_⟩
    rw [Bool.not_eq_true, beq_eq_false_iff_ne]
    intro he
    have hjx : t.names.toList[j] = t.names.toList[x.index] := by
      rw [hget', ← Bytes.ofPacked_inj, he]
    exact absurd ((List.Nodup.getElem_inj_iff t.distinct).mp hjx) (Nat.ne_of_lt hj)
  rw [find?_eq, hi]
  rfl

/-- A name has the symbol that has the name. -/
theorem find?_eq_some_iff : t.find? name = some x ↔ t.spelling? x = some name.toByteArray := by
  refine ⟨spelling?_of_find?, fun h => ?_⟩
  rw [← find?_ofPacked h, Bytes.ofPacked_toByteArray]

theorem symbolOf_ofPacked {packed : ByteArray} (h : t.spelling? x = some packed) :
    t.symbolOf (Bytes.ofPacked packed) = x := by
  rw [symbolOf, find?_ofPacked h, Option.getD_some]

theorem symbolOf_of_none (h : t.find? name = none) : t.symbolOf name = ⟨t.size⟩ := by
  rw [symbolOf, h, Option.getD_none]

theorem insert_of_some (h : t.find? name = some x) : t.insert name = t := by
  unfold insert
  split
  · rfl
  · rename_i hnone
    cases hnone.symm.trans h

theorem insert_of_none (h : t.find? name = none) : t.insert name = t.add name h := by
  unfold insert
  split
  · rename_i hsome
    cases h.symm.trans hsome
  · rfl

theorem insert_ofPacked {packed : ByteArray} (h : t.spelling? x = some packed) :
    t.insert (Bytes.ofPacked packed) = t :=
  insert_of_some (find?_ofPacked h)

/-- Interning changes no name. -/
theorem spelling?_insert {packed : ByteArray} (h : t.spelling? x = some packed) (name : Bytes) :
    (t.insert name).spelling? x = some packed := by
  unfold insert
  split
  · exact h
  · obtain ⟨hlt, hget⟩ := Array.getElem?_eq_some_iff.mp h
    exact (Array.getElem?_push_lt hlt).trans (congrArg some hget)

/-- An interned symbol has its name. -/
theorem spelling?_symbolOf (t : SymbolTable) (name : Bytes) :
    (t.insert name).spelling? (t.symbolOf name) = some name.toByteArray := by
  cases hfind : t.find? name with
  | some x =>
    rw [symbolOf, hfind]
    exact spelling?_insert (spelling?_of_find? hfind) name
  | none =>
    rw [symbolOf_of_none hfind, insert_of_none hfind]
    exact Array.getElem?_push_size

/-- No other symbol gets a name. -/
theorem spelling?_insert_of_ne {y : Symbol} (h : y ≠ t.symbolOf name) :
    (t.insert name).spelling? y = t.spelling? y := by
  cases hfind : t.find? name with
  | some x => rw [insert_of_some hfind]
  | none =>
    rw [insert_of_none hfind]
    have hne : y.index ≠ t.names.size := by
      intro he
      rw [symbolOf_of_none hfind] at h
      exact h (congrArg Symbol.mk he)
    exact (Array.getElem?_push).trans (if_neg hne)

theorem size_insert (t : SymbolTable) (name : Bytes) :
    (t.insert name).size = if (t.find? name).isSome then t.size else t.size + 1 := by
  cases hfind : t.find? name with
  | some x => rw [insert_of_some hfind, Option.isSome_some, if_pos rfl]
  | none =>
    rw [insert_of_none hfind, Option.isSome_none, if_neg Bool.false_ne_true]
    exact Array.size_push _

/-- Interning a name adds that name and no other. -/
theorem find?_insert (t : SymbolTable) (name other : Bytes) :
    (t.insert name).find? other = if other = name then some (t.symbolOf name)
      else t.find? other := by
  by_cases he : other = name
  · rw [if_pos he, he, find?_eq_some_iff]
    exact spelling?_symbolOf t name
  · rw [if_neg he]
    cases hfind : t.find? name with
    | some x => rw [insert_of_some hfind]
    | none =>
      have hc : compare name other ≠ .eq := fun hc => he (Std.LawfulEqOrd.eq_of_compare hc).symm
      rw [insert_of_none hfind, find?, add, Std.TreeMap.getElem?_insert, if_neg hc]
      rfl

/-- The second table has the names of the first one, with the same symbols, and maybe more. -/
structure Extends (t t' : SymbolTable) : Prop where
  spelled : ∀ {x packed}, t.spelling? x = some packed → t'.spelling? x = some packed

namespace Extends

theorem refl (t : SymbolTable) : t.Extends t := ⟨id⟩

theorem trans (h : t.Extends t₁) (h' : t₁.Extends t') : t.Extends t' :=
  ⟨fun hx => h'.spelled (h.spelled hx)⟩

theorem insert (t : SymbolTable) (name : Bytes) : t.Extends (t.insert name) :=
  ⟨fun hx => spelling?_insert hx name⟩

theorem internAll (t : SymbolTable) (names : List Bytes) : t.Extends (t.internAll names) := by
  induction names generalizing t with
  | nil => exact .refl t
  | cons name names ih => exact (Extends.insert t name).trans (ih _)

theorem isSome (h : t.Extends t') (hx : (t.spelling? x).isSome) : (t'.spelling? x).isSome := by
  obtain ⟨packed, hx⟩ := Option.isSome_iff_exists.mp hx
  rw [h.spelled hx]
  rfl

theorem find? (h : t.Extends t') (hx : t.find? name = some x) : t'.find? name = some x :=
  find?_eq_some_iff.mpr (h.spelled (find?_eq_some_iff.mp hx))

end Extends

/-- A query to a table: to intern a name, or only to look for it. -/
inductive Query where
  | intern (name : Bytes)
  | find (name : Bytes)

/-- What a query answers, and the table that it leaves. -/
def answer (t : SymbolTable) : Query → Option Symbol × SymbolTable
  | .intern name => (some (t.intern name).1, (t.intern name).2)
  | .find name => (t.find? name, t)

/-- The table after queries to an empty one. -/
def after (queries : List Query) : SymbolTable := queries.foldl (fun t q => (t.answer q).2) empty

/-- The names that queries intern, in order. -/
def interned : List Query → List Bytes
  | [] => []
  | .intern name :: queries => name :: interned queries
  | .find _ :: queries => interned queries

theorem interned_append (queries later : List Query) :
    interned (queries ++ later) = interned queries ++ interned later := by
  induction queries with
  | nil => rfl
  | cons q queries ih => cases q <;> simp [interned, ih]

/-- Only the names that are interned count. -/
theorem after_eq (queries : List Query) : after queries = empty.internAll (interned queries) := by
  have hfrom (t : SymbolTable) : queries.foldl (fun t q => (t.answer q).2) t =
      t.internAll (interned queries) := by
    induction queries generalizing t with
    | nil => rfl
    | cons q queries ih =>
      cases q with
      | intern name => exact ih (t.insert name)
      | find name => exact ih t
  exact hfrom empty

theorem after_extends (queries later : List Query) :
    (after queries).Extends (after (queries ++ later)) := by
  have hmore : after (queries ++ later) = (after queries).internAll (interned later) := by
    rw [after_eq, after_eq, interned_append, internAll, List.foldl_append]
    rfl
  rw [hmore]
  exact .internAll _ _

theorem internAll_concat (t : SymbolTable) (names : List Bytes) (name : Bytes) :
    t.internAll (names ++ [name]) = (t.internAll names).insert name := by
  rw [internAll, List.foldl_append]
  rfl

theorem find?_internAll_isSome (names : List Bytes) (name : Bytes) :
    ((empty.internAll names).find? name).isSome = true ↔ name ∈ names := by
  induction names using List.reverseRecOn with
  | nil => simp [internAll, find?, empty]
  | append_singleton names last ih =>
    rw [internAll_concat, find?_insert, List.mem_append, List.mem_singleton]
    by_cases he : name = last
    · simp [he]
    · simp [he, ih]

theorem find?_internAll (names : List Bytes) (name : Bytes) : (empty.internAll names).find? name =
    if name ∈ names then some ((empty.internAll names).symbolOf name) else none := by
  have hmem := find?_internAll_isSome names name
  unfold symbolOf
  cases hfind : (empty.internAll names).find? name with
  | some x =>
    rw [hfind] at hmem
    rw [if_pos (hmem.mp rfl), Option.getD_some]
  | none =>
    rw [hfind] at hmem
    rw [if_neg fun h => absurd (hmem.mpr h) Bool.false_ne_true]

/-- A table has as many names as there are different ones among those that were interned. -/
theorem size_internAll (names : List Bytes) :
    (empty.internAll names).size = names.toFinset.card := by
  induction names using List.reverseRecOn with
  | nil => rfl
  | append_singleton names last ih =>
    have hset : (names ++ [last]).toFinset = Insert.insert last names.toFinset := by
      ext name
      simp
    rw [internAll_concat, size_insert, hset, ih]
    by_cases hmem : last ∈ names
    · rw [if_pos ((find?_internAll_isSome names last).mpr hmem),
        Finset.insert_eq_of_mem (List.mem_toFinset.mpr hmem)]
    · rw [if_neg (mt (find?_internAll_isSome names last).mp hmem),
        Finset.card_insert_of_notMem (mt List.mem_toFinset.mp hmem)]

/-- A name that has not been interned gets the next number. -/
theorem symbolOf_internAll_of_notMem {names : List Bytes} (h : name ∉ names) :
    (empty.internAll names).symbolOf name = ⟨names.toFinset.card⟩ := by
  have hnone : (empty.internAll names).find? name = none := by
    rw [← Option.not_isSome_iff_eq_none]
    exact mt (find?_internAll_isSome names name).mp h
  rw [symbolOf_of_none hnone, size_internAll]

theorem notMem_takeWhile_ne (names : List Bytes) (name : Bytes) :
    name ∉ names.takeWhile (· ≠ name) := by
  intro hmem
  simpa using List.mem_takeWhile_imp hmem

theorem card_takeWhile_ne_lt (names : List Bytes) (name : Bytes) :
    (names.takeWhile (· ≠ name)).toFinset.card < (names ++ [name]).toFinset.card := by
  apply Finset.card_lt_card
  rw [Finset.ssubset_iff_of_subset]
  · exact ⟨name, by simp, mt List.mem_toFinset.mp (notMem_takeWhile_ne names name)⟩
  · intro other hother
    have hmem := (List.takeWhile_prefix (· ≠ name)).subset (List.mem_toFinset.mp hother)
    exact List.mem_toFinset.mpr (List.mem_append_left [name] hmem)

/-- The number of a name is that of the different names before its first use. -/
theorem symbolOf_internAll (names : List Bytes) (name : Bytes) :
    (empty.internAll names).symbolOf name = ⟨(names.takeWhile (· ≠ name)).toFinset.card⟩ := by
  have hfirst := notMem_takeWhile_ne names name
  have hsplit := List.takeWhile_append_dropWhile (p := (· ≠ name)) (l := names)
  cases hrest : names.dropWhile (· ≠ name) with
  | nil =>
    rw [hrest, List.append_nil] at hsplit
    rw [hsplit] at hfirst ⊢
    exact symbolOf_internAll_of_notMem hfirst
  | cons next rest =>
    have hnext : next = name := by
      have hhead :=
        List.head_dropWhile_not (· ≠ name) (by rw [hrest]; simp : names.dropWhile (· ≠ name) ≠ [])
      simp only [hrest, List.head_cons] at hhead
      simpa using hhead
    -- The name keeps the symbol that it gets at its first use.
    have hfind : ((empty.internAll (names.takeWhile (· ≠ name))).insert name).find? name =
        some ⟨(names.takeWhile (· ≠ name)).toFinset.card⟩ := by
      rw [find?_insert, if_pos rfl, symbolOf_internAll_of_notMem hfirst]
    have hnames :
        empty.internAll names =
            ((empty.internAll (names.takeWhile (· ≠ name))).insert name).internAll rest := by
      conv_lhs => rw [← hsplit, hrest, hnext, internAll, List.foldl_append]
      rfl
    rw [hnames, symbolOf, (Extends.internAll _ rest).find? hfind, Option.getD_some]

/-- Names are numbered in the order of their first use. Whatever was asked of an empty table before,
a name gets the number of different names before its first use, which needs no more than 32 bits for
2^32 names. It gets the same symbol again whatever is asked in between, and no other name does; the
symbol keeps the name. Looking for a name finds its symbol if it was interned, and changes nothing,
and the size of the table is the number of different names. -/
theorem interning_numbers_names (before : List Query) (name : Bytes) :
    let t := after before
    let x := (t.intern name).1
    x.index = ((interned before).takeWhile (· ≠ name)).toFinset.card ∧
    ((interned (before ++ [.intern name])).toFinset.card ≤ 2 ^ 32 → x.index < 2 ^ 32) ∧
    (∀ later other, ((after (before ++ .intern name :: later)).intern other).1 = x ↔ other = name) ∧
    (∀ later, (after (before ++ .intern name :: later)).spelling? x = some name.toByteArray) ∧
    t.find? name = (if name ∈ interned before then some x else none) ∧
    after (before ++ [.find name]) = t ∧
    t.size = (interned before).toFinset.card := by
  intro t x
  have ht : t = empty.internAll (interned before) := after_eq before
  have hx : x = ⟨((interned before).takeWhile (· ≠ name)).toFinset.card⟩ := by
    rw [← symbolOf_internAll, ← ht]
    rfl
  have hfind (later : List Query) : (after (before ++ .intern name :: later)).find? name =
      some x := by
    have hfirst : (after (before ++ [.intern name])).find? name = some x := by
      rw [after, List.foldl_append]
      exact (find?_insert t name name).trans (if_pos rfl)
    rw [← List.singleton_append, ← List.append_assoc]
    exact (after_extends _ later).find? hfirst
  have hspelled (later : List Query) := find?_eq_some_iff.mp (hfind later)
  refine ⟨by rw [hx], ?_, ?_, hspelled, ?_, ?_, ?_⟩
  · intro hcard
    rw [hx]
    rw [interned_append] at hcard
    exact Nat.lt_of_lt_of_le (card_takeWhile_ne_lt (interned before) name) hcard
  · intro later other
    constructor
    · intro hsame
      have hother := spelling?_symbolOf (after (before ++ .intern name :: later)) other
      have hname := (Extends.insert _ other).spelled (hspelled later)
      have hpacked := Option.some.inj (hname.symm.trans ((congrArg _ hsame.symm).trans hother))
      rw [← Bytes.ofPacked_toByteArray other, ← Bytes.ofPacked_toByteArray name, hpacked]
    · rintro rfl
      exact congrArg (Option.getD · _) (hfind later)
  · rw [ht, find?_internAll, ← ht]
    rfl
  · rw [after, List.foldl_append]
    rfl
  · rw [ht, size_internAll]

end HeapLisp.SymbolTable
