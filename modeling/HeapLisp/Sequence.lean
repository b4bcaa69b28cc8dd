import HeapLisp.Bytes
import Std.Data.TreeSet.Lemmas

namespace HeapLisp.Sequence

variable {α : Type}

def elem? (xs : Array α) (i : Nat) : Option α := xs[i]?

/-- The part from `s` up to but not including `e`; refused unless `s ≤ e` and `e` is at most the
length. -/
def slice? (xs : Array α) (s e : Nat) : Option (Array α) :=
  if s ≤ e ∧ e ≤ xs.size then some (xs.extract s e) else none

def cat (parts : List (Array α)) : Array α :=
  parts.foldl (· ++ ·) (.emptyWithCapacity (parts.foldl (· + ·.size) 0))

/-- A bound as iteration takes it: a negative one counts back from one past the end, so -1 names the
length. -/
def resolve (length : Nat) (n : Int) : Int := if n < 0 then length + n + 1 else n

def within? (last : Nat) (n : Int) : Option Nat := if 0 ≤ n ∧ n ≤ last then some n.toNat else none

def index? (length : Nat) (n : Int) : Option Nat :=
  if 0 ≤ n ∧ n < length then some n.toNat else none

theorem le_of_within? {last i : Nat} {n : Int} (h : within? last n = some i) : i ≤ last := by
  grind [within?]

theorem lt_of_index? {length i : Nat} {n : Int} (h : index? length n = some i) : i < length := by
  grind [index?]

/-- The indices visited between two bounds: upwards from the first, or downwards to the second. -/
def sweep (start finish : Nat) : List Nat :=
  if start ≤ finish then List.range' start (finish - start)
    else (List.range' finish (start - finish)).reverse

/-- Adds the members of a list whose keys are in `wanted`, each once. -/
def addWanted (key : α → Nat) (target : Array α) (wanted : Std.TreeSet Nat) : List α → Array α
  | [] => target
  | x :: rest =>
    if wanted.contains (key x) then addWanted key (target.push x) (wanted.erase (key x)) rest
    else addWanted key target wanted rest

/-- The keys of `source` that no element of `target` has. -/
def missingKeys (key : α → Nat) (target : Array α) (source : List α) : Std.TreeSet Nat :=
  target.foldl (fun wanted x => if wanted.contains (key x) then wanted.erase (key x) else wanted)
    (Std.TreeSet.ofList (source.map key))

/-- Adds to `target` the members of `source` that it does not have yet; the key of an element tells
it from all others. -/
def merge (key : α → Nat) (target : Array α) (source : List α) : Array α :=
  addWanted key target (missingKeys key target source) source

def swap (xs : Array α) (i j : Nat) : Array α := xs.swapIfInBounds i j

theorem contains_missingKeys (key : α → Nat) (target : Array α) (source : List α) (k : Nat) :
    (missingKeys key target source).contains k = true ↔ (∃ x ∈ source, key x = k) ∧
    ∀ x ∈ target, key x ≠ k := by
  have erased (xs : List α) (wanted : Std.TreeSet Nat) :
      (xs.foldl (fun wanted x => if wanted.contains (key x) then wanted.erase (key x) else wanted)
        wanted).contains k =
        true ↔ wanted.contains k = true ∧ ∀ x ∈ xs, key x ≠ k := by
    induction xs generalizing wanted with
    | nil => simp
    | cons x xs ih =>
      simp only [List.foldl_cons, ih, List.mem_cons]
      split
      · simp only [Std.TreeSet.contains_erase, Bool.and_eq_true, bne_iff_ne, ne_eq,
          Std.LawfulEqCmp.compare_eq_iff_eq]
        grind
      · grind
  rw [missingKeys, ← Array.foldl_toList, erased]
  simp [Std.TreeSet.contains_ofList]

theorem addWanted_eq [BEq α] [LawfulBEq α] {key : α → Nat} (hkey : ∀ x y, key x = key y → x = y)
    (source : List α) (target : Array α) (wanted : Std.TreeSet Nat)
    (h : ∀ x ∈ source, wanted.contains (key x) = !target.contains x) :
    addWanted key target wanted source =
      source.foldl (fun target x => if target.contains x then target else target.push x)
        target := by
  induction source generalizing target wanted with
  | nil => rfl
  | cons x rest ih =>
    have hx := h x (by simp)
    rw [addWanted, List.foldl_cons]
    cases hc : target.contains x
    · rw [hc] at hx
      rw [if_pos (by simpa using hx), if_neg (by simp)]
      apply ih
      intro y hy
      have := h y (by simp [hy])
      rw [Std.TreeSet.contains_erase]
      grind
    · rw [hc] at hx
      rw [if_neg (by simp [hx]), if_pos rfl]
      exact ih _ _ fun y hy => h y (by simp [hy])

theorem merge_eq [BEq α] [LawfulBEq α] {key : α → Nat} (hkey : ∀ x y, key x = key y → x = y)
    (target : Array α) (source : List α) :
    merge key target source =
      source.foldl (fun target x => if target.contains x then target else target.push x)
        target := by
  apply addWanted_eq hkey
  intro x hx
  rw [Bool.eq_iff_iff, contains_missingKeys]
  grind

end HeapLisp.Sequence
