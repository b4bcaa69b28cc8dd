import HeapLisp.Value
import Mathlib.Data.List.Basic

namespace HeapLisp

/-- A parameter: a name, or a list of parameters, which takes a list apart. The markers are names
too. -/
inductive Param where
  | name (x : Symbol)
  | list (params : List Param)

namespace Param

def isRest : Param → Bool
  | name x => x == .rest
  | list _ => false

def isOptional : Param → Bool
  | name x => x == .optional
  | list _ => false

/-- The parameters before the first `&rest`, without the markers: each gets one value. -/
def positional (ps : List Param) : List Param := (ps.takeWhile (!·.isRest)).filter (!·.isOptional)

/-- The number of parameters before the first marker: each needs an argument. -/
def required (ps : List Param) : Nat :=
  ((ps.takeWhile (!·.isRest)).takeWhile (!·.isOptional)).length

def hasRest (ps : List Param) : Bool := ps.any isRest

/-- The parameter after the first `&rest`. -/
def restName? (ps : List Param) : Option Param := (ps.dropWhile (!·.isRest)).tail.head?

/-- There are enough arguments, and no more than there are parameters for. -/
structure CountFits (ps : List Param) (count : Nat) : Prop where
  enough : required ps ≤ count
  notMore : hasRest ps = false → count ≤ (positional ps).length

/-- The parameters that get one value each, with these values: an argument, or `nil` where there is
none left. -/
def assigned (ps : List Param) (args : List Value) : List (Param × Value) :=
  (positional ps).mapIdx fun i p => (p, args[i]?.getD .nil)

/-- The arguments beyond those that parameters get one by one. -/
def remaining (ps : List Param) (args : List Value) : List Value := args.drop (positional ps).length

/-- What is left to do once the arguments are shared out. -/
inductive Remainder where
  | none
  | rest (p : Param) (vs : List Value)
  | unnamed
  | wrongCount

/-- What the parameters after `&rest` leave to do with the arguments left. -/
def Remainder.after (name? : Option Param) (left : List Value) : Remainder :=
  match name? with
  | some q => .rest q left
  | .none => .unnamed

def remainder (ps : List Param) (args : List Value) : Remainder :=
  if hasRest ps then .after (restName? ps) (remaining ps args) else .none

/-- Shares out the arguments left, one after the other. -/
def deal : (ps : List Param) → (left : List Value) → (optional : Bool) →
    List (Param × Value) × Remainder
  | [], left, _ => ([], if left.isEmpty then .none else .wrongCount)
  | p :: ps, left, optional =>
    if p.isRest then ([], .after ps.head? left)
    else if p.isOptional then deal ps left true
    else if left.isEmpty && !optional then ([], .wrongCount)
    else ((p, left.head?.getD .nil) :: (deal ps left.tail optional).1,
      (deal ps left.tail optional).2)

variable {p : Param} {ps : List Param} {left : List Value} {optional : Bool}

theorem positional_cons (p : Param) (ps : List Param) :
    positional (p :: ps) = if p.isRest then [] else if p.isOptional then positional ps
      else p :: positional ps := by
  cases hrest : p.isRest <;> cases hopt : p.isOptional <;> simp [positional, hrest, hopt]

theorem required_cons (p : Param) (ps : List Param) :
    required (p :: ps) = if p.isRest then 0 else if p.isOptional then 0 else required ps + 1 := by
  cases hrest : p.isRest <;> cases hopt : p.isOptional <;> simp [required, hrest, hopt]

theorem hasRest_cons (p : Param) (ps : List Param) : hasRest (p :: ps) = (p.isRest || hasRest ps) :=
  rfl

theorem restName?_cons (p : Param) (ps : List Param) :
    restName? (p :: ps) = if p.isRest then ps.head? else restName? ps := by
  cases hrest : p.isRest <;> simp [restName?, hrest]

/-- A marker changes what follows it, and any other parameter takes the next value. -/
theorem assigned_cons (p : Param) (ps : List Param) (args : List Value) :
    assigned (p :: ps) args = if p.isRest then [] else if p.isOptional then assigned ps args
      else (p, args.head?.getD .nil) :: assigned ps args.tail := by
  rw [assigned, positional_cons]
  split_ifs
  · rfl
  · rfl
  · cases args <;> simp [assigned, List.mapIdx_cons]

theorem remainder_cons (p : Param) (ps : List Param) (args : List Value) :
    remainder (p :: ps) args = if p.isRest then .after ps.head? args else if p.isOptional
      then remainder ps args
      else remainder ps args.tail := by
  rw [remainder, remaining, hasRest_cons, restName?_cons, positional_cons]
  split_ifs <;> simp_all [remainder, remaining]

theorem remainder_ne_wrongCount (ps : List Param) (args : List Value) :
    remainder ps args ≠ .wrongCount := by
  unfold remainder Remainder.after
  split_ifs
  · cases restName? ps <;> simp
  · simp

/-- What is shared out are the parameters and the arguments left, and `nil`. -/
theorem forall_deal {P : Param → Prop} {Q : Value → Prop} (hP : ∀ p ∈ ps, P p)
    (hQ : ∀ v ∈ left, Q v) (hnil : Q .nil) (optional : Bool) :
    (∀ p v, (p, v) ∈ (deal ps left optional).1 → P p ∧ Q v) ∧
      ∀ p vs, (deal ps left optional).2 = .rest p vs → P p ∧ ∀ v ∈ vs, Q v := by
  induction ps generalizing left optional with
  | nil =>
    rw [deal]
    split_ifs <;> simp
  | cons p ps ih =>
    have hPs : ∀ q ∈ ps, P q := fun q hq => hP q (.tail _ hq)
    rw [deal]
    split_ifs with hrest hopt hempty
    · cases ps with
      | nil => simp [Remainder.after]
      | cons q ps =>
        refine ⟨by simp, ?_⟩
        rintro _ _ ⟨⟩
        exact ⟨hPs q (.head _), hQ⟩
    · exact ih hPs hQ true
    · simp
    · have htail : ∀ v ∈ left.tail, Q v := fun v hv => hQ v (List.mem_of_mem_tail hv)
      have hhead : Q (left.head?.getD .nil) := by
        cases left with
        | nil => exact hnil
        | cons v left => exact hQ v (.head _)
      obtain ⟨hnames, hremainder⟩ := ih hPs htail optional
      refine ⟨?_, hremainder⟩
      intro q v hv
      rcases List.mem_cons.mp hv with heq | hv
      · cases heq
        exact ⟨hP p (.head _), hhead⟩
      · exact hnames q v hv

theorem deal_of_fits (henough : optional = false → required ps ≤ left.length)
    (hmore : hasRest ps = false → left.length ≤ (positional ps).length) :
    deal ps left optional = (assigned ps left, remainder ps left) := by
  induction ps generalizing left optional with
  | nil =>
    have hleft : left = [] := by simpa [hasRest, positional] using hmore
    subst hleft
    rfl
  | cons p ps ih =>
    rw [required_cons] at henough
    rw [hasRest_cons, positional_cons] at hmore
    rw [deal, assigned_cons, remainder_cons]
    split_ifs at henough hmore ⊢ with hrest hopt hempty
    · rfl
    · apply ih
      · simp
      · simpa [hrest] using hmore
    · simp_all
    · have hps : deal ps left.tail optional = (assigned ps left.tail, remainder ps left.tail) := by
        apply ih
        · intro hno
          have hlength := henough hno
          rw [List.length_tail]
          omega
        · intro hnone
          have hlength := hmore (by simp [hrest, hnone])
          rw [List.length_cons] at hlength
          rw [List.length_tail]
          omega
      rw [hps]

theorem deal_of_not_fits
    (h : (optional = false ∧ left.length < required ps) ∨
      (hasRest ps = false ∧ (positional ps).length < left.length)) :
    (deal ps left optional).2 = .wrongCount := by
  induction ps generalizing left optional with
  | nil =>
    cases left with
    | nil => simp [required, positional] at h
    | cons v left => rfl
  | cons p ps ih =>
    rw [required_cons, hasRest_cons, positional_cons] at h
    rw [deal]
    split_ifs at h ⊢ with hrest hopt hempty
    · simp [hrest] at h
    · apply ih
      simpa [hrest] using h
    · rfl
    · apply ih
      simp only [Bool.and_eq_true, List.isEmpty_iff, Bool.not_eq_true', not_and] at hempty
      simp only [hrest, Bool.false_or, List.length_cons] at h
      rw [List.length_tail]
      rcases h with ⟨hno, hless⟩ | ⟨hnone, hmore⟩
      · have hleft := List.length_pos_iff.mpr (mt hempty (by simp [hno]))
        exact .inl ⟨hno, by omega⟩
      · exact .inr ⟨hnone, by omega⟩

theorem deal_of_countFits {args : List Value} (h : CountFits ps args.length) :
    deal ps args false = (assigned ps args, remainder ps args) :=
  deal_of_fits (fun _ => h.enough) h.notMore

theorem deal_of_not_countFits {args : List Value} (h : ¬CountFits ps args.length) :
    (deal ps args false).2 = .wrongCount := by
  apply deal_of_not_fits
  by_contra hno
  apply h
  constructor
  · by_contra hless
    exact hno (.inl ⟨rfl, by omega⟩)
  · intro hnone
    by_contra hmore
    exact hno (.inr ⟨hnone, by omega⟩)

end Param

end HeapLisp
