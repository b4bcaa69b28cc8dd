import HeapLisp.Proofs.Store.Slots
import HeapLisp.Store.Collect
import Mathlib.Data.Finset.Card
import Mathlib.Data.Finset.Filter
import Mathlib.Data.Finset.Range
import Mathlib.Data.List.TakeWhile
import Mathlib.Logic.Relation
import Mathlib.Order.WellFounded

namespace HeapLisp.Store

variable {α : Type}

/-- The addresses of items that can be reached from `roots` through items. -/
inductive Reachable (children : α → List Addr) (st : Store α) (roots : List Addr) :
    Addr → Prop where
  | root {a : Addr} {x : α} (hr : a ∈ roots) (hx : st.get? a = some x) :
    Reachable children st roots a
  | child {a c : Addr} {x y : α} (ha : Reachable children st roots a) (hx : st.get? a = some x)
    (hc : c ∈ children x) (hy : st.get? c = some y) : Reachable children st roots c

/-- A marking under way: the addresses still to be looked at, and the bins. -/
structure Marking (α : Type) where
  pending : List Addr
  bins : Array (Bin α)

/-- One step of marking takes any one of the addresses still to be looked at. -/
inductive MarkStep (children : α → List Addr) (mark : Bool) : Marking α → Marking α → Prop where
  | skip {pending rest : List Addr} {bins : Array (Bin α)} {a : Addr}
    (taken : pending.Perm (a :: rest))
    (h : settled bins mark a = true) : MarkStep children mark ⟨pending, bins⟩ ⟨rest, bins⟩
  | visit {pending rest : List Addr} {bins : Array (Bin α)} {a : Addr}
    (taken : pending.Perm (a :: rest))
    (h : settled bins mark a = false) :
    MarkStep children mark ⟨pending, bins⟩ ⟨childrenAt children bins a ++ rest, setMark mark bins a⟩

theorem slotAt?_setMark (mark : Bool) (bins : Array (Bin α)) (a b : Addr) :
    slotAt? (setMark mark bins a) b =
      if b = a then (slotAt? bins b).map (fun slot => { slot with mark := mark })
      else slotAt? bins b :=
  slotAt?_modifySlot bins a b _

theorem settled_setMark (mark : Bool) (bins : Array (Bin α)) (a b : Addr) :
    settled (setMark mark bins a) mark b = true ↔ b = a ∨ settled bins mark b = true := by
  unfold settled
  rw [slotAt?_setMark]
  by_cases h : b = a
  · rw [if_pos h]
    cases slotAt? bins b <;> simp [h]
  · rw [if_neg h]
    simp [h]

theorem item_setMark (mark : Bool) (bins : Array (Bin α)) (a b : Addr) :
    (slotAt? (setMark mark bins a) b).map Slot.item = (slotAt? bins b).map Slot.item := by
  rw [slotAt?_setMark]
  split_ifs
  · cases slotAt? bins b <;> rfl
  · rfl

/-- The bins that have no mark yet. -/
def unsettled (mark : Bool) (bins : Array (Bin α)) : Finset Nat :=
  (Finset.range (bins.size * binSize)).filter fun i => settled bins mark ⟨i⟩ = false

theorem mem_unsettled {mark : Bool} {bins : Array (Bin α)} {a : Addr} :
    a.index ∈ unsettled mark bins ↔ settled bins mark a = false := by
  simp only [unsettled, Finset.mem_filter, Finset.mem_range]
  refine ⟨fun h => h.2, fun h => ⟨?_, h⟩⟩
  unfold settled at h
  split at h
  · exact index_lt_of_slotAt? ‹_›
  · cases h

theorem unsettled_setMark (mark : Bool) (bins : Array (Bin α)) (a : Addr) :
    unsettled mark (setMark mark bins a) = (unsettled mark bins).erase a.index := by
  ext i
  have h := settled_setMark mark bins a ⟨i⟩
  rw [Finset.mem_erase, mem_unsettled (a := ⟨i⟩), mem_unsettled (a := ⟨i⟩),
    ← Bool.not_eq_true, h, not_or, Bool.not_eq_true, Addr.eq_iff]

theorem card_unsettled_setMark {mark : Bool} {bins : Array (Bin α)} {a : Addr}
    (h : settled bins mark a = false) :
    (unsettled mark (setMark mark bins a)).card < (unsettled mark bins).card := by
  rw [unsettled_setMark]
  exact Finset.card_erase_lt_of_mem (mem_unsettled.mpr h)

theorem card_unsettled_le (mark : Bool) (bins : Array (Bin α)) :
    (unsettled mark bins).card ≤ bins.size * binSize := by
  have h := Finset.card_filter_le (Finset.range (bins.size * binSize))
    fun i => settled bins mark ⟨i⟩ = false
  rwa [Finset.card_range] at h

/-- A step settles a slot or leaves fewer addresses to look at. -/
theorem markStep_decreases {children : α → List Addr} {mark : Bool} {m n : Marking α}
    (h : MarkStep children mark m n) :
    Prod.Lex (· < ·) (· < ·) ((unsettled mark n.bins).card, n.pending.length)
      ((unsettled mark m.bins).card, m.pending.length) := by
  cases h with
  | skip taken _ =>
    have hl := taken.length_eq
    exact Prod.Lex.right _ (by simp only [hl, List.length_cons]; omega)
  | visit _ h => exact Prod.Lex.left _ _ (card_unsettled_setMark h)

/-- Marking ends, whichever address each step takes. -/
theorem wellFounded_markStep (children : α → List Addr) (mark : Bool) :
    WellFounded fun n m => MarkStep children mark m n := by
  have hw : WellFounded (Prod.Lex (· < ·) (· < ·) : Nat × Nat → Nat × Nat → Prop) :=
    (Prod.lex _ _).wf
  exact Subrelation.wf markStep_decreases
    (InvImage.wf (fun m : Marking α => ((unsettled mark m.bins).card, m.pending.length)) hw)

theorem markSteps_dropWhile (children : α → List Addr) (mark : Bool) (pending : List Addr)
    (bins : Array (Bin α)) :
    Relation.ReflTransGen (MarkStep children mark) ⟨pending, bins⟩
      ⟨pending.dropWhile (settled bins mark), bins⟩ := by
  induction pending with
  | nil => exact .refl
  | cons a rest ih =>
    cases h : settled bins mark a with
    | true =>
      rw [List.dropWhile_cons_of_pos h]
      exact .head (.skip (.refl _) h) ih
    | false =>
      rw [List.dropWhile_cons_of_neg (by simp [h])]

/-- The bounded marking is a run to its end if every slot without the mark has a step. -/
theorem markSteps_markFrom (children : α → List Addr) (mark : Bool) (steps : Nat)
    (pending : List Addr) (bins : Array (Bin α)) (h : (unsettled mark bins).card ≤ steps) :
    Relation.ReflTransGen (MarkStep children mark) ⟨pending, bins⟩
      ⟨[], markFrom children mark steps pending bins⟩ := by
  induction steps generalizing pending bins with
  | zero =>
    have hs (a : Addr) : settled bins mark a = true := by
      by_contra hn
      have hm := mem_unsettled.mpr (Bool.eq_false_iff.mpr hn)
      rw [Finset.card_eq_zero.mp (Nat.le_zero.mp h)] at hm
      exact absurd hm (Finset.notMem_empty _)
    have hd := markSteps_dropWhile children mark pending bins
    rwa [List.dropWhile_eq_nil_iff.mpr fun a _ => hs a] at hd
  | succ steps ih =>
    have hd := markSteps_dropWhile children mark pending bins
    rw [markFrom]
    cases hp : pending.dropWhile (settled bins mark) with
    | nil => rwa [hp] at hd
    | cons a rest =>
      have ha : settled bins mark a = false := by
        have hne : pending.dropWhile (settled bins mark) ≠ [] := by simp [hp]
        have hh := List.head_dropWhile_not (settled bins mark) hne
        simpa only [hp, List.head_cons] using hh
      rw [hp] at hd
      have hc := card_unsettled_setMark ha
      exact hd.trans (.head (.visit (.refl _) ha) (ih _ _ (by omega)))

/-- What holds all along a marking: items stay, what is marked or still to be looked at can be
reached, and the roots and whatever a marked item refers to are marked or still to be looked at. -/
structure MarkInvariant (children : α → List Addr) (st : Store α) (roots : List Addr) (mark : Bool)
    (m : Marking α) :
    Prop where
  item_eq : ∀ a, (slotAt? m.bins a).map Slot.item = (slotAt? st.bins a).map Slot.item
  marked : ∀ a x, st.get? a = some x → settled m.bins mark a = true → Reachable children st roots a
  pending : ∀ a ∈ m.pending, ∀ x, st.get? a = some x → Reachable children st roots a
  root_met : ∀ a ∈ roots, a ∈ m.pending ∨ settled m.bins mark a = true
  child_met : ∀ a x, st.get? a = some x → settled m.bins mark a = true → ∀ c ∈ children x,
    c ∈ m.pending ∨ settled m.bins mark c = true

namespace MarkInvariant

variable {children : α → List Addr} {st : Store α} {roots : List Addr} {mark : Bool}
  {m n : Marking α}

/-- At the start no item has the new mark. -/
theorem start (h : st.WellFormed) :
    MarkInvariant children st roots (!st.mark) ⟨roots, st.bins⟩ := by
  have hn (a : Addr) (x : α) (hx : st.get? a = some x) : settled st.bins (!st.mark) a ≠ true := by
    rw [get?_eq_bind] at hx
    obtain ⟨slot, hs, hi⟩ := Option.bind_eq_some_iff.mp hx
    have hm := h.mark_eq a slot hs (by simp [hi])
    simp [settled, hs, hm]
  exact {
    item_eq := fun _ => rfl
    marked := fun a x hx hs => absurd hs (hn a x hx)
    pending := fun a ha x hx => .root ha hx
    root_met := fun a ha => .inl ha
    child_met := fun a x hx hs => absurd hs (hn a x hx) }

theorem get?_eq (h : MarkInvariant children st roots mark m) (a : Addr) :
    st.get? a = (slotAt? m.bins a).bind Slot.item := by
  have hi := h.item_eq a
  rw [get?_eq_bind]
  cases hm : slotAt? m.bins a <;> cases hs : slotAt? st.bins a <;> simp_all

theorem childrenAt_eq (h : MarkInvariant children st roots mark m) (a : Addr) :
    childrenAt children m.bins a = ((st.get? a).map children).getD [] := by
  rw [h.get?_eq a, childrenAt]
  cases slotAt? m.bins a <;> rfl

theorem skip {pending rest : List Addr} {bins : Array (Bin α)} {a : Addr}
    (h : MarkInvariant children st roots mark ⟨pending, bins⟩) (taken : pending.Perm (a :: rest))
    (ha : settled bins mark a = true) : MarkInvariant children st roots mark ⟨rest, bins⟩ := by
  have met (b : Addr) (hb : b ∈ pending ∨ settled bins mark b = true) :
      b ∈ rest ∨ settled bins mark b = true := by
    rcases hb with hb | hb
    · rcases List.mem_cons.mp (taken.mem_iff.mp hb) with rfl | hb
      · exact .inr ha
      · exact .inl hb
    · exact .inr hb
  exact {
    item_eq := h.item_eq
    marked := h.marked
    pending := fun b hb => h.pending b (taken.mem_iff.mpr (List.mem_cons_of_mem _ hb))
    root_met := fun b hb => met b (h.root_met b hb)
    child_met := fun b x hx hs c hc => met c (h.child_met b x hx hs c hc) }

theorem visit {pending rest : List Addr} {bins : Array (Bin α)} {a : Addr}
    (h : MarkInvariant children st roots mark ⟨pending, bins⟩) (taken : pending.Perm (a :: rest)) :
    MarkInvariant children st roots mark ⟨childrenAt children bins a ++ rest,
      setMark mark bins a⟩ := by
  have hch : childrenAt children bins a = ((st.get? a).map children).getD [] := h.childrenAt_eq a
  have hreach (x : α) (hx : st.get? a = some x) : Reachable children st roots a :=
    h.pending a (taken.mem_iff.mpr (by simp)) x hx
  have met (b : Addr) (hb : b ∈ pending ∨ settled bins mark b = true) :
      b ∈ childrenAt children bins a ++ rest ∨ settled (setMark mark bins a) mark b = true := by
    rw [settled_setMark, List.mem_append]
    rcases hb with hb | hb
    · rcases List.mem_cons.mp (taken.mem_iff.mp hb) with rfl | hb
      · exact .inr (.inl rfl)
      · exact .inl (.inr hb)
    · exact .inr (.inr hb)
  refine ⟨fun b => (item_setMark mark bins a b).trans (h.item_eq b), ?_, ?_, fun b hb =>
    met b (h.root_met b hb), ?_⟩
  · intro b x hx hs
    rcases (settled_setMark mark bins a b).mp hs with rfl | hs
    · exact hreach x hx
    · exact h.marked b x hx hs
  · intro b hb y hy
    rcases List.mem_append.mp hb with hb | hb
    · rw [hch] at hb
      cases hx : st.get? a with
      | none => simp [hx] at hb
      | some x =>
        rw [hx] at hb
        exact .child (hreach x hx) hx hb hy
    · exact h.pending b (taken.mem_iff.mpr (List.mem_cons_of_mem _ hb)) y hy
  · intro b x hx hs c hc
    rcases (settled_setMark mark bins a b).mp hs with rfl | hs
    · refine .inl (List.mem_append.mpr (.inl ?_))
      rw [hch, hx]
      exact hc
    · exact met c (h.child_met b x hx hs c hc)

theorem step (h : MarkInvariant children st roots mark m) (hstep : MarkStep children mark m n) :
    MarkInvariant children st roots mark n := by
  cases hstep with
  | skip taken ha => exact h.skip taken ha
  | visit taken _ => exact h.visit taken

theorem run (h : MarkInvariant children st roots mark m)
    (hrun : Relation.ReflTransGen (MarkStep children mark) m n) :
    MarkInvariant children st roots mark n := by
  induction hrun with
  | refl => exact h
  | tail _ hstep ih => exact ih.step hstep

/-- When nothing is left to look at, the marked items are the reachable ones. -/
theorem settled_iff {bins : Array (Bin α)} (h : MarkInvariant children st roots mark ⟨[], bins⟩)
    {a : Addr} {x : α} (hx : st.get? a = some x) :
    settled bins mark a = true ↔ Reachable children st roots a := by
  refine ⟨h.marked a x hx, fun hr => ?_⟩
  clear hx
  induction hr with
  | root hr _ => exact (h.root_met _ hr).resolve_left List.not_mem_nil
  | child _ hx hc _ ih => exact (h.child_met _ _ hx ih _ hc).resolve_left List.not_mem_nil

end MarkInvariant

end HeapLisp.Store
