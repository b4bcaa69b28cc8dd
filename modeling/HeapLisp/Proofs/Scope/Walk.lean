import HeapLisp.Proofs.Store.Intact
import HeapLisp.Scope.Chain
import Mathlib.Combinatorics.Pigeonhole

namespace HeapLisp.Store

variable {st : Store Object} {s : Symbol} {a b : Addr}

/-- Where the search for a symbol goes on after the scope at `a`, if it does. -/
def outward (st : Store Object) (s : Symbol) (a : Addr) : Option Addr :=
  match st.get? a with
  | some (.scope scope) => if (scope.bindings.get? s).isSome then none else scope.parent
  | _ => none

/-- The scope that the search is at after some steps. -/
def walk (st : Store Object) (s : Symbol) : (steps : Nat) → Addr → Option Addr
  | 0, a => some a
  | steps + 1, a => (st.outward s a).bind (walk st s steps)

theorem walk_add (m n : Nat) (a : Addr) :
    st.walk s (m + n) a = (st.walk s m a).bind (st.walk s n) := by
  induction m generalizing a with
  | zero => rw [Nat.zero_add, walk, Option.bind_some]
  | succ m ih =>
    rw [Nat.succ_add, walk, walk, Option.bind_assoc]
    exact Option.bind_congr fun b _ => ih b

theorem ownerWithin_of_outward {n : Nat} (h : st.outward s a = some b) :
    ownerWithin st s (n + 1) a = ownerWithin st s n b := by
  rw [ownerWithin]
  unfold outward at h
  split at h
  · rename_i scope hs
    rw [hs]
    split at h
    · cases h
    · rename_i hn
      dsimp only
      rw [if_neg hn, h]
  · cases h

theorem ownerWithin_of_outward_eq_none {m n : Nat} (h : st.outward s a = none) :
    ownerWithin st s (m + 1) a = ownerWithin st s (n + 1) a := by
  rw [ownerWithin, ownerWithin]
  unfold outward at h
  split at h
  · rename_i scope hs
    rw [hs]
    dsimp only
    split at h
    · rw [if_pos ‹_›, if_pos ‹_›]
    · rw [if_neg ‹_›, if_neg ‹_›, h]
  · split <;> simp_all

/-- A search under way has found nothing. -/
theorem ownerWithin_of_walk {n : Nat} (h : st.walk s n a = some b) :
    ownerWithin st s n a = some none := by
  induction n generalizing a with
  | zero => rfl
  | succ n ih =>
    rw [walk, Option.bind_eq_some_iff] at h
    obtain ⟨c, hc, h⟩ := h
    rw [ownerWithin_of_outward hc]
    exact ih h

/-- A search that has ended has its answer. -/
theorem ownerWithin_of_walk_eq_none {m n : Nat} (h : st.walk s n a = none) (hle : n ≤ m) :
    ownerWithin st s m a = ownerWithin st s n a := by
  induction n generalizing a m with
  | zero => cases h
  | succ n ih =>
    obtain ⟨m, rfl⟩ := Nat.exists_eq_add_of_lt hle
    cases hc : st.outward s a with
    | none => exact ownerWithin_of_outward_eq_none hc
    | some c =>
      rw [walk, hc, Option.bind_some] at h
      rw [ownerWithin_of_outward hc, ownerWithin_of_outward hc]
      exact ih h (by omega)

theorem walk_isSome_of_le {m n : Nat} (hn : (st.walk s n a).isSome) (hle : m ≤ n) :
    ∃ b, st.walk s m a = some b := by
  obtain ⟨k, rfl⟩ := Nat.exists_eq_add_of_le hle
  rw [walk_add] at hn
  cases hw : st.walk s m a with
  | none =>
    rw [hw] at hn
    cases hn
  | some b => exact ⟨b, rfl⟩

namespace Intact

theorem contains_outward (h : st.Intact) (hb : st.outward s a = some b) : st.contains b = true := by
  unfold outward at hb
  split at hb
  · rename_i scope hs
    split at hb
    · cases hb
    · exact h.closed hs b (Object.mem_children_scope.mpr (.inr hb))
  · cases hb

theorem contains_walk (h : st.Intact) (ha : st.contains a = true) {n : Nat}
    (hb : st.walk s n a = some b) :
    st.contains b = true := by
  induction n generalizing a with
  | zero =>
    cases hb
    exact ha
  | succ n ih =>
    rw [walk, Option.bind_eq_some_iff] at hb
    obtain ⟨c, hc, hb⟩ := hb
    exact ih (h.contains_outward hc) hb

/-- A walk of as many steps as there are slots has been at some scope twice. -/
theorem exists_walk_eq (h : st.Intact) (ha : st.contains a = true)
    (hsize : (st.walk s st.capacity a).isSome) :
    ∃ i j b, i < j ∧ j ≤ st.capacity ∧ st.walk s i a = some b ∧ st.walk s j a = some b := by
  have hcard : (Finset.range st.capacity).card < (Finset.range (st.capacity + 1)).card := by simp
  have hmaps : ∀ i ∈ Finset.range (st.capacity + 1), ((st.walk s i a).map Addr.index).getD 0 ∈
      Finset.range st.capacity := by
    intro i hi
    obtain ⟨b, hb⟩ := walk_isSome_of_le hsize (Nat.le_of_lt_succ (Finset.mem_range.mp hi))
    obtain ⟨o, ho⟩ := contains_iff.mp (h.contains_walk ha hb)
    rw [hb]
    exact Finset.mem_range.mpr (index_lt_of_get? ho)
  obtain ⟨i, hi, j, hj, hne, heq⟩ := Finset.exists_ne_map_eq_of_card_lt_of_maps_to hcard hmaps
  have hi := Nat.le_of_lt_succ (Finset.mem_range.mp hi)
  have hj := Nat.le_of_lt_succ (Finset.mem_range.mp hj)
  obtain ⟨b, hb⟩ := walk_isSome_of_le hsize hi
  obtain ⟨c, hc⟩ := walk_isSome_of_le hsize hj
  have hbc : b = c := by
    rw [hb, hc] at heq
    exact Addr.eq_iff.mpr heq
  subst hbc
  rcases Nat.lt_or_gt_of_ne hne with hlt | hlt
  · exact ⟨i, j, b, hlt, hj, hb, hc⟩
  · exact ⟨j, i, b, hlt, hi, hc, hb⟩

theorem walk_isSome (h : st.Intact) (ha : st.contains a = true)
    (hsize : (st.walk s st.capacity a).isSome) (n : Nat) :
    (st.walk s n a).isSome := by
  obtain ⟨i, j, b, hij, hj, hi, hb⟩ := h.exists_walk_eq ha hsize
  induction n using Nat.strong_induction_on with
  | _ n ih =>
    rcases Nat.le_total n st.capacity with hn | hn
    · obtain ⟨c, hc⟩ := walk_isSome_of_le hsize hn
      rw [hc]
      rfl
    · -- the walk goes on from its second visit as it did from its first
      obtain ⟨k, rfl⟩ := Nat.exists_eq_add_of_le (hj.trans hn)
      have hk := ih (i + k) (by omega)
      rw [walk_add, hi] at hk
      rw [walk_add, hb]
      exact hk

theorem ownerWithin_eq (h : st.Intact) (ha : st.contains a = true) {n : Nat}
    (hn : st.capacity ≤ n) :
    ownerWithin st s n a = st.owner? a s := by
  rw [owner?]
  cases hw : st.walk s st.capacity a with
  | none => exact ownerWithin_of_walk_eq_none hw hn
  | some b =>
    have hsome := h.walk_isSome ha (by rw [hw]; rfl) n
    obtain ⟨c, hc⟩ := Option.isSome_iff_exists.mp hsome
    rw [ownerWithin_of_walk hw, ownerWithin_of_walk hc]

theorem exists_ownerWithin (h : st.Intact) (ha : st.contains a = true) (s : Symbol) (n : Nat) :
    ∃ owner, ownerWithin st s n a = some owner ∧ ∀ o ∈ owner, ∃ scope v,
      st.get? o = some (.scope scope) ∧ scope.bindings.get? s = some v := by
  induction n generalizing a with
  | zero => exact ⟨none, rfl, by simp⟩
  | succ n ih =>
    obtain ⟨o, ho⟩ := contains_iff.mp ha
    rw [ownerWithin, ho]
    cases o with
    | scope scope =>
      dsimp only
      cases hs : scope.bindings.get? s with
      | some v => exact ⟨some a, by simp, by simpa using ⟨scope, ho, v, hs⟩⟩
      | none =>
        cases hp : scope.parent with
        | none => exact ⟨none, by simp, by simp⟩
        | some b => simpa using ih (h.closed ho b (Object.mem_children_scope.mpr (.inr hp)))
    | str | list | function | failure | input | output => exact ⟨none, rfl, by simp⟩

/-- Looking for a symbol meets no dead address, and neither does what is found. -/
theorem exists_lookup (h : st.Intact) (ha : st.contains a = true) (s : Symbol) :
    ∃ found, st.lookup a s = some found ∧ ∀ v ∈ found, v.Live st := by
  obtain ⟨owner, howner, hbound⟩ := h.exists_ownerWithin ha s st.capacity
  rw [lookup, owner?, howner]
  cases owner with
  | none => exact ⟨none, rfl, by simp⟩
  | some o =>
    obtain ⟨scope, v, ho, hv⟩ := hbound o rfl
    refine ⟨some v, by simp [local?, ho, hv], ?_⟩
    rintro _ ⟨⟩
    exact h.live_bound ho hv

theorem define (h : st.Intact) (a : Addr) (s : Symbol) {v : Value} (hv : v.Live st) :
    (st.modifyBindings a (·.insert s v)).Intact := by
  refine h.modify fun o ho c hc => ?_
  cases o with
  | scope scope =>
    obtain ⟨r, hr⟩ | hp := Object.mem_children_scope.mp hc
    · rw [Bindings.get?_insert] at hr
      split at hr
      · exact hv c (Option.some.inj hr)
      · exact h.live_bound ho hr c rfl
    · exact h.closed ho c (Object.mem_children_scope.mpr (.inr hp))
  | str | list | function | failure | input | output => exact h.closed ho c hc

end Intact

end HeapLisp.Store
