import HeapLisp.Proofs.Matching.Sequences
import HeapLisp.Proofs.Matching.Stores
import HeapLisp.Proofs.Scope.Walk
import HeapLisp.Store.Equal

namespace HeapLisp.Matching.Stores

variable {M : Matching} {st st' : Store Object} {a b : Addr} {v w : Value}

theorem ownerWithin (h : M.Stores st st') (hp : M.Pair a b) (s : Symbol) (n : Nat) :
    ∃ r t, Store.ownerWithin st s n a = some r ∧ Store.ownerWithin st' s n b = some t ∧
      Option.Rel M.Pair r t := by
  induction n generalizing a b with
  | zero => exact ⟨none, none, rfl, rfl, .none⟩
  | succ n ih =>
    obtain ⟨o, p, ho, hp', _, hop⟩ := h.get hp
    rw [Store.ownerWithin, Store.ownerWithin, ho, hp']
    cases hop with
    | @scope sc sc' hb hparent =>
      dsimp only
      have hs := hb.values s
      generalize hx : sc.bindings.get? s = x, hy : sc'.bindings.get? s = y
      rw [hx, hy] at hs
      cases hs with
      | some => exact ⟨some a, some b, rfl, rfl, .some hp⟩
      | none =>
        generalize hq : sc.parent = q, hr : sc'.parent = r
        rw [hq, hr] at hparent
        cases hparent with
        | none => exact ⟨none, none, rfl, rfl, .none⟩
        | some hp => exact ih hp
    | str | list | function | failure | input | output => exact ⟨none, none, rfl, rfl, .none⟩

/-- The stores differ in size, but no walk that finds anything is longer than either. -/
theorem owner? (h : M.Stores st st') (hp : M.Pair a b) (s : Symbol) :
    ∃ r t, st.owner? a s = some r ∧ st'.owner? b s = some t ∧ Option.Rel M.Pair r t := by
  have hl :=
    h.left.ownerWithin_eq (s := s) (h.live_left hp) (Nat.le_max_left st.capacity st'.capacity)
  have hr :=
    h.right.ownerWithin_eq (s := s) (h.live_right hp) (Nat.le_max_right st.capacity st'.capacity)
  rw [← hl, ← hr]
  exact h.ownerWithin hp s _

theorem lookup (h : M.Stores st st') (hp : M.Pair a b) (s : Symbol) :
    ∃ r t, st.lookup a s = some r ∧ st'.lookup b s = some t ∧ Option.Rel M.Values r t := by
  obtain ⟨r, t, hr, ht, hrt⟩ := h.owner? hp s
  rw [Store.lookup, Store.lookup, hr, ht]
  cases hrt with
  | none => exact ⟨none, none, rfl, rfl, .none⟩
  | some hc =>
    obtain ⟨o, p, ho, hp', _, hop⟩ := h.get hc
    simp only [Store.local?, ho, hp']
    cases hop with
    | scope hb _ => exact ⟨_, _, rfl, rfl, hb.values s⟩
    | str | list | function | failure | input | output => exact ⟨none, none, rfl, rfl, .none⟩

theorem sameText {c d : Addr} (h : M.Stores st st') (hp : M.Pair a b) (hc : M.Pair c d) :
    ∃ r, st.sameText a c = some r ∧ st'.sameText b d = some r := by
  obtain ⟨o, p, ho, hp', _, hop⟩ := h.get hp
  obtain ⟨x, y, hx, hy, _, hxy⟩ := h.get hc
  rw [Store.sameText, Store.sameText, ho, hp', hx, hy]
  cases hop with
  | str text => cases hxy <;> exact ⟨_, rfl, rfl⟩
  | list | scope | function | failure | input | output => exact ⟨false, rfl, rfl⟩

theorem equal {x y : Value} (h : M.Stores st st') (hv : M.Values v w) (hx : M.Values x y) :
    ∃ r, st.equal v x = some r ∧ st'.equal w y = some r := by
  unfold Store.equal
  by_cases he : v = x
  · rw [if_pos he, if_pos ((hv.eq_iff hx).mp he)]
    exact ⟨true, rfl, rfl⟩
  · rw [if_neg he, if_neg (mt (hv.eq_iff hx).mpr he)]
    cases hv with
    | num n => exact ⟨false, rfl, rfl⟩
    | sym s => exact ⟨false, rfl, rfl⟩
    | ref hp =>
      cases hx with
      | num n => exact ⟨false, rfl, rfl⟩
      | sym s => exact ⟨false, rfl, rfl⟩
      | ref hc => exact h.sameText hp hc

theorem positionFrom {xs ys : Array Value} (h : M.Stores st st') (hv : M.Values v w)
    (hs : M.Arrays xs ys) (i : Nat) :
    ∃ r, st.positionFrom v xs i = some r ∧ st'.positionFrom w ys i = some r := by
  fun_induction Store.positionFrom st v xs i with
  | case1 i hi he =>
    obtain ⟨y, hy, hxy⟩ := rel_some_left (arrays_iff.mp hs i) (Array.getElem?_eq_getElem hi)
    obtain ⟨r, hr, _⟩ := h.equal hxy hv
    rw [hr] at he
    cases he
  | case2 i hi he =>
    obtain ⟨y, hy, hxy⟩ := rel_some_left (arrays_iff.mp hs i) (Array.getElem?_eq_getElem hi)
    obtain ⟨r, hr, hr'⟩ := h.equal hxy hv
    cases hr.symm.trans he
    refine ⟨_, rfl, ?_⟩
    obtain ⟨hi', rfl⟩ := Array.getElem?_eq_some_iff.mp hy
    rw [Store.positionFrom, dif_pos hi', hr']
  | case3 i hi he ih =>
    obtain ⟨y, hy, hxy⟩ := rel_some_left (arrays_iff.mp hs i) (Array.getElem?_eq_getElem hi)
    obtain ⟨r, hr, hr'⟩ := h.equal hxy hv
    cases hr.symm.trans he
    obtain ⟨hi', rfl⟩ := Array.getElem?_eq_some_iff.mp hy
    obtain ⟨t, ht, ht'⟩ := ih
    refine ⟨t, ht, ?_⟩
    rw [Store.positionFrom, dif_pos hi', hr']
    exact ht'
  | case4 i hi =>
    refine ⟨none, rfl, ?_⟩
    rw [Store.positionFrom, dif_neg (hs.size_eq ▸ hi)]

theorem position (h : M.Stores st st') (hv : M.Values v w) (hp : M.Pair a b) :
    ∃ r, st.position v a = some r ∧ st'.position w b = some r := by
  obtain ⟨o, p, ho, hp', _, hop⟩ := h.get hp
  rw [Store.position, Store.position, ho, hp']
  cases hop with
  | list hs => exact h.positionFrom hv hs 0
  | str | scope | function | failure | input | output => exact ⟨none, rfl, rfl⟩

end HeapLisp.Matching.Stores
