import HeapLisp.Printer
import HeapLisp.Proofs.Matching.Stores

namespace HeapLisp

section Maps

variable {κ β : Type} {cmp : κ → κ → Ordering} [Std.TransCmp cmp] {R : β → β → Prop}

/-- Entries of the same key with related values. -/
def Entries (R : β → β → Prop) : List (κ × β) → List (κ × β) → Prop :=
  List.Forall₂ fun p q => p.1 = q.1 ∧ R p.2 q.2

theorem entries_of_keys {l l' : List (κ × β)} (hk : l.map Prod.fst = l'.map Prod.fst)
    (hv : ∀ p ∈ l, ∀ q ∈ l', p.1 = q.1 → R p.2 q.2) : Entries R l l' := by
  induction l generalizing l' with
  | nil =>
    cases l' with
    | nil => exact .nil
    | cons q l' => cases hk
  | cons p l ih =>
    cases l' with
    | nil => cases hk
    | cons q l' =>
      obtain ⟨hpq, hk⟩ := List.cons.inj hk
      exact .cons ⟨hpq, hv p (.head _) q (.head _) hpq⟩
        (ih hk fun p hp q hq => hv p (.tail _ hp) q (.tail _ hq))

theorem rel_isSome {x y : Option β} (h : Option.Rel R x y) : x.isSome = y.isSome := by
  cases h <;> rfl

theorem keys_eq [Std.LawfulEqCmp cmp] {m m' : Std.TreeMap κ β cmp}
    (h : ∀ k : κ, Option.Rel R m[k]? m'[k]?) :
    m.keys = m'.keys := by
  have hmem (k : κ) : k ∈ m.keys ↔ k ∈ m'.keys := by
    rw [Std.TreeMap.mem_keys, Std.TreeMap.mem_keys, Std.TreeMap.mem_iff_isSome_getElem?,
      Std.TreeMap.mem_iff_isSome_getElem?]
    rw [rel_isSome (h k)]
  have hlt {a b : κ} (hab : cmp a b = .lt) (hba : cmp b a = .lt) : a = b := by
    have hswap : cmp b a = (cmp a b).swap := Std.OrientedCmp.eq_swap
    rw [hab, hba] at hswap
    cases hswap
  refine List.Perm.eq_of_pairwise
    (fun a b _ _ => hlt) Std.TreeMap.ordered_keys Std.TreeMap.ordered_keys ?_
  exact (List.perm_ext_iff_of_nodup Std.TreeMap.nodup_keys Std.TreeMap.nodup_keys).mpr hmem

theorem entries_toList [Std.LawfulEqCmp cmp] {m m' : Std.TreeMap κ β cmp}
    (h : ∀ k : κ, Option.Rel R m[k]? m'[k]?) :
    Entries R m.toList m'.toList := by
  refine entries_of_keys ?_ ?_
  · rw [Std.TreeMap.map_fst_toList_eq_keys, Std.TreeMap.map_fst_toList_eq_keys, keys_eq h]
  · rintro ⟨k, v⟩ hp ⟨l, w⟩ hq hkl
    cases hkl
    rw [Std.TreeMap.mem_toList_iff_getElem?_eq_some] at hp hq
    have hk := h k
    rw [hp, hq] at hk
    cases hk with
    | some hv => exact hv

theorem rel_insertMany {l l' : List (κ × β)} (hl : Entries R l l') {m m' : Std.TreeMap κ β cmp}
    (h : ∀ k : κ, Option.Rel R m[k]? m'[k]?) (k : κ) :
    Option.Rel R (m.insertMany l)[k]? (m'.insertMany l')[k]? := by
  induction hl generalizing m m' with
  | nil => simpa using h k
  | @cons p q l l' hpq _ ih =>
    obtain ⟨i, v⟩ := p
    obtain ⟨j, w⟩ := q
    obtain ⟨hij, hvw⟩ := hpq
    cases hij
    rw [Std.TreeMap.insertMany_cons, Std.TreeMap.insertMany_cons]
    refine ih fun k => ?_
    rw [Std.TreeMap.getElem?_insert, Std.TreeMap.getElem?_insert]
    split
    · exact .some hvw
    · exact h k

theorem entries_ofList [Std.LawfulEqCmp cmp] {l l' : List (κ × β)} (hl : Entries R l l') :
    Entries R (Std.TreeMap.ofList l cmp).toList (Std.TreeMap.ofList l' cmp).toList := by
  refine entries_toList fun k => ?_
  rw [Std.TreeMap.ofList_eq_insertMany_empty, Std.TreeMap.ofList_eq_insertMany_empty]
  exact rel_insertMany hl (fun _ => by simp) k

theorem rel_mapM {α γ : Type} {S : α → α → Prop} {T : γ → γ → Prop} {f g : α → Option γ}
    {l l' : List α} (hl : List.Forall₂ S l l') (hfg : ∀ {x y}, S x y → Option.Rel T (f x) (g y)) :
    Option.Rel (List.Forall₂ T) (l.mapM f) (l'.mapM g) := by
  induction hl with
  | nil => exact .some .nil
  | @cons x y l l' hxy _ ih =>
    rw [List.mapM_cons, List.mapM_cons]
    generalize hx : f x = u, hy : g y = w, hl : l.mapM f = us, hl' : l'.mapM g = ws
    have huw := hfg hxy
    rw [hx, hy] at huw
    rw [hl, hl'] at ih
    cases huw with
    | none => exact .none
    | some hu =>
      cases ih with
      | none => exact .none
      | some hs => exact .some (.cons hu hs)

end Maps

namespace Matching

variable {M : Matching} {st st' : Store Object} {v w : Value}

theorem Binds.namedBindings? {b c : Bindings} (h : M.Binds b c) (symbols : SymbolTable) :
    Option.Rel (Entries M.Values) (Printer.namedBindings? symbols b)
      (Printer.namedBindings? symbols c) := by
  have hlist : Entries M.Values b.toList c.toList := by
    have hvalues : Entries M.Values b.values.toList c.values.toList :=
      entries_toList fun i => h.values ⟨i⟩
    refine List.forall₂_map_left_iff.mpr (List.forall₂_map_right_iff.mpr (hvalues.imp ?_))
    rintro ⟨i, v⟩ ⟨j, w⟩ ⟨hij, hvw⟩
    exact ⟨congrArg Symbol.mk hij, hvw⟩
  have hnamed : Option.Rel (Entries M.Values)
      (b.toList.mapM fun p => (symbols.nameOf? p.1).map (·, p.2))
      (c.toList.mapM fun p => (symbols.nameOf? p.1).map (·, p.2)) := by
    refine rel_mapM hlist ?_
    rintro ⟨x, v⟩ ⟨y, w⟩ ⟨hxy, hvw⟩
    cases hxy
    cases hn : symbols.nameOf? x with
    | none => exact .none
    | some name => exact .some ⟨rfl, hvw⟩
  rw [Printer.namedBindings?, Printer.namedBindings?]
  generalize (b.toList.mapM _ : Option _) = l, (c.toList.mapM _ : Option _) = l' at hnamed ⊢
  cases hnamed with
  | none => exact .none
  | some hl => exact .some (entries_ofList hl)

/-- Paths through matching objects. -/
def Paths (M : Matching) (path path' : Std.TreeSet Nat) : Prop :=
  ∀ a b, M.Pair a b → path.contains a.index = path'.contains b.index

theorem Paths.insert {path path' : Std.TreeSet Nat} (h : M.Paths path path') {a b : Addr}
    (hp : M.Pair a b) :
    M.Paths (path.insert a.index) (path'.insert b.index) := by
  intro c d hc
  have he : a = c ↔ b = d := hp.eq_iff hc
  rw [Addr.eq_iff, Addr.eq_iff] at he
  rw [Std.TreeSet.contains_insert, Std.TreeSet.contains_insert, h c d hc]
  congr 1
  rw [Bool.eq_iff_iff, beq_iff_eq, beq_iff_eq, Std.LawfulEqCmp.compare_eq_iff_eq,
    Std.LawfulEqCmp.compare_eq_iff_eq]
  exact he

theorem foldr_eq {α β : Type} {S : α → α → Prop} {f g : α → β → β} {l l' : List α}
    (h : List.Forall₂ S l l') (hfg : ∀ x y rest, S x y → f x rest = g y rest) (rest : β) :
    l.foldr f rest = l'.foldr g rest := by
  induction h with
  | nil => rfl
  | cons hxy _ ih => rw [List.foldr_cons, List.foldr_cons, ih, hfg _ _ _ hxy]

/-- Matching values have the same text, or none of them has one. -/
theorem Stores.onto (h : M.Stores st st') (hov : M.Overt) (symbols : SymbolTable) (room : Nat)
    {path path' : Std.TreeSet Nat} (hpath : M.Paths path path') (style : Style)
    (hv : M.Values v w) (rest : Option Bytes) :
    Printer.onto st symbols room path style v rest =
      Printer.onto st' symbols room path' style w rest := by
  induction room generalizing path path' style v w rest with
  | zero =>
    cases hv with
    | num n => rw [Printer.onto, Printer.onto]
    | sym s => rw [Printer.onto, Printer.onto]
    | ref hp => rw [Printer.onto, Printer.onto]
  | succ room ih =>
    cases hv with
    | num n => rw [Printer.onto, Printer.onto]
    | sym s => rw [Printer.onto, Printer.onto]
    | @ref a b hp =>
      rw [Printer.onto, Printer.onto, hpath a b hp]
      split
      · rfl
      · have hpath := hpath.insert hp
        obtain ⟨o, p, ho, hp', _, hop⟩ := h.get hp
        rw [ho, hp']
        cases hop with
        | str text => rfl
        | input stream => rfl
        | output written => rfl
        | @list xs ys hs =>
          dsimp only
          generalize hx : xs.toList = vs, hy : ys.toList = ws
          rw [hx, hy] at hs
          cases hs with
          | nil => rfl
          | cons hv hs =>
            dsimp only
            rw [ih hpath .canonical hv,
              foldr_eq hs fun x y rest hxy => by rw [ih hpath .canonical hxy]]
        | scope hb _ =>
          dsimp only
          have hentries := hb.namedBindings? symbols
          revert hentries
          generalize Printer.namedBindings? symbols _ = entries,
            Printer.namedBindings? symbols _ = entries'
          rintro (⟨hentries⟩ | _)
          · dsimp only
            rw [foldr_eq hentries]
            rintro ⟨i, x⟩ ⟨j, y⟩ rest ⟨hij, hxy⟩
            cases hij
            dsimp only
            rw [ih hpath .canonical hxy]
          · rfl
        | function hf =>
          cases hf with
          | native n => rfl
          | closure hc => exact ih hpath .canonical (.ref (hov _ _ _ hc.form)) rest
        | failure fault location hs =>
          dsimp only
          rw [ih hpath .canonical hs]

theorem Stores.render (h : M.Stores st st') (hov : M.Overt) (symbols : SymbolTable) (limit : Nat)
    (style : Style) (hv : M.Values v w) :
    Printer.render st symbols limit style v = Printer.render st' symbols limit style w :=
  h.onto hov symbols limit (fun _ _ _ => rfl) style hv (some [])

end Matching

end HeapLisp
