import HeapLisp.Interp
import HeapLisp.Proofs.Store.Intact
import HeapLisp.Proofs.Symbols.Interning

namespace HeapLisp.Interp

variable {s s₁ s' : Interp} {f g : Addr → Object → Object}

/-- From one interpreter to the other every object became what `f` makes of it, objects were added,
and nothing else changed. -/
structure Alters (f : Addr → Object → Object) (s s' : Interp) : Prop where
  wellFormed : s'.store.WellFormed
  storeOnly : s' = { s with store := s'.store }
  changed : ∀ {a o}, s.store.get? a = some o → s'.store.get? a = some (f a o)

/-- Objects were added, and nothing else changed. -/
abbrev OnlyAdds (s s' : Interp) : Prop := Alters (fun _ o => o) s s'

namespace Alters

theorem refl (h : s.store.WellFormed) : s.OnlyAdds s where
  wellFormed := h
  storeOnly := rfl
  changed ha := ha

theorem trans (h : s.Alters f s₁) (h' : s₁.Alters g s') : s.Alters (fun a o => g a (f a o)) s' where
  wellFormed := h'.wellFormed
  storeOnly := by rw [h'.storeOnly, h.storeOnly]
  changed ha := h'.changed (h.changed ha)

/-- What is made of the objects counts only where there are any. -/
theorem congr (h : s.Alters f s') (hfg : ∀ {a o}, s.store.get? a = some o → f a o = g a o) :
    s.Alters g s' where
  wellFormed := h.wellFormed
  storeOnly := h.storeOnly
  changed ha := (h.changed ha).trans (congrArg some (hfg ha))

theorem symbols (h : s.Alters f s') : s'.symbols = s.symbols := by rw [h.storeOnly]

theorem alloc (h : s.store.WellFormed) (o : Object) : s.OnlyAdds (s.alloc o).2 where
  wellFormed := h.insert o
  storeOnly := rfl
  changed ha := h.get?_insert_of_get? o ha

theorem modify (h : s.store.WellFormed) (b : Addr) (m : Object → Object) :
    s.Alters (fun a o => if a = b then m o else o)
      { s with store := s.store.modify b m } where
  wellFormed := h.modify b m
  storeOnly := rfl
  changed {a o} ha := by
    rw [Store.get?_modify, ha]
    split_ifs <;> rfl

theorem withSymbols (h : s.Alters f s') (t : SymbolTable) :
    { s with symbols := t }.Alters f { s' with symbols := t } where
  wellFormed := h.wellFormed
  storeOnly := by rw [h.storeOnly]
  changed ha := h.changed ha

end Alters

theorem get?_alloc (h : s.store.WellFormed) (o : Object) :
    (s.alloc o).2.store.get? (s.alloc o).1 = some o :=
  h.get?_insert_next o

/-- Objects were added to a store where nothing is dangling, and nothing else has changed. -/
structure Gains (s s' : Interp) : Prop extends Alters (fun _ o => o) s s' where
  intact : s'.store.Intact

namespace Gains

theorem refl (h : s.store.Intact) : s.Gains s := ⟨.refl h.toWellFormed, h⟩

theorem trans (h : s.Gains s₁) (h' : s₁.Gains s') : s.Gains s' :=
  ⟨h.toAlters.trans h'.toAlters, h'.intact⟩

theorem alloc (h : s.store.Intact) {o : Object}
    (ho : ∀ a ∈ o.children, s.store.contains a = true) : s.Gains (s.alloc o).2 :=
  ⟨.alloc h.toWellFormed o, h.insert ho⟩

end Gains

/-- Objects and names were added, and nothing else has changed. -/
structure Grows (s s' : Interp) : Prop where
  named : s.symbols.Extends s'.symbols
  adds : { s with symbols := s'.symbols }.OnlyAdds s'

namespace Grows

theorem of_onlyAdds (h : s.OnlyAdds s') : s.Grows s' where
  named := h.symbols ▸ .refl s.symbols
  adds := h.symbols ▸ h

theorem refl (h : s.store.WellFormed) : s.Grows s := .of_onlyAdds (.refl h)

theorem trans (h : s.Grows s₁) (h' : s₁.Grows s') : s.Grows s' where
  named := h.named.trans h'.named
  adds := (h.adds.withSymbols s'.symbols).trans h'.adds

theorem wellFormed (h : s.Grows s') : s'.store.WellFormed := h.adds.wellFormed

theorem kept {a : Addr} {o : Object} (h : s.Grows s') (ha : s.store.get? a = some o) :
    s'.store.get? a = some o := h.adds.changed ha

theorem intern (h : s.store.WellFormed) (name : Bytes) : s.Grows (s.intern name).2 where
  named := .insert s.symbols name
  adds := .refl h

end Grows

end HeapLisp.Interp
