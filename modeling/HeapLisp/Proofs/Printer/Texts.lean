import HeapLisp.Proofs.Printer.Scopes

namespace HeapLisp

/-- The value is no symbol without a name. -/
def Value.Named (symbols : SymbolTable) (v : Value) : Prop :=
  ∀ x, v = .sym x → (symbols.spelling? x).isSome

/-- Every symbol in the store has a name. -/
def Store.NamedBy (st : Store Object) (symbols : SymbolTable) : Prop :=
  st.UsesOnly fun x => (symbols.spelling? x).isSome

namespace Store.NamedBy

variable {st : Store Object} {symbols : SymbolTable} {a : Addr}

theorem item (h : st.NamedBy symbols) {items : Array Value} {v : Value}
    (ha : st.get? a = some (.list items)) (hv : v ∈ items.toList) : v.Named symbols := by
  rintro x rfl
  exact h ha x hv

theorem bindings (h : st.NamedBy symbols) {s : Scope} (ha : st.get? a = some (.scope s)) :
    s.bindings.Named symbols :=
  fun x v hx => h ha x (.inl ⟨v, hx⟩)

theorem bound (h : st.NamedBy symbols) {s : Scope} {y : Symbol} {v : Value}
    (ha : st.get? a = some (.scope s)) (hv : s.bindings.get? y = some v) : v.Named symbols := by
  rintro x rfl
  exact h ha x (.inr ⟨y, hv⟩)

end Store.NamedBy

namespace Printer

variable {st : Store Object} {symbols : SymbolTable}

@[simp] theorem isSome_put (text : Bytes) (rest : Option Bytes) :
    (put text rest).isSome = rest.isSome := Option.isSome_map

theorem isSome_foldr {α : Type} {f : α → Option Bytes → Option Bytes} {l : List α}
    {rest : Option Bytes} (hrest : rest.isSome)
    (hf : ∀ x ∈ l, ∀ rest : Option Bytes, rest.isSome → (f x rest).isSome) :
    (l.foldr f rest).isSome := by
  induction l with
  | nil => exact hrest
  | cons x l ih => exact hf x (.head _) _ (ih fun y hy => hf y (.tail _ hy))

theorem isSome_onto_sym {x : Symbol} (hx : (Value.sym x).Named symbols) (room : Nat)
    (path : Std.TreeSet Nat) (style : Style) {rest : Option Bytes} (hrest : rest.isSome) :
    (onto st symbols room path style (.sym x) rest).isSome := by
  simpa [onto, SymbolTable.nameOf?_eq (hx x rfl)] using hrest

/-- Where nothing refers to a dead address and every symbol has a name, every value has a text. -/
theorem isSome_onto (hst : st.Intact) (hn : st.NamedBy symbols) (room : Nat)
    (path : Std.TreeSet Nat) (style : Style) {v : Value} (hv : v.Live st) (hx : v.Named symbols)
    {rest : Option Bytes} (hrest : rest.isSome) :
    (onto st symbols room path style v rest).isSome := by
  induction room generalizing path style v rest with
  | zero =>
    cases v with
    | num n | ref a => simpa [onto] using hrest
    | sym x => exact isSome_onto_sym hx 0 path style hrest
  | succ room ih =>
    cases v with
    | num n => simpa [onto] using hrest
    | sym x => exact isSome_onto_sym hx _ path style hrest
    | ref a =>
      obtain ⟨o, ho⟩ := Store.contains_iff.mp (hv a rfl)
      rw [onto, ho]
      split
      · simpa using hrest
      · cases o with
        | str text => cases style <;> simpa using hrest
        | list items =>
          have hitem {w : Value} (hw : w ∈ items.toList) {rest : Option Bytes}
              (hrest : rest.isSome) :
              (onto st symbols room (path.insert a.index) .canonical w rest).isSome :=
            ih _ _ (hst.live_item ho hw) (hn.item ho hw) hrest
          dsimp only
          generalize items.toList = vs at hitem
          cases vs with
          | nil => simpa using hrest
          | cons first others =>
            simp only [isSome_put]
            refine hitem (.head _) (isSome_foldr (by simpa using hrest) fun w hw rest hrest => ?_)
            simpa using hitem (.tail _ hw) hrest
        | scope s =>
          have hnamed := hn.bindings ho
          simp only [namedBindings?_eq_some hnamed, isSome_put]
          refine isSome_foldr (by simpa using hrest) ?_
          rintro ⟨name, w⟩ hw rest hrest
          obtain ⟨x, hx, -⟩ := (mem_namedBindings hnamed).mp hw
          simpa using ih _ _ (hst.live_bound ho hx) (hn.bound ho hx) (by simpa using hrest)
        | function f =>
          cases f with
          | native n => simpa using hrest
          | closure c =>
            refine ih _ _ ?_ (by simp [Value.Named]) hrest
            rintro b ⟨⟩
            exact hst.closed ho _ (by simp [Object.children])
        | failure f =>
          simp only [isSome_put]
          refine ih _ _ (fun b hb => ?_) (fun x hx => hn ho x hx) (by simpa using hrest)
          exact hst.closed ho b (Object.mem_children_failure.mpr hb)
        | input s | output written => simpa using hrest

end Printer

/-- The value is of this interpreter: it is no dead address and no symbol without a name. -/
structure Interp.Owns (s : Interp) (v : Value) : Prop where
  live : v.Live s.store
  named : v.Named s.symbols

namespace Interp

variable {s : Interp} {v : Value}

theorem Owns.render? (hv : s.Owns v) (hst : s.store.Intact) (hn : s.store.NamedBy s.symbols)
    (style : Style) : ∃ text, s.render? style v = some text :=
  Option.isSome_iff_exists.mp (Printer.isSome_onto hst hn _ _ style hv.live hv.named rfl)

end Interp

end HeapLisp
