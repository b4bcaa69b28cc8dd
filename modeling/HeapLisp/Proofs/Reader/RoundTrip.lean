import HeapLisp.Eval.Effect
import HeapLisp.Proofs.Reader.Grammar
import HeapLisp.Proofs.Store.Additions
import Mathlib.Data.List.Forall2
import Mathlib.Data.List.Nodup

namespace HeapLisp

/-- Values with the same numbers, symbols and text in lists of the same shape. -/
inductive SameData (st st' : Store Object) : Value → Value → Prop where
  | num (k : Int64) : SameData st st' (.num k) (.num k)
  | sym (x : Symbol) : SameData st st' (.sym x) (.sym x)
  | str {a b : Addr} {text : ByteArray} (ha : st.get? a = some (.str text))
    (hb : st'.get? b = some (.str text)) :
    SameData st st' (.ref a) (.ref b)
  | list {a b : Addr} {xs ys : Array Value} (ha : st.get? a = some (.list xs))
    (hb : st'.get? b = some (.list ys))
    (h : List.Forall₂ (SameData st st') xs.toList ys.toList) : SameData st st' (.ref a) (.ref b)

/-- The second value stands in the first one with `depth` lists around it. -/
inductive Store.Nested (st : Store Object) (v : Value) : (depth : Nat) → Value → Prop where
  | self : Nested st v 0 v
  | item {depth : Nat} {a : Addr} {items : Array Value} {w : Value} (h : Nested st v depth (.ref a))
    (ha : st.get? a = some (.list items)) (hw : w ∈ items.toList) : Nested st v (depth + 1) w

/-- A name that is read back as a symbol. -/
structure ReadableName (name : Bytes) : Prop extends Token.IsAtom name where
  valid : Utf8.isValid name = true
  symbolic : Numeral.looksNumeric name = false

/-- What can be read back where it has `depth` lists around it. -/
inductive Interp.Readable (s : Interp) (depth : Nat) : Value → Prop where
  | num (k : Int64) : s.Readable depth (.num k)
  | sym {x : Symbol} {name : ByteArray} (hx : s.symbols.spelling? x = some name)
    (hn : ReadableName (Bytes.ofPacked name)) :
    s.Readable depth (.sym x)
  | str {a : Addr} {text : ByteArray} (hd : depth < s.config.maxDepth)
    (ha : s.store.get? a = some (.str text))
    (hv : Utf8.isValid (Bytes.ofPacked text) = true) (hq : Byte.doubleQuote ∉ Bytes.ofPacked text) :
    s.Readable depth (.ref a)
  | list {a : Addr} {items : Array Value} (hd : depth < s.config.maxDepth)
    (ha : s.store.get? a = some (.list items)) :
    s.Readable depth (.ref a)

mutual

/-- The readable data that a form describes, with at most `room` lists and strings inside each
other. -/
inductive Datum (s : Interp) : (room : Nat) → Value → Form → Prop where
  | num {room : Nat} (k : Int64) : Datum s room (.num k) (.num k)
  | sym {room : Nat} {x : Symbol} {name : ByteArray} (hx : s.symbols.spelling? x = some name)
    (hn : ReadableName (Bytes.ofPacked name)) : Datum s room (.sym x) (.sym (Bytes.ofPacked name))
  | str {room : Nat} {a : Addr} {text : ByteArray} (ha : s.store.get? a = some (.str text))
    (hv : Utf8.isValid (Bytes.ofPacked text) = true) (hq : Byte.doubleQuote ∉ Bytes.ofPacked text) :
    Datum s (room + 1) (.ref a) (.str (Bytes.ofPacked text))
  | list {room : Nat} {a : Addr} {items : Array Value} {fs : List Form}
    (ha : s.store.get? a = some (.list items))
    (h : Data s room items.toList fs) : Datum s (room + 1) (.ref a) (.list fs)

inductive Data (s : Interp) : (room : Nat) → List Value → List Form → Prop where
  | nil {room : Nat} : Data s room [] []
  | cons {room : Nat} {v : Value} {f : Form} {vs : List Value} {fs : List Form}
    (h : Datum s room v f)
    (hs : Data s room vs fs) : Data s room (v :: vs) (f :: fs)

end

variable {s : Interp} {room : Nat} {v : Value} {f : Form}

theorem Data.exists_of_forall {vs : List Value} (h : ∀ v ∈ vs, ∃ f, Datum s room v f) :
    ∃ fs, Data s room vs fs := by
  induction vs with
  | nil => exact ⟨[], .nil⟩
  | cons v vs ih =>
    obtain ⟨f, hf⟩ := h v (.head _)
    obtain ⟨fs, hfs⟩ := ih fun w hw => h w (.tail _ hw)
    exact ⟨f :: fs, .cons hf hfs⟩

/-- Readable data has no cycle, because what is on a cycle has any number of lists around it. -/
theorem exists_datum (h : ∀ depth w, s.store.Nested v depth w → s.Readable depth w) {depth : Nat}
    {w : Value} (hw : s.store.Nested v depth w) (hroom : s.config.maxDepth ≤ depth + room) :
    ∃ f, Datum s room w f := by
  induction room using Nat.strong_induction_on generalizing depth w with
  | _ room ih =>
    have hpos (hd : depth < s.config.maxDepth) : ∃ room', room = room' + 1 := ⟨room - 1, by omega⟩
    cases h depth w hw with
    | num k => exact ⟨_, .num k⟩
    | sym hx hn => exact ⟨_, .sym hx hn⟩
    | str hd ha hv hq =>
      obtain ⟨room', rfl⟩ := hpos hd
      exact ⟨_, .str ha hv hq⟩
    | list hd ha =>
      obtain ⟨room', rfl⟩ := hpos hd
      have hitems : ∀ x ∈ _, ∃ f, Datum s room' x f :=
        fun x hx => ih room' (by omega) (.item hw ha hx) (by omega)
      obtain ⟨fs, hfs⟩ := Data.exists_of_forall hitems
      exact ⟨_, .list ha hfs⟩

theorem Data.exists_of_mem {vs : List Value} {fs : List Form} (h : Data s room vs fs)
    (hv : v ∈ vs) :
    ∃ f, Datum s room v f := by
  induction vs generalizing fs with
  | nil => cases hv
  | cons w ws ih =>
    cases h with
    | cons hf hfs =>
      cases hv with
      | head => exact ⟨_, hf⟩
      | tail _ hv => exact ih hfs hv

/-- Every list around a value takes one of its room. -/
theorem Datum.nested {depth : Nat} {w : Value} (h : Datum s room v f)
    (hw : s.store.Nested v depth w) :
    ∃ room' g, room' + depth = room ∧ Datum s room' w g := by
  induction hw with
  | self => exact ⟨room, f, rfl, h⟩
  | item _ ha hw ih =>
    obtain ⟨room', g, hroom, hg⟩ := ih
    cases hg with
    | str ha' => cases ha.symm.trans ha'
    | list ha' hs =>
      cases ha.symm.trans ha'
      obtain ⟨g, hg⟩ := hs.exists_of_mem hw
      exact ⟨_, g, by omega, hg⟩

theorem Datum.not_nested_self {a : Addr} {depth : Nat} (h : Datum s room (.ref a) f) :
    ¬ s.store.Nested (.ref a) (depth + 1) (.ref a) := by
  intro hn
  induction room using Nat.strong_induction_on generalizing f with
  | _ room ih =>
    obtain ⟨room', g, hroom, hg⟩ := h.nested hn
    exact ih room' (by omega) hg

/-- The path leads to the value: the value is nested in every list on it. -/
def LeadsTo (st : Store Object) (path : Std.TreeSet Nat) (v : Value) : Prop :=
  ∀ i, path.contains i = true → ∃ depth, st.Nested (.ref ⟨i⟩) (depth + 1) v

theorem LeadsTo.empty {st : Store Object} {v : Value} : LeadsTo st ∅ v := by
  intro i hi
  rw [Std.TreeSet.contains_emptyc] at hi
  cases hi

theorem LeadsTo.item {st : Store Object} {path : Std.TreeSet Nat} {a : Addr} {items : Array Value}
    {w : Value} (h : LeadsTo st path (.ref a)) (ha : st.get? a = some (.list items))
    (hw : w ∈ items.toList) :
    LeadsTo st (path.insert a.index) w := by
  intro i hi
  rw [Std.TreeSet.contains_insert, Bool.or_eq_true, beq_iff_eq,
    Std.LawfulEqCmp.compare_eq_iff_eq] at hi
  rcases hi with rfl | hi
  · exact ⟨0, .item .self ha hw⟩
  · obtain ⟨depth, hd⟩ := h i hi
    exact ⟨depth + 1, .item hd ha hw⟩

theorem Datum.not_on_path {a : Addr} {path : Std.TreeSet Nat} (h : Datum s room (.ref a) f)
    (hp : LeadsTo s.store path (.ref a)) : path.contains a.index = false := by
  rw [Bool.eq_false_iff]
  intro ha
  obtain ⟨depth, hd⟩ := hp _ ha
  exact h.not_nested_self hd

namespace Printer

variable (st : Store Object) (symbols : SymbolTable) (path : Std.TreeSet Nat) (style : Style)
  (rest : Option Bytes)

theorem onto_num (room : Nat) (k : Int64) :
    onto st symbols room path style (.num k) rest = put (Numeral.ofInt k.toInt) rest := by
  cases room <;> rfl

theorem onto_sym (room : Nat) {x : Symbol} {name : ByteArray} (hx : symbols.spelling? x = some name)
    (hv : Utf8.isValid (Bytes.ofPacked name) = true) :
    onto st symbols room path style (.sym x) rest = put (Bytes.ofPacked name) rest := by
  have hname : symbols.nameOf? x = some (Bytes.ofPacked name) := by
    rw [SymbolTable.nameOf?, hx, Option.map_some]
  cases room <;> rw [onto, hname] <;> simp [Utf8.scrub, hv]

variable {st symbols path rest}

theorem onto_str (room : Nat) {a : Addr} {text : ByteArray} (hp : path.contains a.index = false)
    (ha : st.get? a = some (.str text)) (hv : Utf8.isValid (Bytes.ofPacked text) = true) :
    onto st symbols (room + 1) path .canonical (.ref a) rest =
      put [Byte.doubleQuote] (put (Bytes.ofPacked text) (put [Byte.doubleQuote] rest)) := by
  rw [onto, hp, ha]
  simp [Utf8.scrub, hv]

end Printer

/-- The text of the items of a list, with a blank before each, up to the end of the list. -/
def itemsOnto (s : Interp) (room : Nat) (path : Std.TreeSet Nat) (vs : List Value) (rest : Bytes) :
    Option Bytes :=
  vs.foldr (fun v rest => Printer.put [Byte.space]
    (Printer.onto s.store s.symbols room path .canonical v rest))
    (Printer.put [Byte.closeParen] (some rest))

/-- Before any text that ends an atom the value is printed, as the tokens of the form. -/
def Prints (s : Interp) (room : Nat) (path : Std.TreeSet Nat) (v : Value) (f : Form) : Prop :=
  ∀ rest, Token.Stops rest → ∃ bytes,
    Printer.onto s.store s.symbols room path .canonical v (some rest) = some bytes ∧
    ∀ line, ∃ ts line', Spells room f ts ∧ Token.Lexes ⟨bytes, line⟩ ts ⟨rest, line'⟩

theorem exists_itemsOnto {vs : List Value} {fs : List Form} {path : Std.TreeSet Nat}
    (h : List.Forall₂ (Prints s room path) vs fs) (rest : Bytes) :
    ∃ bytes, itemsOnto s room path vs rest = some bytes ∧ Token.Stops bytes ∧
      ∀ line, ∃ ts line', SpellsAll room fs ts ∧
        Token.Lexes ⟨bytes, line⟩ (ts ++ [.closing]) ⟨rest, line'⟩ := by
  induction h with
  | nil =>
    exact ⟨_, rfl, .cons rfl rest, fun line =>
      ⟨[], line, .nil, .cons (Token.next_closeParen rest line) (.nil _)⟩⟩
  | cons h _ ih =>
    obtain ⟨bytes, hbytes, hstops, hrest⟩ := ih
    obtain ⟨text, htext, hlexes⟩ := h _ hstops
    rw [← hbytes] at htext
    refine ⟨Byte.space :: text, ?_, .cons rfl _, fun line => ?_⟩
    · rw [itemsOnto, List.foldr_cons]
      exact congrArg (Printer.put [Byte.space]) htext
    · obtain ⟨ts, line₁, hs, hl⟩ := hlexes line
      obtain ⟨us, line₂, hus, hrest⟩ := hrest line₁
      refine ⟨ts ++ us, line₂, .cons hs hus, ?_⟩
      refine (Token.lexes_space_iff (by simp)).mpr ?_
      rw [List.append_assoc]
      exact hl.append hrest

namespace Prints

variable {path : Std.TreeSet Nat}

theorem num (k : Int64) : Prints s room path (.num k) (.num k) := by
  intro rest hr
  rw [Printer.onto_num]
  exact ⟨_, rfl, fun line => ⟨_, line, .num k, .cons (Token.next_numeral k hr line) (.nil _)⟩⟩

theorem sym {x : Symbol} {name : ByteArray} (hx : s.symbols.spelling? x = some name)
    (hn : ReadableName (Bytes.ofPacked name)) :
    Prints s room path (.sym x) (.sym (Bytes.ofPacked name)) := by
  intro rest hr
  rw [Printer.onto_sym _ _ _ _ _ _ hx hn.valid]
  exact ⟨_, rfl, fun line =>
    ⟨_, line, .sym _, .cons (Token.next_name hn.toIsAtom hn.symbolic hr line) (.nil _)⟩⟩

theorem str {a : Addr} {text : ByteArray} (hp : path.contains a.index = false)
    (ha : s.store.get? a = some (.str text)) (hv : Utf8.isValid (Bytes.ofPacked text) = true)
    (hq : Byte.doubleQuote ∉ Bytes.ofPacked text) :
    Prints s (room + 1) path (.ref a) (.str (Bytes.ofPacked text)) := by
  intro rest _
  rw [Printer.onto_str _ hp ha hv]
  exact ⟨_, rfl, fun line => ⟨_, _, .str _, .cons (Token.next_string hq rest line) (.nil _)⟩⟩

theorem list {a : Addr} {items : Array Value} {fs : List Form} (hp : path.contains a.index = false)
    (ha : s.store.get? a = some (.list items))
    (h : List.Forall₂ (Prints s room (path.insert a.index)) items.toList fs) :
    Prints s (room + 1) path (.ref a) (.list fs) := by
  intro rest _
  obtain ⟨bytes, hbytes, _, hlexes⟩ := exists_itemsOnto h rest
  rw [Printer.onto, hp, ha]
  simp only [Bool.false_eq_true, if_false]
  have opened {tail : Bytes} (htail : ∀ line ts d, ts ≠ [] → Token.Lexes ⟨bytes, line⟩ ts d →
      Token.Lexes ⟨tail, line⟩ ts d) : ∃ text, some (Byte.openParen :: tail) = some text ∧
      ∀ line, ∃ ts line', Spells (room + 1) (.list fs) ts ∧
        Token.Lexes ⟨text, line⟩ ts ⟨rest, line'⟩ := by
    refine ⟨_, rfl, fun line => ?_⟩
    obtain ⟨ts, line', hs, hl⟩ := hlexes line
    exact ⟨_, line', .list hs,
      .cons (Token.next_openParen _ line) (htail line _ _ (by simp) hl)⟩
  -- the blank that stands before the first item is left out
  cases hitems : items.toList with
  | nil =>
    rw [hitems] at hbytes
    cases hbytes
    exact opened fun _ _ _ _ hl => hl
  | cons first others =>
    rw [hitems, itemsOnto, List.foldr_cons] at hbytes
    obtain ⟨tail, htail, rfl⟩ := Option.map_eq_some_iff.mp hbytes
    dsimp only
    rw [htail]
    exact opened fun _ _ _ hne hl => (Token.lexes_space_iff hne).mp hl

/-- The text of a value on its own is read as its form, and nothing is left. -/
theorem read (h : Prints s s.config.maxDepth ∅ v f) : ∃ text, s.render? .canonical v = some text ∧
    ∃ line, Reader.read s.config.maxDepth ⟨Byte.space :: text, Bookmark.start.line⟩ =
      (.form f, ⟨[], line⟩) := by
  obtain ⟨text, htext, hlexes⟩ := h [] .nil
  obtain ⟨ts, line, hs, hl⟩ := hlexes Bookmark.start.line
  exact ⟨text, htext, line, Reader.read_spells hs ((Token.lexes_space_iff hs.ne_nil).mpr hl)⟩

end Prints

theorem Data.prints {vs : List Value} {fs : List Form} {path : Std.TreeSet Nat}
    (ih : ∀ v f, Datum s room v f → LeadsTo s.store path v → Prints s room path v f)
    (h : Data s room vs fs) (hp : ∀ v ∈ vs, LeadsTo s.store path v) :
    List.Forall₂ (Prints s room path) vs fs := by
  induction vs generalizing fs with
  | nil =>
    cases h
    exact .nil
  | cons v vs ihs =>
    cases h with
    | cons hf hfs =>
      exact .cons (ih v _ hf (hp v (.head _))) (ihs hfs fun w hw => hp w (.tail _ hw))

theorem Datum.prints {path : Std.TreeSet Nat} (h : Datum s room v f) (hp : LeadsTo s.store path v) :
    Prints s room path v f := by
  induction room using Nat.strong_induction_on generalizing v f path with
  | _ room ih =>
    have hpath {a : Addr} (ha : v = .ref a) : path.contains a.index = false := by
      subst ha
      exact h.not_on_path hp
    cases h with
    | num k => exact .num k
    | sym hx hn => exact .sym hx hn
    | str ha hv hq => exact .str (hpath rfl) ha hv hq
    | @list room' _ _ _ ha h =>
      have hitems := h.prints (fun _ _ hf hp => ih room' (by omega) hf hp) fun _ hw => hp.item ha hw
      exact .list (hpath rfl) ha hitems

theorem Data.build {s₀ : Interp} {vs : List Value} {fs : List Form}
    (ih : ∀ v f (s : Interp), Datum s₀ room v f → s.symbols = s₀.symbols → s.store.WellFormed →
      s.OnlyAdds (s.build f).2 ∧
      ∀ st : Store Object, (∀ a o, (s.build f).2.store.get? a = some o → st.get? a = some o) →
        SameData s₀.store st v (s.build f).1)
    (h : Data s₀ room vs fs) {s : Interp} (hsym : s.symbols = s₀.symbols)
    (hw : s.store.WellFormed) :
    s.OnlyAdds (s.buildAll fs).2 ∧
      ∀ st : Store Object, (∀ a o, (s.buildAll fs).2.store.get? a = some o → st.get? a = some o) →
        List.Forall₂ (SameData s₀.store st) vs (s.buildAll fs).1 := by
  induction vs generalizing fs s with
  | nil =>
    cases h
    exact ⟨.refl hw, fun _ _ => .nil⟩
  | cons v vs ihs =>
    cases h with
    | cons hf hfs =>
      obtain ⟨hadds, hv⟩ := ih v _ s hf hsym hw
      obtain ⟨hadds', hvs⟩ := ihs hfs (hadds.symbols.trans hsym) hadds.wellFormed
      refine ⟨hadds.trans hadds', fun st hst => .cons (hv st ?_) (hvs st hst)⟩
      exact fun a o ha => hst a o (hadds'.changed ha)

/-- Storing the form of readable data makes the same data anew. -/
theorem Datum.build {s₀ : Interp} (h : Datum s₀ room v f) (hsym : s.symbols = s₀.symbols)
    (hw : s.store.WellFormed) :
    s.OnlyAdds (s.build f).2 ∧
      ∀ st : Store Object, (∀ a o, (s.build f).2.store.get? a = some o → st.get? a = some o) →
        SameData s₀.store st v (s.build f).1 := by
  induction room using Nat.strong_induction_on generalizing v f s with
  | _ room ih =>
    cases h with
    | num k => exact ⟨.refl hw, fun _ _ => .num k⟩
    | sym hx hn =>
      rw [← hsym] at hx
      simp only [Interp.build, Interp.intern, SymbolTable.symbolOf_ofPacked hx,
        SymbolTable.insert_ofPacked hx]
      exact ⟨.refl hw, fun _ _ => .sym _⟩
    | @str _ a text ha hv hq =>
      have htext : (Bytes.ofPacked text).toByteArray = text := by
        rw [← Bytes.ofPacked_inj, Bytes.ofPacked_toByteArray]
      have hget := Interp.get?_alloc hw (.str (Bytes.ofPacked text).toByteArray)
      refine ⟨.alloc hw _, fun st hst => .str ha (hst _ _ ?_)⟩
      exact hget.trans (congrArg (fun text => some (Object.str text)) htext)
    | @list room' _ _ fs ha hs =>
      obtain ⟨hadds, hvs⟩ :=
        hs.build (fun _ _ _ hf hsym hw => ih room' (by omega) hf hsym hw) hsym hw
      have halloc := Interp.Alters.alloc hadds.wellFormed (.list (s.buildAll fs).1.toArray)
      have hget := Interp.get?_alloc hadds.wellFormed (.list (s.buildAll fs).1.toArray)
      refine ⟨hadds.trans halloc, fun st hst => .list ha (hst _ _ hget) ?_⟩
      exact hvs st fun a o ha => hst a o (halloc.changed ha)

/-- Readable data is read back from its text, and the text ends with it. -/
theorem read_render_sameData {s : Interp} (hw : s.store.WellFormed) {v : Value}
    (h : ∀ depth w, s.store.Nested v depth w → s.Readable depth w) :
    ∃ text, s.render? .canonical v = some text ∧
    ∃ w s' line, Effect.readFrom (.own (.memory text)) .start s =
        some ((.value w, ⟨.ended, line⟩, .own (.memory [])), s') ∧
      SameData s.store s'.store v w ∧
      Effect.readFrom (.own (.memory [])) ⟨.ended, line⟩ s' =
        some ((.ended, ⟨.ended, line⟩, .own (.memory [])), s') := by
  obtain ⟨f, hf⟩ := exists_datum h .self (Nat.le_of_eq (Nat.zero_add s.config.maxDepth).symm)
  obtain ⟨text, htext, line, hread⟩ := (hf.prints .empty).read
  obtain ⟨_, hsame⟩ := hf.build rfl hw
  refine ⟨text, htext, (s.build f).1, (s.build f).2, line, ?_, hsame _ fun _ _ ha => ha, rfl⟩
  simp only [Effect.readFrom, InputStream.readForm, Reader.readAt, Bookmark.start] at hread ⊢
  rw [hread]
  rfl

/-- A list of the least number, a string and twice the same list, as deep as the limit allows. -/
theorem read_render_sameData_shared :
    let text := (Bytes.ofString "a;b").toByteArray
    let s₁ := ((Interp.bare ⟨2, 65536, false⟩ .empty 0).alloc (.str text)).2
    let s₂ := (s₁.alloc (.list #[.sym .lambda])).2
    let s := (s₂.alloc (.list #[.num Int64.minValue, .ref ⟨1⟩, .ref ⟨2⟩, .ref ⟨2⟩])).2
    s.render? .canonical (.ref ⟨3⟩) =
      some (Bytes.ofString "(-9223372036854775808 \"a;b\" (lambda) (lambda))") ∧
    ∃ text, s.render? .canonical (.ref ⟨3⟩) = some text ∧
    ∃ w s' line, Effect.readFrom (.own (.memory text)) .start s =
        some ((.value w, ⟨.ended, line⟩, .own (.memory [])), s') ∧
      SameData s.store s'.store (.ref ⟨3⟩) w := by
  intro text s₁ s₂ s
  have hw : s.store.WellFormed := (((Store.WellFormed.empty.insert _).insert _).insert _).insert _
  have hlambda : s.symbols.spelling? .lambda = some (Bytes.ofString "lambda").toByteArray := by
    decide +kernel
  have hname : ReadableName (Bytes.ofPacked (Bytes.ofString "lambda").toByteArray) := by
    rw [Bytes.ofPacked_toByteArray]
    exact ⟨⟨by decide +kernel, by decide +kernel, by decide +kernel⟩,
      by decide +kernel, by decide +kernel⟩
  have h₁ : s.store.get? ⟨1⟩ = some (.str text) := by
    subst s s₂ s₁ text
    rfl
  have h₂ : s.store.get? ⟨2⟩ = some (.list #[.sym .lambda]) := by
    subst s s₂ s₁ text
    rfl
  have h₃ : s.store.get? ⟨3⟩ =
      some (.list #[.num Int64.minValue, .ref ⟨1⟩, .ref ⟨2⟩, .ref ⟨2⟩]) := by
    subst s s₂ s₁ text
    rfl
  have hreadable : ∀ depth w, s.store.Nested (.ref ⟨3⟩) depth w → s.Readable depth w := by
    have hnested : ∀ depth w, s.store.Nested (.ref ⟨3⟩) depth w → depth = 0 ∧ w = .ref ⟨3⟩ ∨
        depth = 1 ∧ (w = .num Int64.minValue ∨ w = .ref ⟨1⟩ ∨ w = .ref ⟨2⟩) ∨ depth = 2 ∧
        w = .sym .lambda := by
      intro depth w h
      induction h with
      | self => exact .inl ⟨rfl, rfl⟩
      | item _ ha hw ih =>
        rcases ih with ⟨rfl, he⟩ | ⟨rfl, he | he | he⟩ | ⟨rfl, he⟩
        · cases he
          cases ha.symm.trans h₃
          exact .inr (.inl ⟨rfl, by simpa using hw⟩)
        · cases he
        · cases he
          cases ha.symm.trans h₁
        · cases he
          cases ha.symm.trans h₂
          exact .inr (.inr ⟨rfl, by simpa using hw⟩)
        · cases he
    intro depth w h
    rcases hnested depth w h with ⟨rfl, rfl⟩ | ⟨rfl, rfl | rfl | rfl⟩ | ⟨rfl, rfl⟩
    · exact .list (by decide) h₃
    · exact .num _
    · exact .str (by decide) h₁ (by decide +kernel) (by decide +kernel)
    · exact .list (by decide) h₂
    · exact .sym hlambda hname
  refine ⟨by decide +kernel, ?_⟩
  obtain ⟨bytes, hbytes, w, s', line, hread, hsame, _⟩ := read_render_sameData hw hreadable
  exact ⟨bytes, hbytes, w, s', line, hread, hsame⟩

end HeapLisp
