import HeapLisp.Interp
import HeapLisp.Proofs.Store.Intact
import HeapLisp.Proofs.Symbols.Interning

namespace HeapLisp

theorem Bytes.ord_compare_eq_lt_iff {x y : Bytes} : Ord.compare x y = .lt ↔ x < y := by
  induction x generalizing y with
  | nil =>
    cases y with
    | nil => exact iff_of_false Ordering.noConfusion (List.not_lt_nil _)
    | cons b y => exact iff_of_true rfl (List.nil_lt_cons b y)
  | cons a x ih =>
    cases y with
    | nil => exact iff_of_false Ordering.noConfusion (List.not_lt_nil _)
    | cons b y =>
      rw [List.compare_cons_cons, Ordering.then_eq_lt, ih, List.cons_lt_cons_iff, Std.compare_eq_lt,
        Std.LawfulEqCmp.compare_eq_iff_eq]

namespace Printer

/-- The bindings as a list in which the names of the symbols increase, so that no binding is in it
twice. -/
structure Lists (symbols : SymbolTable) (b : Bindings)
    (entries : List (Symbol × Value)) : Prop where
  increasing : entries.Pairwise fun p q => symbols.nameOf p.1 < symbols.nameOf q.1
  mem_iff : ∀ x v, (x, v) ∈ entries ↔ b.get? x = some v

/-- The order of the names leaves no choice: however the bindings are enumerated before they are
sorted, they come out as the same list. -/
theorem Lists.unique {symbols : SymbolTable} {b : Bindings}
    {entries entries' : List (Symbol × Value)} (h : Lists symbols b entries)
    (h' : Lists symbols b entries') : entries = entries' := by
  have irrefl (x : Bytes) : ¬ x < x := List.lt_irrefl x
  have nodup {l : List (Symbol × Value)} (hl : Lists symbols b l) : l.Nodup := by
    refine List.Pairwise.imp ?_ hl.increasing
    rintro p _ hlt rfl
    exact irrefl _ hlt
  have hperm : entries.Perm entries' :=
    (List.perm_ext_iff_of_nodup (nodup h) (nodup h')).mpr fun p =>
      (h.mem_iff p.1 p.2).trans (h'.mem_iff p.1 p.2).symm
  exact hperm.eq_of_pairwise (fun p q _ _ hpq hqp => absurd (List.lt_trans hpq hqp) (irrefl _))
    h.increasing h'.increasing

/-- The text of bindings one after the other, each in brackets with its name before its value. -/
def ontoEntries (symbols : SymbolTable) (text : Value → Option Bytes → Option Bytes)
    (entries : List (Symbol × Value)) (rest : Option Bytes) : Option Bytes :=
  entries.foldr (fun p rest =>
    put (91 :: (Utf8.scrub (symbols.nameOf p.1) ++ Bytes.ofString " : "))
      (text p.2 (put [93] rest)))
    rest

/-- Wherever the scope at `e` is entered, its text is that of the entries in braces. -/
def Shows (store : Store Object) (symbols : SymbolTable) (e : Addr)
    (entries : List (Symbol × Value)) : Prop :=
  ∀ room path style rest, path.contains e.index = false →
    onto store symbols (room + 1) path style (.ref e) rest =
      put [123] (ontoEntries symbols (onto store symbols room (path.insert e.index) .canonical)
        entries (put [125] rest))

end Printer

namespace SymbolTable

variable {t : SymbolTable} {x y : Symbol}

theorem nameOf_eq {packed : ByteArray} (h : t.spelling? x = some packed) :
    t.nameOf x = Bytes.ofPacked packed := by
  rw [nameOf, nameOf?, h, Option.map_some, Option.getD_some]

theorem nameOf?_eq (h : (t.spelling? x).isSome) : t.nameOf? x = some (t.nameOf x) := by
  obtain ⟨packed, hx⟩ := Option.isSome_iff_exists.mp h
  rw [nameOf_eq hx, nameOf?, hx, Option.map_some]

theorem symbolOf_nameOf (h : (t.spelling? x).isSome) : t.symbolOf (t.nameOf x) = x := by
  obtain ⟨packed, hx⟩ := Option.isSome_iff_exists.mp h
  rw [nameOf_eq hx, symbolOf_ofPacked hx]

theorem nameOf_inj (hx : (t.spelling? x).isSome) (hy : (t.spelling? y).isSome)
    (h : t.nameOf x = t.nameOf y) : x = y := by
  rw [← symbolOf_nameOf hx, h, symbolOf_nameOf hy]

end SymbolTable

namespace Bindings

variable {b c : Bindings}

theorem toList_congr (h : ∀ x, b.get? x = c.get? x) : b.toList = c.toList := by
  have hequiv : b.values.Equiv c.values := Std.TreeMap.Equiv.of_forall_constGet?_eq fun i => h ⟨i⟩
  rw [toList, toList, hequiv.toList_eq]

/-- Every bound symbol has a name. -/
def Named (symbols : SymbolTable) (b : Bindings) : Prop :=
  ∀ x v, b.get? x = some v → (symbols.spelling? x).isSome

end Bindings

namespace Printer

variable {symbols : SymbolTable} {b : Bindings}

theorem mem_toList_ofList {κ β : Type} {cmp : κ → κ → Ordering} [Std.TransCmp cmp]
    [Std.LawfulEqCmp cmp] [DecidableEq κ] {l : List (κ × β)}
    (hl : l.Pairwise fun p q => ¬ cmp p.1 q.1 = .eq) {k : κ} {v : β} :
    (k, v) ∈ (Std.TreeMap.ofList l cmp).toList ↔ (k, v) ∈ l := by
  rw [Std.TreeMap.mem_toList_iff_getElem?_eq_some]
  have hmem {w : β} (h : (k, w) ∈ l) : (Std.TreeMap.ofList l cmp)[k]? = some w :=
    Std.TreeMap.getElem?_ofList_of_mem Std.ReflCmp.compare_self hl h
  refine ⟨fun h => ?_, hmem⟩
  by_cases hk : k ∈ l.map Prod.fst
  · obtain ⟨⟨j, w⟩, hw, hj⟩ := List.mem_map.mp hk
    cases hj
    rw [hmem hw] at h
    cases h
    exact hw
  · rw [Std.TreeMap.getElem?_ofList_of_contains_eq_false (by simpa using hk)] at h
    cases h

theorem mapM_eq_some_map {α β : Type} {f : α → Option β} {g : α → β} {l : List α}
    (h : ∀ a ∈ l, f a = some (g a)) : l.mapM f = some (l.map g) := by
  induction l with
  | nil => rfl
  | cons a l ih =>
    rw [List.mapM_cons, h a (.head _), ih fun b hb => h b (.tail _ hb)]
    rfl

/-- The bindings with the names of their symbols, in the order of the symbols. -/
def withNames (symbols : SymbolTable) (b : Bindings) : List (Bytes × Value) :=
  b.toList.map fun p => (symbols.nameOf p.1, p.2)

theorem namedBindings?_eq (h : b.Named symbols) :
    namedBindings? symbols b = some (Std.TreeMap.ofList (withNames symbols b)).toList := by
  have hnames : ∀ p ∈ b.toList, (symbols.nameOf? p.1).map (·, p.2) =
      some (symbols.nameOf p.1, p.2) := by
    intro p hp
    rw [SymbolTable.nameOf?_eq (h p.1 p.2 (Bindings.mem_toList_iff.mp hp)), Option.map_some]
  rw [namedBindings?, mapM_eq_some_map hnames]
  rfl

theorem namedBindings?_eq_some (h : b.Named symbols) :
    namedBindings? symbols b = some (namedBindings symbols b) := by
  rw [namedBindings, namedBindings?_eq h, Option.getD_some]

theorem namedBindings_eq (h : b.Named symbols) :
    namedBindings symbols b = (Std.TreeMap.ofList (withNames symbols b)).toList := by
  rw [namedBindings, namedBindings?_eq h, Option.getD_some]

theorem mem_namedBindings (h : b.Named symbols) {name : Bytes} {v : Value} :
    (name, v) ∈ namedBindings symbols b ↔ ∃ x, b.get? x = some v ∧ symbols.nameOf x = name := by
  have hdistinct : b.toList.Pairwise fun p q => p.1 ≠ q.1 := by
    rw [Bindings.toList, List.pairwise_map]
    exact Std.TreeMap.distinct_keys_toList.imp fun hne he =>
      hne (Std.LawfulEqCmp.compare_eq_iff_eq.mpr (Symbol.mk.inj he))
  have hnames : (withNames symbols b).Pairwise fun p q => ¬ compare p.1 q.1 = .eq := by
    rw [withNames, List.pairwise_map]
    refine hdistinct.imp_of_mem fun hp hq hne he => hne ?_
    rw [Std.LawfulEqCmp.compare_eq_iff_eq] at he
    exact SymbolTable.nameOf_inj (h _ _ (Bindings.mem_toList_iff.mp hp))
      (h _ _ (Bindings.mem_toList_iff.mp hq)) he
  rw [namedBindings_eq h]
  refine (mem_toList_ofList hnames).trans (List.mem_map.trans ?_)
  constructor
  · rintro ⟨⟨x, w⟩, hx, he⟩
    cases he
    exact ⟨x, Bindings.mem_toList_iff.mp hx, rfl⟩
  · rintro ⟨x, hx, rfl⟩
    exact ⟨(x, v), Bindings.mem_toList_iff.mpr hx, rfl⟩

/-- The text of named bindings goes through a list of them in which the names increase. -/
theorem exists_lists (h : b.Named symbols) :
    ∃ entries, Lists symbols b entries ∧
      namedBindings symbols b = entries.map fun p => (symbols.nameOf p.1, p.2) := by
  have hback : ∀ p ∈ namedBindings symbols b, symbols.nameOf (symbols.symbolOf p.1) = p.1 := by
    rintro ⟨name, v⟩ hp
    obtain ⟨x, hx, rfl⟩ := (mem_namedBindings h).mp hp
    rw [SymbolTable.symbolOf_nameOf (h x v hx)]
  have hmap : ((namedBindings symbols b).map fun p => (symbols.symbolOf p.1, p.2)).map
      (fun p => (symbols.nameOf p.1, p.2)) = namedBindings symbols b := by
    rw [List.map_map, List.map_congr_left (g := id) fun p hp => by simp [hback p hp], List.map_id]
  refine ⟨(namedBindings symbols b).map fun p => (symbols.symbolOf p.1, p.2),
    ⟨?_, fun x v => ?_⟩, hmap.symm⟩
  · rw [List.pairwise_map]
    have hordered : (namedBindings symbols b).Pairwise fun p q => compare p.1 q.1 = .lt := by
      rw [namedBindings_eq h]
      exact Std.TreeMap.ordered_keys_toList
    refine hordered.imp_of_mem fun hp hq hlt => ?_
    rw [hback _ hp, hback _ hq]
    exact Bytes.ord_compare_eq_lt_iff.mp hlt
  · rw [List.mem_map]
    constructor
    · rintro ⟨⟨name, w⟩, hp, he⟩
      obtain ⟨y, hy, rfl⟩ := (mem_namedBindings h).mp hp
      rw [SymbolTable.symbolOf_nameOf (h y w hy)] at he
      cases he
      exact hy
    · intro hx
      exact ⟨(symbols.nameOf x, v), (mem_namedBindings h).mpr ⟨x, hx, rfl⟩,
        by rw [SymbolTable.symbolOf_nameOf (h x v hx)]⟩

theorem shows_of_namedBindings {store : Store Object} {e : Addr} {scope : Scope}
    {entries : List (Symbol × Value)} (he : store.get? e = some (.scope scope))
    (hnamed : scope.bindings.Named symbols)
    (hentries : namedBindings symbols scope.bindings =
      entries.map fun p => (symbols.nameOf p.1, p.2)) :
    Shows store symbols e entries := by
  intro room path style rest hpath
  rw [onto, hpath, he]
  dsimp only
  rw [namedBindings?_eq_some hnamed, hentries, ontoEntries]
  dsimp only
  rw [List.foldr_map]
  rfl

/-- Printing reads a scope only through the values of its symbols. -/
theorem onto_congr {store store' : Store Object} {e : Addr} {scope scope' : Scope}
    (hother : ∀ a, a ≠ e → store'.get? a = store.get? a) (he : store.get? e = some (.scope scope))
    (he' : store'.get? e = some (.scope scope'))
    (hsame : ∀ x, scope'.bindings.get? x = scope.bindings.get? x) (symbols : SymbolTable)
    (room : Nat) : onto store' symbols room = onto store symbols room := by
  induction room with
  | zero =>
    funext path style v rest
    cases v <;> rw [onto, onto]
  | succ room ih =>
    funext path style v rest
    cases v with
    | num n => rw [onto, onto]
    | sym x => rw [onto, onto]
    | ref a =>
      rw [onto, onto, ih]
      by_cases ha : a = e
      · cases ha
        rw [he, he']
        dsimp only
        rw [namedBindings?, namedBindings?, Bindings.toList_congr hsame]
      · rw [hother a ha]

end Printer

namespace Interp

variable {s s' : Interp} {e : Addr} {scope scope' : Scope}

/-- The text of a scope depends on its bindings alone. If two interpreters differ in one scope only
and it has the same bindings in both, however they were made, every value has the same text.
Wherever the scope is entered, the same list of its bindings is shown, in which each of them stands
once and the names increase; for that the bound symbols must have names. -/
theorem scope_text_depends_on_bindings (hdepth : s'.config.maxDepth = s.config.maxDepth)
    (hsymbols : s'.symbols = s.symbols) (hother : ∀ a, a ≠ e → s'.store.get? a = s.store.get? a)
    (he : s.store.get? e = some (.scope scope)) (he' : s'.store.get? e = some (.scope scope'))
    (hsame : ∀ x, scope'.bindings.get? x = scope.bindings.get? x) :
    (∀ style v, s'.render? style v = s.render? style v) ∧
    (scope.bindings.Named s.symbols → ∃ entries, Printer.Lists s.symbols scope.bindings entries ∧
      (∀ others, Printer.Lists s.symbols scope.bindings others → others = entries) ∧
      Printer.Shows s.store s.symbols e entries ∧ Printer.Shows s'.store s'.symbols e entries) := by
  have htext (room : Nat) :
      Printer.onto s'.store s.symbols room = Printer.onto s.store s.symbols room :=
    Printer.onto_congr hother he he' hsame s.symbols room
  refine ⟨fun style v => ?_, fun hnamed => ?_⟩
  · rw [render?, render?, Printer.render, Printer.render, hdepth, hsymbols, htext]
  · obtain ⟨entries, hlists, hentries⟩ := Printer.exists_lists hnamed
    have hshows : Printer.Shows s.store s.symbols e entries :=
      Printer.shows_of_namedBindings he hnamed hentries
    refine ⟨entries, hlists, fun others hothers => hothers.unique hlists, hshows, ?_⟩
    intro room path style rest hpath
    rw [hsymbols, htext, htext, hshows room path style rest hpath]

/-- One of the two scopes had more bindings, of which one was taken away again, and others values at
first. -/
theorem scope_text_depends_on_bindings_built_twice :
    let b := (Bindings.empty.insert .t (.ref ⟨0⟩)).insert .rest (.num 1)
    let b' :=
      (((((Bindings.empty.insert .rest (.num 7)).insert .lambda .nil).insert .t .nil).erase
        .lambda).insert
      .rest (.num 1)).insert .t (.ref ⟨0⟩)
    let s := { bare ⟨2, 65536, false⟩ .empty 0 with store := Store.empty.insert (.scope ⟨b, none⟩) }
    let s' :=
      { bare ⟨2, 65536, false⟩ .empty 0 with store := Store.empty.insert (.scope ⟨b', none⟩) }
    s.render? .canonical (.ref ⟨0⟩) = some (Bytes.ofString "\x7b[&rest : 1][t : ...]\x7d") ∧
    (∀ style v, s'.render? style v = s.render? style v) ∧
    ∃ entries, Printer.Lists s.symbols b entries ∧
      (∀ others, Printer.Lists s.symbols b others → others = entries) ∧
      Printer.Shows s.store s.symbols ⟨0⟩ entries ∧
      Printer.Shows s'.store s'.symbols ⟨0⟩ entries := by
  intro b b' s s'
  have hsame (x : Symbol) : b'.get? x = b.get? x := by
    simp only [b, b', Bindings.get?_insert, Bindings.get?_erase]
    by_cases ht : x = .t
    · subst ht
      rfl
    · rw [if_neg ht, if_neg ht, if_neg ht]
      split
      · rfl
      · split <;> rfl
  have hnamed : b.Named s.symbols := by
    intro x v hx
    simp only [b, Bindings.get?_insert] at hx
    split at hx
    · subst x
      decide +kernel
    · split at hx
      · subst x
        decide +kernel
      · cases hx
  have hother (a : Addr) (ha : a ≠ ⟨0⟩) : s'.store.get? a = s.store.get? a := by
    have hnext : a ≠ (Store.empty : Store Object).next := ha
    rw [Store.WellFormed.empty.get?_insert, Store.WellFormed.empty.get?_insert, if_neg hnext,
      if_neg hnext]
  have hb : s.store.get? ⟨0⟩ = some (.scope ⟨b, none⟩) := rfl
  have hb' : s'.store.get? ⟨0⟩ = some (.scope ⟨b', none⟩) := rfl
  have hdepth : s'.config.maxDepth = s.config.maxDepth := rfl
  obtain ⟨htext, hentries⟩ := scope_text_depends_on_bindings hdepth rfl hother hb hb' hsame
  exact ⟨by decide +kernel, htext, hentries hnamed⟩

end Interp

end HeapLisp
