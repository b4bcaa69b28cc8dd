import HeapLisp.Proofs.Host.Hosting
import HeapLisp.Proofs.Reader.Elision
import HeapLisp.Proofs.Reader.Numerals

namespace HeapLisp

theorem Numeral.decimal_injective {m n : Nat} (h : decimal m = decimal n) : m = n := by
  have hm := unsigned_decimal (Nat.le_max_left m n)
  rw [h, unsigned_decimal (Nat.le_max_right m n)] at hm
  exact (Option.some.inj hm).symm

/-- The name that a number makes: a G, and the number. -/
def generatedName (n : Nat) : Bytes := 71 :: Numeral.decimal n

theorem generatedName_injective {m n : Nat} (h : generatedName m = generatedName n) : m = n :=
  Numeral.decimal_injective (List.cons.inj h).2

namespace SymbolTable

variable {t : SymbolTable} {last m n tries : Nat}

/-- There are no more different interned names than the size tells. -/
theorem length_le_size {names : List Bytes} (hdistinct : names.Nodup)
    (h : ∀ name ∈ names, (t.find? name).isSome = true) :
    names.length ≤ t.size := by
  have hinj : Function.Injective List.toByteArray := by
    intro name other he
    rw [← Bytes.ofPacked_toByteArray name, he, Bytes.ofPacked_toByteArray]
  have hsubset : names.map List.toByteArray ⊆ t.names.toList := by
    intro packed hpacked
    obtain ⟨name, hname, rfl⟩ := List.mem_map.mp hpacked
    obtain ⟨x, hx⟩ := Option.isSome_iff_exists.mp (h name hname)
    have hspelling := Array.mem_of_getElem? (spelling?_of_find? hx)
    exact Array.mem_toList_iff.mpr hspelling
  have hle := ((hdistinct.map hinj).subperm hsubset).length_le
  rwa [List.length_map, Array.length_toList] at hle

/-- `n` is the first number after `last` whose name is not interned. -/
structure FirstFree (t : SymbolTable) (last n : Nat) : Prop where
  lt : last < n
  free : t.find? (generatedName n) = none
  taken : ∀ m, last < m → m < n → (t.find? (generatedName m)).isSome = true

theorem FirstFree.unique (hm : t.FirstFree last m) (hn : t.FirstFree last n) : m = n := by
  have notLess {m n : Nat} (hm : t.FirstFree last m) (hn : t.FirstFree last n) : ¬m < n := by
    intro hlt
    have htaken := hn.taken m hm.lt hlt
    rw [hm.free] at htaken
    cases htaken
  exact Nat.le_antisymm (Nat.le_of_not_lt (notLess hn hm)) (Nat.le_of_not_lt (notLess hm hn))

/-- The names that consecutive numbers make. -/
def generatedNames (last count : Nat) : List Bytes :=
  (List.range' (last + 1) count).map generatedName

theorem nodup_generatedNames (last count : Nat) : (generatedNames last count).Nodup :=
  (List.nodup_range').map fun _ _ => generatedName_injective

/-- As many names may be taken as the table has, less those that no number makes. -/
theorem length_add_le_size {others : List Bytes} (count : Nat) (hdistinct : others.Nodup)
    (hothers : ∀ name ∈ others, (t.find? name).isSome = true ∧ ∀ k, name ≠ generatedName k)
    (htaken : ∀ m, last < m → m ≤ last + count → (t.find? (generatedName m)).isSome = true) :
    others.length + count ≤ t.size := by
  have hall : (others ++ generatedNames last count).length ≤ t.size := by
    apply length_le_size
    · refine List.nodup_append.mpr ⟨hdistinct, nodup_generatedNames last count, ?_⟩
      intro name hname other hother
      obtain ⟨k, _, rfl⟩ := List.mem_map.mp hother
      exact (hothers name hname).2 k
    · intro name hname
      rcases List.mem_append.mp hname with hname | hname
      · exact (hothers name hname).1
      · obtain ⟨m, hm, rfl⟩ := List.mem_map.mp hname
        rw [List.mem_range'_1] at hm
        exact htaken m (by omega) (by omega)
  simpa [generatedNames] using hall

theorem FirstFree.le_size (h : t.FirstFree last n) {others : List Bytes} (hdistinct : others.Nodup)
    (hothers : ∀ name ∈ others, (t.find? name).isSome = true ∧ ∀ k, name ≠ generatedName k) :
    n + others.length ≤ last + t.size + 1 := by
  have hlt := h.lt
  have hcount := length_add_le_size (n - 1 - last) hdistinct hothers fun m hm hle =>
    h.taken m hm (by omega)
  omega

end SymbolTable

namespace Interp

open SymbolTable

variable {t : SymbolTable} {s s' : Interp} {last tries : Nat}

/-- The numbers are tried one by one, up to one whose name is free or as long as there are tries
left. -/
theorem freshNumber_tries (t : SymbolTable) (tries last : Nat) :
    last < freshNumber t tries last ∧
    (∀ m, last < m → m < freshNumber t tries last → (t.find? (generatedName m)).isSome = true) ∧
    (t.find? (generatedName (freshNumber t tries last)) = none ∨
      freshNumber t tries last = last + tries + 1) := by
  induction tries generalizing last with
  | zero => exact ⟨Nat.lt_succ_self last, fun m hm hlt => absurd hlt (Nat.not_lt.mpr hm), .inr rfl⟩
  | succ tries ih =>
    rw [freshNumber]
    cases hfind : t.find? (71 :: Numeral.decimal (last + 1)) with
    | none =>
      exact ⟨Nat.lt_succ_self last, fun m hm hlt => absurd hlt (Nat.not_lt.mpr hm), .inl hfind⟩
    | some x =>
      obtain ⟨hlt, htaken, hend⟩ := ih (last + 1)
      refine ⟨Nat.lt_of_succ_lt hlt, ?_, ?_⟩
      · intro m hm hless
        rcases Nat.eq_or_lt_of_le hm with rfl | hm
        · exact Option.isSome_iff_exists.mpr ⟨x, hfind⟩
        · exact htaken m hm hless
      · rwa [Nat.add_right_comm last 1 tries] at hend

/-- With as many tries as there are names, the first free number is found. -/
theorem firstFree_freshNumber (h : t.size ≤ tries) (last : Nat) :
    t.FirstFree last (freshNumber t tries last) := by
  obtain ⟨hlt, htaken, hend⟩ := freshNumber_tries t tries last
  refine ⟨hlt, ?_, htaken⟩
  rcases hend with hfree | hlast
  · exact hfree
  · -- One more name than there are tries would be taken.
    rw [← Option.not_isSome_iff_eq_none]
    intro hsome
    have hall : ∀ m, last < m → m ≤ last + (tries + 1) →
        (t.find? (generatedName m)).isSome = true := by
      intro m hm hle
      rcases Nat.eq_or_lt_of_le hle with rfl | hless
      · rwa [hlast] at hsome
      · exact htaken m hm (by omega)
    have hcount := length_add_le_size (tries + 1) List.nodup_nil (by simp) hall
    simp at hcount
    omega

/-- `x` is a symbol that was not there before, with the name that `n` makes; all other names and
symbols, and all else, are as they were. -/
structure GainsSymbol (s : Interp) (n : Nat) (x : Symbol) (s' : Interp) : Prop where
  unnamed : s.symbols.spelling? x = none
  free : s.symbols.find? (generatedName n) = none
  named : s'.symbols.spelling? x = some (generatedName n).toByteArray
  names : ∀ name, name ≠ generatedName n → s'.symbols.find? name = s.symbols.find? name
  symbols : ∀ y, y ≠ x → s'.symbols.spelling? y = s.symbols.spelling? y
  rest : s' = { s with symbols := s'.symbols, generated := n }

theorem gensym_gains (s : Interp) :
    s.GainsSymbol (freshNumber s.symbols s.symbols.size s.generated) s.gensym.1 s.gensym.2 := by
  have hfree := (firstFree_freshNumber (Nat.le_refl s.symbols.size) s.generated).free
  generalize hn : freshNumber s.symbols s.symbols.size s.generated = n at hfree ⊢
  have hgensym :
      s.gensym =
          (⟨s.symbols.size⟩,
              { s with symbols := s.symbols.insert (generatedName n), generated := n }) := by
    rw [← symbolOf_of_none hfree, gensym, hn]
    rfl
  rw [hgensym]
  refine ⟨Array.getElem?_size, hfree, ?_, ?_, ?_, rfl⟩
  · rw [← symbolOf_of_none hfree]
    exact spelling?_symbolOf s.symbols (generatedName n)
  · intro name hne
    exact (find?_insert s.symbols (generatedName n) name).trans (if_neg hne)
  · intro y hne
    rw [← symbolOf_of_none hfree] at hne
    exact spelling?_insert_of_ne hne

theorem installAll_extends (ns : List Native) (s : Interp) :
    s.symbols.Extends (ns.foldl install s).symbols := by
  induction ns generalizing s with
  | nil => exact .refl s.symbols
  | cons n ns ih => exact (SymbolTable.Extends.insert s.symbols _).trans (ih (s.install n))

theorem new_extends (config : Config) (disk : Disk) (clock : Int64) :
    (SymbolTable.empty.internAll Symbol.wellKnown).Extends (new config disk clock).symbols := by
  unfold new
  refine SymbolTable.Extends.trans ?_ (installAll_extends Native.all _)
  exact .refl (bare config disk clock).symbols

mutual

theorem build_extends : (f : Form) → ∀ s : Interp, s.symbols.Extends (s.build f).2.symbols
  | .num _, s | .str _, s => .refl s.symbols
  | .sym name, s => .insert s.symbols name
  | .list items, s => buildAll_extends items s

theorem buildAll_extends :
    (fs : List Form) → ∀ s : Interp, s.symbols.Extends (s.buildAll fs).2.symbols
  | [], s => .refl s.symbols
  | f :: fs, s => (build_extends f s).trans (buildAll_extends fs _)

end

end Interp

namespace Effect

variable {s s' : Interp}

theorem readout_extends (reading : Reading) (s : Interp) :
    s.symbols.Extends (readout reading s).2.symbols := by
  cases reading with
  | ended => exact .refl s.symbols
  | form f => exact s.build_extends f
  | failed e complete => exact s.buildAll_extends complete

theorem readFrom_extends {source : Source} {mark : Bookmark} {r : Readout × Bookmark × Source}
    (h : readFrom source mark s = some (r, s')) : s.symbols.Extends s'.symbols := by
  cases source with
  | own stream =>
    cases h
    exact readout_extends _ s
  | object a =>
    rw [readFrom] at h
    split at h
    · cases h
    · rename_i stream _
      generalize stream.readForm s.disk s.config.maxDepth mark = read at h
      cases h
      exact readout_extends read.1 { s with store := s.store.set a (.input read.2.2) }
    · cases h
      exact .refl s.symbols

theorem exists_stored_of_readFrom {source source' : Source} {mark mark' : Bookmark} {v : Value}
    (hw : s.store.WellFormed) (h : readFrom source mark s = some ((.value v, mark', source'), s')) :
    ∃ f, s'.Stored f v := by
  have stored {stream : InputStream} (hstream : source.stream? s = some stream) :
      ∃ f, s'.Stored f v := by
    rcases hform : stream.readForm s.disk s.config.maxDepth mark with ⟨reading, mark₁, stream₁⟩
    obtain ⟨r, s₁, hread, _, hreads, _⟩ := readFrom_stream hw hstream hform
    cases hread.symm.trans h
    cases hreads with
    | value hf => exact ⟨_, hf⟩
  cases source with
  | own stream => exact stored rfl
  | object a =>
    have hread := h
    rw [readFrom] at hread
    split at hread
    · cases hread
    · exact stored (by rw [Source.stream?, ‹s.store.get? a = _›])
    · cases hread

/-- Whatever an effect does, every symbol keeps its name. -/
theorem perform_extends {e : Effect} {r : e.Reply} (h : e.perform s = some (r, s')) :
    s.symbols.Extends s'.symbols := by
  cases e with
  | intern name =>
    cases h
    exact .insert s.symbols name
  | gensym =>
    cases h
    exact .insert s.symbols _
  | readForm source mark => exact readFrom_extends h
  | alloc | print | echoes | clock | openFile | save =>
    cases h
    exact .refl s.symbols
  | tidy roots =>
    cases h
    unfold tidyUp
    split <;> exact .refl s.symbols
  | fetch | updateItems | lookup | define | assign | restore | copy | spelling | sameText | position
  | render | readByte | readLine | append =>
    rw [perform] at h
    split at h <;> cases h <;> exact .refl s.symbols
  | overrun => cases h

end Effect

/-- A step performs an effect, or changes nothing of the interpreter but its depth. -/
theorem Machine.interp_of_step {m m' : Machine} (h : m.step = .running m') :
    (∃ depth, m'.interp = { m.interp with depth }) ∨ ∃ (e : Effect) (r : e.Reply),
      e.perform m.interp = some (r, m'.interp) := by
  obtain ⟨x, stack, s⟩ := m
  cases x with
  | done | fail =>
    cases stack with
    | nil => cases h
    | cons k stack =>
      cases h
      exact .inl ⟨_, rfl⟩
  | effect e k =>
    rw [step] at h
    split at h <;> cases h
    exact .inr ⟨e, _, ‹_›⟩
  | call c k =>
    rw [step] at h
    split at h <;> cases h <;> exact .inl ⟨_, rfl⟩
  | native | loop =>
    cases h
    exact .inl ⟨_, rfl⟩

theorem Machine.interp_of_finished {m : Machine} {r : Except Addr Value} {s : Interp}
    (h : m.step = .finished r s) :
    s = m.interp := by
  obtain ⟨x, stack, t⟩ := m
  cases x with
  | done | fail =>
    cases stack with
    | nil =>
      cases h
      rfl
    | cons k stack => cases h
  | effect e k =>
    rw [step] at h
    split at h <;> cases h
  | call c k =>
    rw [step] at h
    split at h <;> cases h
  | native | loop => cases h

namespace Hosting

variable {σ σ' τ τ' : Hosting} {x y : Symbol}

/-- The names that an interpreter and its host know. -/
def symbols (σ : Hosting) : SymbolTable := σ.stage.interp.symbols

theorem symbols_idle (s : Interp) (held : Set Addr) : symbols ⟨.idle s, held⟩ = s.symbols := rfl

theorem Step.symbols_extend (h : σ.Step τ) : σ.symbols.Extends τ.symbols := by
  cases h with
  | world | look | start => exact .refl _
  | @grant s _ _ q _ _ hx hr =>
    cases q with
    | intern name =>
      cases hr
      exact .insert s.symbols name
    | setGlobal name v =>
      cases hr
      exact .insert s.symbols name
    | collect | newList | newText =>
      cases hr
      exact .refl s.symbols
    | evalText | load | converse | eval | apply | progn | fill | bind | raise => cases hx
  | @work m m' _ hm =>
    show m.interp.symbols.Extends m'.interp.symbols
    rcases Machine.interp_of_step hm with ⟨depth, hsame⟩ | ⟨e, r, he⟩
    · rw [hsame]
      exact .refl m.interp.symbols
    · exact Effect.perform_extends he
  | @finish m s _ _ hm =>
    show m.interp.symbols.Extends s.symbols
    rw [Machine.interp_of_finished hm]
    exact .refl m.interp.symbols

theorem symbols_extend_of_steps (h : Relation.ReflTransGen Step σ τ) :
    σ.symbols.Extends τ.symbols := by
  induction h with
  | refl => exact .refl σ.symbols
  | tail _ hstep ih => exact ih.trans hstep.symbols_extend

/-- The step gives a program a symbol: one with a name of its choice, one that is in a form that it
reads, or a generated one. -/
inductive Obtains : Hosting → Hosting → Symbol → Prop where
  | symbol {name : Bytes} {k : Symbol → Eval Value} {stack : List Frame} {s : Interp}
    {held : Set Addr} :
    Obtains ⟨.busy ⟨.effect (.intern name) k, stack, s⟩, held⟩
      ⟨.busy ⟨k (s.intern name).1, stack, (s.intern name).2⟩,
        remaining held (s.intern name).2.store⟩ (s.intern name).1
  | read {source source' : Source} {mark mark' : Bookmark}
    {k : Readout × Bookmark × Source → Eval Value} {stack : List Frame}
    {s s' : Interp} {held : Set Addr} {v : Value} {depth : Nat} {x : Symbol}
    (hread : Effect.readFrom source mark s = some ((.value v, mark', source'), s'))
    (hx : s'.store.Nested v depth (.sym x)) :
    Obtains ⟨.busy ⟨.effect (.readForm source mark) k, stack, s⟩, held⟩
      ⟨.busy ⟨k (.value v, mark', source'), stack, s'⟩, remaining held s'.store⟩ x
  | generated {k : Symbol → Eval Value} {stack : List Frame} {s : Interp} {held : Set Addr} :
    Obtains ⟨.busy ⟨.effect .gensym k, stack, s⟩, held⟩
      ⟨.busy ⟨k s.gensym.1, stack, s.gensym.2⟩, remaining held s.gensym.2.store⟩ s.gensym.1

theorem Obtains.step (h : σ.Obtains τ x) : σ.Step τ := by
  cases h with
  | symbol => exact .work rfl
  | read hread _ =>
    apply Step.work
    rw [Machine.step, Effect.perform, hread]
  | generated => exact .work rfl

theorem Reached.wellFormed (h : σ.Reached) : σ.stage.interp.store.WellFormed := by
  obtain ⟨M, hM⟩ := h.guarded
  exact hM.stage.seals.stores.left.toWellFormed

theorem Reached.knows (h : σ.Reached) :
    (SymbolTable.empty.internAll Symbol.wellKnown).Extends σ.symbols := by
  obtain ⟨config, disk, clock, hpath⟩ := h
  have hsteps := symbols_extend_of_steps hpath
  rw [symbols_idle] at hsteps
  exact (Interp.new_extends config disk clock).trans hsteps

theorem Obtains.exists_spelling (h : σ.Obtains τ x) (hσ : σ.Reached) :
    ∃ packed, τ.symbols.spelling? x = some packed := by
  have hw := hσ.wellFormed
  cases h with
  | @symbol name _ _ s => exact ⟨_, SymbolTable.spelling?_symbolOf s.symbols name⟩
  | read hread hx =>
    obtain ⟨f, hf⟩ := Effect.exists_stored_of_readFrom hw hread
    obtain ⟨g, hg, _⟩ := hf.nested hx
    cases hg with
    | sym hname => exact ⟨_, hname⟩
  | @generated _ _ s => exact ⟨_, s.gensym_gains.named⟩

/-- The name of `nil` is taken and no number makes it, so the first free number is at most as far
away as there are names. -/
theorem Reached.firstFree_le (h : σ.Reached) {last n : Nat} (hn : σ.symbols.FirstFree last n) :
    n ≤ last + σ.symbols.size := by
  have hmem : Bytes.ofString "nil" ∈ Symbol.wellKnown := .head _
  obtain ⟨x, hx⟩ := Option.isSome_iff_exists.mp ((SymbolTable.find?_internAll_isSome _ _).mpr hmem)
  have hnil := hn.le_size (List.nodup_singleton (Bytes.ofString "nil")) <| by
    intro name hname
    rw [List.mem_singleton.mp hname, h.knows.find? hx]
    exact ⟨rfl, fun k hk => absurd (List.cons.inj hk).1 (by decide)⟩
  rw [List.length_singleton] at hnil
  omega

/-- A symbol that has a name is not generated, however much later. -/
theorem gensym_ne_of_steps {k : Symbol → Eval Value} {stack : List Frame} {s : Interp}
    {held : Set Addr} {packed : ByteArray} (hx : σ.symbols.spelling? x = some packed)
    (h : Relation.ReflTransGen Step σ ⟨.busy ⟨.effect .gensym k, stack, s⟩, held⟩) :
    s.gensym.1 ≠ x := by
  have hlater : s.symbols.spelling? x = some packed := (symbols_extend_of_steps h).spelled hx
  rintro rfl
  rw [s.gensym_gains.unnamed] at hlater
  cases hlater

end Hosting

/-- Generating a symbol ends with the name of the first free number, which was not interned and is
then the name of a new symbol; nothing else changes. In what a host can come to this number fits a
machine word when the numbers and the names together do, and no symbol that a program obtained,
generated ones included, is generated again; nor is any other symbol that has a name. -/
theorem Hosting.generated_symbols_are_new :
    (∀ (s : Interp) (scope : Addr), ∃ n x s', s.symbols.FirstFree s.generated n ∧
      (∀ tries, s.symbols.size ≤ tries → Interp.freshNumber s.symbols tries s.generated = n) ∧
      (∃ fuel, s.run fuel (Eval.runPrimitive scope .gensym []) = .finished (.ok (.sym x)) s') ∧
      s.GainsSymbol n x s') ∧
    (∀ σ : Hosting, σ.Reached →
      (∀ n, σ.symbols.FirstFree σ.stage.interp.generated n →
        σ.stage.interp.generated + σ.symbols.size < 2 ^ 64 → n < 2 ^ 64) ∧
      (∀ τ x, σ.Obtains τ x → σ.Step τ ∧ ∃ packed, τ.symbols.spelling? x = some packed ∧
        ∀ k stack s held, Relation.ReflTransGen Step τ ⟨.busy ⟨.effect .gensym k, stack, s⟩, held⟩ →
          s.symbols.spelling? x = some packed ∧ s.gensym.1 ≠ x)) ∧
    (∀ (σ : Hosting) (x : Symbol), (σ.symbols.spelling? x).isSome = true →
      ∀ k stack s held, Relation.ReflTransGen Step σ ⟨.busy ⟨.effect .gensym k, stack, s⟩, held⟩ →
        s.gensym.1 ≠ x) := by
  refine ⟨?_, ?_, ?_⟩
  · intro s scope
    have hfirst := Interp.firstFree_freshNumber (Nat.le_refl s.symbols.size) s.generated
    refine ⟨_, s.gensym.1, s.gensym.2, hfirst, ?_, ⟨2, rfl⟩, s.gensym_gains⟩
    intro tries htries
    exact (Interp.firstFree_freshNumber htries s.generated).unique hfirst
  · intro σ hσ
    refine ⟨?_, ?_⟩
    · intro n hn hbound
      exact Nat.lt_of_le_of_lt (hσ.firstFree_le hn) hbound
    · intro τ x hx
      obtain ⟨packed, hpacked⟩ := hx.exists_spelling hσ
      refine ⟨hx.step, packed, hpacked, ?_⟩
      intro k stack s held hsteps
      exact ⟨(symbols_extend_of_steps hsteps).spelled hpacked, gensym_ne_of_steps hpacked hsteps⟩
  · intro σ x hx k stack s held hsteps
    obtain ⟨packed, hpacked⟩ := Option.isSome_iff_exists.mp hx
    exact gensym_ne_of_steps hpacked hsteps

/-- Where the names of one and two are interned and no symbol was generated yet, the third name is
taken, and then another one. -/
theorem Hosting.generated_symbols_are_new_third :
    let s :=
      { Interp.bare ⟨1, 65536, false⟩ .empty 0 with
        symbols := SymbolTable.empty.internAll (SymbolTable.generatedNames 0 2) }
    (∃ x s',
      (∃ fuel, s.run fuel (Eval.runPrimitive s.root .gensym []) = .finished (.ok (.sym x)) s') ∧
      s.GainsSymbol 3 x s') ∧
      s.gensym.2.gensym.1 ≠ s.gensym.1 := by
  intro s
  have hthird : s.symbols.FirstFree s.generated 3 := by
    refine ⟨by decide, ?_, ?_⟩
    · exact (SymbolTable.find?_internAll _ _).trans (if_neg (by decide +kernel))
    · intro m hlt hle
      exact (SymbolTable.find?_internAll_isSome _ _).mpr
        (List.mem_map_of_mem (List.mem_range'_1.mpr ⟨hlt, hle⟩))
  obtain ⟨hnew, _, hnever⟩ := generated_symbols_are_new
  obtain ⟨n, x, s', hfirst, _, hrun, hgains⟩ := hnew s s.root
  rw [hfirst.unique hthird] at hgains
  refine ⟨⟨x, s', hrun, hgains⟩, ?_⟩
  have hnamed : (s.gensym.2.symbols.spelling? s.gensym.1).isSome = true :=
    Option.isSome_iff_exists.mpr ⟨_, s.gensym_gains.named⟩
  exact hnever ⟨.busy ⟨.effect .gensym fun y => .done (.sym y), [], s.gensym.2⟩,
    ∅⟩ _ hnamed _ _ _ _ .refl

end HeapLisp
