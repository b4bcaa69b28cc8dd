import HeapLisp.Host
import HeapLisp.Proofs.Matching.States

namespace HeapLisp

namespace Interp.Owns

variable {s : Interp} {a : Addr} {o : Object} {v : Value}

theorem num (s : Interp) (n : Int64) : s.Owns (.num n) :=
  ⟨Value.live_num _ n, by simp [Value.Named]⟩

theorem sym {x : Symbol} (hx : (s.symbols.spelling? x).isSome) : s.Owns (.sym x) := by
  refine ⟨Value.live_sym _ x, ?_⟩
  rintro _ ⟨⟩
  exact hx

theorem ref (ha : s.store.get? a = some o) : s.Owns (.ref a) :=
  ⟨Value.live_ref ha, by simp [Value.Named]⟩

end Interp.Owns

namespace Matching

variable {s : Interp} {a : Addr} {v : Value}

/-- Every live address and every symbol that has a name stands for itself. -/
def self (s : Interp) : Matching where
  pairs k a b := a = b ∧ ∃ o, s.store.get? a = some o ∧ o.kind = k
  form _ a b := a = b ∧ s.store.contains a = true
  knows x := (s.symbols.spelling? x).isSome ∨ x.index < Symbol.wellKnown.length
  unique := by
    rintro k l a b c d ⟨rfl, _⟩ ⟨rfl, _⟩
    rfl
  wellKnown h := .inr h

theorem self_pair (h : s.store.contains a = true) : (self s).Pair a a := by
  obtain ⟨o, ho⟩ := Store.contains_iff.mp h
  exact ⟨o.kind, rfl, o, ho, rfl⟩

theorem self_values (h : s.Owns v) : (self s).Values v v := by
  cases v with
  | num n => exact .num n
  | sym x => exact .sym (.inl (h.named x rfl))
  | ref a => exact .ref (self_pair (h.live a rfl))

theorem self_lists {vs : List Value} (h : ∀ v ∈ vs, s.Owns v) : (self s).Lists vs vs :=
  List.forall₂_same.mpr fun v hv => self_values (h v hv)

theorem self_objects {o : Object} (h : ∀ c ∈ o.children, s.store.contains c = true)
    (hx : ∀ x, o.Uses x → (s.symbols.spelling? x).isSome) : (self s).Objects o o := by
  cases o with
  | str text => exact .str text
  | list items =>
    refine .list (self_lists fun v hv => ⟨?_, ?_⟩)
    · rintro a rfl
      exact h a (Object.mem_children_list.mpr hv)
    · rintro x rfl
      exact hx x hv
  | scope e =>
    refine .scope ⟨fun y => ?_, fun {y v} hy => .inl (hx y (.inl ⟨v, hy⟩))⟩ ?_
    · cases hy : e.bindings.get? y with
      | none => exact .none
      | some v =>
        refine .some (self_values ⟨?_, ?_⟩)
        · rintro a rfl
          exact h a (Object.mem_children_scope.mpr (.inl ⟨y, hy⟩))
        · rintro x rfl
          exact hx x (.inr ⟨y, hy⟩)
    · cases hp : e.parent with
      | none => exact .none
      | some a => exact .some (self_pair (h a (Object.mem_children_scope.mpr (.inr hp))))
  | function f =>
    cases f with
    | native n => exact .function (.native n)
    | closure c =>
      have hform : c.form ∈ (Object.function (.closure c)).children := .head _
      have hscope : c.scope ∈ (Object.function (.closure c)).children := .tail _ (.head _)
      exact .function (.closure ⟨rfl, ⟨rfl, h _ hform⟩, self_pair (h _ hscope)⟩)
  | failure f =>
    refine .failure f.fault f.location (self_values ⟨fun a ha => ?_, fun x he => hx x he⟩)
    exact h a (Object.mem_children_failure.mpr ha)
  | input stream => exact .input stream
  | output written => exact .output written

theorem self_stores (h : s.store.Intact) (hn : s.store.NamedBy s.symbols) :
    (self s).Stores s.store s.store where
  left := h
  right := h
  leftUses := hn.mono fun _ hx => .inl hx
  rightUses := hn.mono fun _ hx => .inl hx
  objects := by
    rintro k a _ ⟨rfl, o, ho, hk⟩
    exact ⟨o, o, ho, ho, hk, self_objects (h.closed ho) (hn ho)⟩
  form := by
    rintro k a _ ⟨rfl, ha⟩
    exact ⟨ha, ha⟩

theorem self_overt (s : Interp) : (self s).Overt := by
  rintro k a _ ⟨rfl, ha⟩
  exact self_pair ha

/-- As long as all of a store stands for itself, its values stand for themselves only. -/
theorem eq_of_self_le {N : Matching} {w : Value} (hle : self s ≤ N) (hv : v.Live s.store)
    (h : N.Values v w) : w = v := by
  cases h with
  | num n => rfl
  | sym hs => rfl
  | ref hp => rw [((self_pair (hv _ rfl)).mono hle).eq_iff hp |>.mp rfl]

theorem lists_eq_of_self_le {N : Matching} {vs ws : List Value} (hle : self s ≤ N)
    (hvs : ∀ v ∈ vs, v.Live s.store) (h : N.Lists vs ws) : ws = vs := by
  induction h with
  | nil => rfl
  | cons hv _ ih =>
    rw [eq_of_self_le hle (hvs _ (.head _)) hv, ih fun v hv => hvs v (.tail _ hv)]

end Matching

namespace Interp

variable {s t : Interp} {v : Value}

/-- No object refers to a dead address or holds a symbol without a name, the symbols that evaluation
knows have names, and the root is a scope. -/
structure Whole (s : Interp) : Prop where
  intact : s.store.Intact
  named : s.store.NamedBy s.symbols
  wellKnown : ∀ {x : Symbol}, x.index < Symbol.wellKnown.length → (s.symbols.spelling? x).isSome
  root : ∃ scope, s.store.get? s.root = some (.scope scope)

/-- The interpreter is whole and nothing is being evaluated. -/
structure Sound (s : Interp) : Prop extends Whole s where
  depth : s.depth = 0

/-- A value of the interpreter, or the address of an error object in it. -/
def Holds (s : Interp) : Except Addr Value → Prop
  | .ok v => s.Owns v
  | .error e => ∃ f, s.store.get? e = some (.failure f)

theorem Whole.states (h : s.Whole) : States true (.self s) s s where
  stores := Matching.self_stores h.intact h.named
  overt := Matching.self_overt s
  root := by
    obtain ⟨scope, hr⟩ := h.root
    exact ⟨rfl, _, hr, rfl⟩
  symbols := rfl
  named _ hx := hx.elim id h.wellKnown
  maxDepth := rfl
  echo := rfl
  depth := rfl
  generated := rfl
  console := rfl
  disk := rfl
  clock _ := rfl

theorem Whole.owns_nil (h : s.Whole) : s.Owns .nil := .sym (h.wellKnown (by decide))

theorem whole_of_states {timed : Bool} {N : Matching} (h : States timed N s t) :
    s.Whole ∧ t.Whole := by
  have hn : N.NamedIn t.symbols := h.symbols ▸ h.named
  obtain ⟨o, p, ho, hp, hk, hop⟩ := h.stores.objects h.root
  cases hop with
  | scope =>
    exact ⟨⟨h.stores.left, h.stores.leftUses.mono h.named, fun hx =>
      h.named _ (N.wellKnown hx), _, ho⟩,
      ⟨h.stores.right, h.stores.rightUses.mono hn, fun hx => hn _ (N.wellKnown hx), _, hp⟩⟩
  | str | list | function | failure | input | output => cases hk

theorem sound_of_states {timed : Bool} {N : Matching} (h : States timed N s t)
    (hd : s.depth = 0) : s.Sound :=
  { (whole_of_states h).1 with depth := hd }

theorem owns_of_states {timed : Bool} {N : Matching} {w : Value} (h : States timed N s t)
    (hv : N.Values v w) : s.Owns v :=
  ⟨h.stores.live_values hv, h.named.values hv⟩

theorem holds_of_ending {timed : Bool} {N : Matching} {r r' : Except Addr Value}
    (h : States timed N s t) (he : N.Ending N.Values r r') : s.Holds r := by
  cases he with
  | ok hv => exact owns_of_states h hv
  | error hp =>
    obtain ⟨o, _, ho, _, hk, _⟩ := h.stores.objects hp
    cases o with
    | failure f => exact ⟨f, ho⟩
    | str | list | scope | function | input | output => cases hk

/-- A run that is like itself comes to a sound end, if it comes to an end. -/
theorem Sound.run {P : Post Value} {x : Eval Value} (h : s.Sound) (hx : Alike true P (.self s) x x)
    (hP : ∀ N r t, P N r t → N.Ending N.Values r t) (fuel : Nat) :
    s.run fuel x = .outOfFuel ∨ ∃ r s', s.run fuel x = .finished r s' ∧ s'.Sound ∧ s'.Holds r := by
  have hm : (Simulation.matching true).Machines P (.self s) ⟨x, [], s⟩ ⟨x, [], s⟩ :=
    ⟨h.states, h.depth, true, P, .base, hx⟩
  have ho := Simulation.run hm fuel (by rintro ⟨⟩)
  rw [Interp.run]
  generalize Machine.run fuel ⟨x, [], s⟩ = o at ho ⊢
  cases ho with
  | finished hq hs hd =>
    exact .inr ⟨_, _, rfl, sound_of_states hs hd, holds_of_ending hs (hP _ _ _ hq)⟩
  | outOfFuel => exact .inl rfl

/-- The interned symbol has a name from then on. -/
theorem Sound.intern (h : s.Sound) (name : Bytes) :
    (s.intern name).2.Sound ∧ (s.intern name).2.Owns (.sym (s.intern name).1) := by
  obtain ⟨N, _, hx, _, hs, _⟩ := h.states.intern name
  exact ⟨sound_of_states hs h.depth, owns_of_states hs (.sym hx)⟩

theorem Owns.intern (h : s.Owns v) (name : Bytes) : (s.intern name).2.Owns v :=
  ⟨h.live, fun x hx => (SymbolTable.Extends.insert s.symbols name).isSome (h.named x hx)⟩

theorem Whole.alloc (h : s.Whole) {o : Object} (ho : ∀ c ∈ o.children, s.store.contains c = true)
    (hx : ∀ x, o.Uses x → (s.symbols.spelling? x).isSome) :
    (s.alloc o).2.Whole ∧ (s.alloc o).2.Owns (.ref (s.alloc o).1) := by
  obtain ⟨N, _, hp, _, hs, _⟩ := h.states.alloc (Matching.self_objects ho hx)
  exact ⟨(whole_of_states hs).1, owns_of_states hs (.ref hp.pair)⟩

theorem Sound.alloc (h : s.Sound) {o : Object} (ho : ∀ c ∈ o.children, s.store.contains c = true)
    (hx : ∀ x, o.Uses x → (s.symbols.spelling? x).isSome) :
    (s.alloc o).2.Sound ∧ (s.alloc o).2.Owns (.ref (s.alloc o).1) := by
  obtain ⟨hwhole, howns⟩ := h.toWhole.alloc ho hx
  exact ⟨{ hwhole with depth := h.depth }, howns⟩

theorem Sound.allocList (h : s.Sound) {items : List Value} (hs : ∀ v ∈ items, s.Owns v) :
    (s.alloc (.list items.toArray)).2.Sound ∧
      (s.alloc (.list items.toArray)).2.Owns (.ref (s.alloc (.list items.toArray)).1) :=
  h.alloc (fun c hc => (hs _ (Object.mem_children_list.mp hc)).live c rfl) fun x hx =>
    (hs _ hx).named x rfl

theorem Sound.defineGlobal (h : s.Sound) {x : Symbol} (hx : (s.symbols.spelling? x).isSome)
    (hv : s.Owns v) : (s.defineGlobal x v).Sound := by
  have hst := h.states.stores.modifyBindings h.states.root.pair fun b c hbc =>
    hbc.insert (.inl hx) (Matching.self_values hv)
  exact sound_of_states (h.states.withStore (le_refl _) rfl h.states.overt hst) h.depth

theorem Sound.setGlobal (h : s.Sound) (name : Bytes) (hv : s.Owns v) :
    (s.setGlobal name v).Sound := by
  obtain ⟨hs, hx⟩ := h.intern name
  exact hs.defineGlobal (hx.named _ rfl) (hv.intern name)

theorem Sound.collect (h : s.Sound) (roots : List Value) : (s.collect roots).2.Sound where
  intact := h.intact.collect _
  named := h.named.sub fun ha => (h.intact.get?_collect.mp ha).1
  wellKnown := h.wellKnown
  root := by
    obtain ⟨scope, hr⟩ := h.root
    exact ⟨scope, h.intact.get?_collect.mpr ⟨hr, .root (.head _) hr⟩⟩
  depth := h.depth

theorem Sound.install (h : s.Sound) (n : Native) : (s.install n).Sound := by
  obtain ⟨hi, hx⟩ := h.intern (Bytes.ofString n.name)
  obtain ⟨ha, hv⟩ := hi.alloc (o := .function (.native n)) (List.forall_mem_nil _) fun _ h => h.elim
  exact ha.defineGlobal (hx.named _ rfl) hv

theorem Sound.installAll (h : s.Sound) (ns : List Native) : (ns.foldl Interp.install s).Sound := by
  induction ns generalizing s with
  | nil => exact h
  | cons n ns ih => exact ih (h.install n)

theorem bare_sound (config : Config) (disk : Disk) (clock : Int64) :
    (bare config disk clock).Sound where
  intact := Store.Intact.empty.insert (List.forall_mem_nil _)
  named := Store.UsesOnly.empty.insert .empty (by simp [Object.Uses, Scope.inside])
  wellKnown hx := by
    have hsize : Symbol.wellKnown.length ≤ (SymbolTable.empty.internAll Symbol.wellKnown).size := by
      decide +kernel
    exact SymbolTable.spelling?_isSome_iff.mpr (Nat.lt_of_lt_of_le hx hsize)
  root := ⟨.inside none, Store.WellFormed.empty.get?_insert_next _⟩
  depth := rfl

theorem new_sound (config : Config) (disk : Disk) (clock : Int64) :
    (new config disk clock).Sound := by
  have h₀ := bare_sound config disk clock
  have h₁ := h₀.defineGlobal (x := .nil) (h₀.wellKnown (by decide)) h₀.owns_nil
  have ht : Symbol.t.index < Symbol.wellKnown.length := by decide
  have h₂ := h₁.defineGlobal (h₁.wellKnown ht) (v := .t) (.sym (h₁.wellKnown ht))
  obtain ⟨h₃, hname⟩ :=
    h₂.alloc (o := .str (Bytes.ofString "<toplevel>").toByteArray) (List.forall_mem_nil _)
      fun _ h => h.elim
  have h₄ := h₃.defineGlobal (x := .streamName) (h₃.wellKnown (by decide)) hname
  have h₅ := h₄.defineGlobal (x := .streamLine) (h₄.wellKnown (by decide)) (.num _ 0)
  exact h₅.installAll _

end Interp

/-- What a host can ask of an interpreter. -/
inductive Request where
  | intern (name : Bytes)
  | setGlobal (name : Bytes) (v : Value)
  | evalText (code name : Bytes)
  | load (path : Bytes)
  | converse (input : Bytes)
  | eval (scope : Addr) (form : Value)
  | apply (scope : Addr) (f : Value) (args : List Value)
  | progn (scope : Addr) (forms : List Value)
  | fill (scope : Addr) (template : Value)
  | bind (scope : Addr) (params : Value) (args : List Value)
  | raise (scope : Addr) (kind : FaultKind) (message : Bytes) (subject : Value)
  | collect (roots : List Value)
  | newList (items : List Value)
  | newText (bytes : Bytes)

namespace Request

/-- The values that come with a request, a scope among them as the reference to it. -/
def values : Request → List Value
  | setGlobal _ v => [v]
  | intern _ | evalText _ _ | load _ | converse _ | newText _ => []
  | eval scope form => [.ref scope, form]
  | apply scope f args => .ref scope :: f :: args
  | progn scope forms => .ref scope :: forms
  | fill scope template => [.ref scope, template]
  | bind scope params args => .ref scope :: params :: args
  | raise scope _ _ subject => [.ref scope, subject]
  | collect roots => roots
  | newList items => items

/-- Grants a request. What has no value of its own ends with nil. -/
def serve (fuel : Nat) (s : Interp) : Request → Outcome
  | intern name =>
    let (symbol, s) := s.intern name
    .finished (.ok (.sym symbol)) s
  | setGlobal name v => .finished (.ok .nil) (s.setGlobal name v)
  | evalText code name => s.evalText fuel code name
  | load path => s.load fuel path
  | converse input => s.run fuel (Eval.converse s.root input)
  | eval scope form => s.eval fuel scope form
  | apply scope f args => s.apply fuel scope f args
  | progn scope forms => s.progn fuel scope forms
  | fill scope template => s.fill fuel scope template
  | bind scope params args => s.bind fuel scope params args
  | raise scope kind message subject => s.raise fuel scope kind message subject
  | collect roots => .finished (.ok .nil) (s.collect roots).2
  | newList items =>
    let (a, s) := s.alloc (.list items.toArray)
    .finished (.ok (.ref a)) s
  | newText bytes =>
    let (a, s) := s.alloc (.str bytes.toByteArray)
    .finished (.ok (.ref a)) s

/-- What is evaluated for a request; the other requests are granted at once. -/
def evaluation (s : Interp) : Request → Option (Eval Value)
  | evalText code name => some (Eval.runStream s.root (.own (.memory code)) name false)
  | load path => some (Eval.loadFile s.root path)
  | converse input => some (Eval.converse s.root input)
  | eval scope form => some (Eval.evaluate scope form)
  | apply scope f args => some (Eval.apply scope f args)
  | progn scope forms => some (Eval.sequence scope .nil forms)
  | fill scope template => some (Eval.fill scope template)
  | bind scope params args => some do
    Eval.bindParams scope params args
    return .nil
  | raise scope kind message subject => some (Eval.raise scope (.host kind message) subject)
  | intern _ | setGlobal _ _ | collect _ | newList _ | newText _ => none

variable {s : Interp} {q : Request} {x : Eval Value}

theorem serve_eq_run (h : q.evaluation s = some x) (fuel : Nat) :
    q.serve fuel s = s.run fuel x := by
  cases q <;> cases h <;> rfl

/-- With the root and the values of a request in a matching, its evaluation matches itself and ends
with something in it. -/
theorem alike {M : Matching} (h : q.evaluation s = some x) (root : M.Pair s.root s.root)
    (hv : ∀ v ∈ q.values, M.Values v v) :
    Alike true (fun N r t => N.Ending N.Values r t) M x x := by
  have list {vs : List Value} (hs : ∀ v ∈ vs, M.Values v v) : M.Lists vs vs :=
    List.forall₂_same.mpr hs
  cases q with
  | evalText code name =>
    cases h
    exact (Alike.runStream root (.own _) name false).imp fun _ _ _ he => he.2
  | load path =>
    cases h
    exact (Alike.loadFile root path).imp fun _ _ _ he => he.2
  | converse input =>
    cases h
    exact (Alike.converse root input).imp fun _ _ _ he => he.2
  | eval scope form =>
    cases h
    simp only [values, List.forall_mem_cons] at hv
    exact (Alike.evaluate hv.1.pair hv.2.1).imp fun _ _ _ he => he.2
  | apply scope f args =>
    cases h
    simp only [values, List.forall_mem_cons] at hv
    exact (Alike.apply hv.1.pair hv.2.1 (list hv.2.2)).imp fun _ _ _ he => he.2
  | progn scope forms =>
    cases h
    simp only [values, List.forall_mem_cons] at hv
    exact (Alike.sequence hv.1.pair .nil (list hv.2)).imp fun _ _ _ he => he.2
  | fill scope template =>
    cases h
    simp only [values, List.forall_mem_cons] at hv
    exact (Alike.fill hv.1.pair hv.2.1).imp fun _ _ _ he => he.2
  | bind scope params args =>
    cases h
    simp only [values, List.forall_mem_cons] at hv
    have hb : Alike true (Grown M fun _ _ _ => True) M (Eval.bindParams scope params args)
        (Eval.bindParams scope params args) :=
      Alike.bindParams hv.1.pair hv.2.1 (list hv.2.2)
    have hnil : Alike true (Grown M fun N => N.Values) M _ _ :=
      hb.bind fun _ _ _ _ _ => Alike.pure .nil
    exact hnil.imp fun _ _ _ he => he.2
  | raise scope kind message subject =>
    cases h
    simp only [values, List.forall_mem_cons] at hv
    have hr : Alike true (Grown M fun N => N.Values) M _ _ :=
      Alike.raise hv.1.pair (.host kind message) hv.2.1 trivial
    exact hr.imp fun _ _ _ he => he.2
  | intern | setGlobal | collect | newList | newText => cases h

end Request

namespace Interp

variable {s : Interp}

/-- The interpreters that a host can come to have, if it passes values of theirs only. Between
requests it may change the world around the interpreter. -/
inductive Reached : Interp → Prop where
  | new (config : Config) (disk : Disk) (clock : Int64) : Reached (new config disk clock)
  | world {s : Interp} (console : Console) (disk : Disk) (clock : Int64) (h : Reached s) :
    Reached { s with console, disk, clock }
  | served {s s' : Interp} {fuel : Nat} {q : Request} {r : Except Addr Value} (h : Reached s)
    (hq : ∀ v ∈ q.values, s.Owns v) (hs : q.serve fuel s = .finished r s') : Reached s'

theorem Sound.served {q : Request} (h : s.Sound) (hq : ∀ v ∈ q.values, s.Owns v) (fuel : Nat) :
    q.serve fuel s = .outOfFuel ∨ ∃ r s', q.serve fuel s = .finished r s' ∧ s'.Sound ∧
    s'.Holds r := by
  cases hx : q.evaluation s with
  | some x =>
    rw [Request.serve_eq_run hx]
    have hself := Request.alike hx h.states.root.pair fun v hv => Matching.self_values (hq v hv)
    exact h.run hself (fun _ _ _ he => he) fuel
  | none =>
    cases q with
    | intern name => exact .inr ⟨_, _, rfl, h.intern name⟩
    | setGlobal name v =>
      have hs := h.setGlobal name (hq v (.head _))
      exact .inr ⟨_, _, rfl, hs, hs.owns_nil⟩
    | collect roots => exact .inr ⟨_, _, rfl, h.collect roots, (h.collect roots).owns_nil⟩
    | newList items => exact .inr ⟨_, _, rfl, h.allocList hq⟩
    | newText bytes =>
      exact .inr ⟨_, _, rfl, h.alloc (o := .str bytes.toByteArray) (List.forall_mem_nil _)
        fun _ h => h.elim⟩
    | evalText | load | converse | eval | apply | progn | fill | bind | raise => cases hx

theorem Reached.sound (h : s.Reached) : s.Sound := by
  induction h with
  | new config disk clock => exact new_sound config disk clock
  | world console disk clock _ ih => exact { ih with }
  | served _ hq hs ih =>
    obtain hf | ⟨r, s', hr, hs', _⟩ := ih.served hq _
    · cases hs.symm.trans hf
    · cases hs.symm.trans hr
      exact hs'

/-- In every interpreter that a host has the symbols bound in a scope have names. -/
theorem Reached.bindings_named (h : s.Reached) {a : Addr} {scope : Scope}
    (ha : s.store.get? a = some (.scope scope)) : scope.bindings.Named s.symbols :=
  h.sound.named.bindings ha

end Interp

end HeapLisp
