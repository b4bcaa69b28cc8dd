import HeapLisp.Proofs.Store.Intact
import HeapLisp.Scope.Chain
import Mathlib.Data.Finset.Card
import Mathlib.Data.Finset.Range

namespace HeapLisp.Store

variable {st st' : Store Object} {start parent next : Option Addr} {a b : Addr} {chain : List Addr}
  {s : Symbol}

/-- What the way outwards meets from its start to its end, every step at a live address. -/
inductive Chain (st : Store Object) : Option Addr → List Addr → Prop where
  | nil : Chain st none []
  | cons {a : Addr} {next : Option Addr} {chain : List Addr} (ha : st.parent? a = some next)
    (h : Chain st next chain) :
    Chain st (some a) (a :: chain)

/-- The value that a symbol is bound to in one scope alone, if it is bound there. -/
def binding (st : Store Object) (s : Symbol) (a : Addr) : Option Value := (st.local? a s).join

theorem parent?_eq_map (st : Store Object) (a : Addr) :
    st.parent? a = (st.get? a).map fun o => o.scope?.bind Scope.parent := by
  unfold parent?
  cases st.get? a with
  | none => rfl
  | some o => cases o <;> rfl

theorem contains_of_parent? (h : st.parent? a = some next) : st.contains a = true := by
  rw [parent?_eq_map] at h
  obtain ⟨o, ho, _⟩ := Option.map_eq_some_iff.mp h
  exact contains_iff.mpr ⟨o, ho⟩

theorem parent?_congr (h : st'.get? a = st.get? a) : st'.parent? a = st.parent? a := by
  rw [parent?_eq_map, h, parent?_eq_map]

@[simp] theorem parent?_modifyBindings (st : Store Object) (a : Addr) (f : Bindings → Bindings)
    (b : Addr) :
    (st.modifyBindings a f).parent? b = st.parent? b := by
  rw [parent?_eq_map, parent?_eq_map, get?_modifyBindings]
  by_cases hb : b = a
  · rw [if_pos hb, Option.map_map]
    congr 1
    funext o
    cases o <;> rfl
  · rw [if_neg hb]

theorem mem_children_of_parent {o : Object} (h : o.scope?.bind Scope.parent = some a) :
    a ∈ o.children := by
  obtain ⟨scope, hscope, hparent⟩ := Option.bind_eq_some_iff.mp h
  cases o with
  | scope s =>
    cases hscope
    exact Object.mem_children_scope.mpr (.inr hparent)
  | str | list | function | failure | input | output => cases hscope

namespace Chain

theorem contains (h : st.Chain start chain) (ha : a ∈ chain) : st.contains a = true := by
  induction h with
  | nil => cases ha
  | cons hp _ ih =>
    cases ha with
    | head => exact contains_of_parent? hp
    | tail _ ha => exact ih ha

theorem unique {chain' : List Addr} (h : st.Chain start chain) (h' : st.Chain start chain') :
    chain = chain' := by
  induction h generalizing chain' with
  | nil =>
    cases h'
    rfl
  | cons hp _ ih =>
    cases h' with
    | cons hp' h' =>
      cases hp.symm.trans hp'
      rw [ih h']

/-- From anything that is met on the way, the way goes on as it went on there. -/
theorem exists_suffix (h : st.Chain start chain) (ha : a ∈ chain) :
    ∃ rest, st.Chain (some a) (a :: rest) ∧ a :: rest <:+ chain := by
  induction h with
  | nil => cases ha
  | @cons b next chain hp h ih =>
    cases ha with
    | head => exact ⟨chain, .cons hp h, List.suffix_rfl⟩
    | tail _ ha =>
      obtain ⟨rest, hrest, hsuffix⟩ := ih ha
      exact ⟨rest, hrest, hsuffix.trans (List.suffix_cons b chain)⟩

theorem nodup (h : st.Chain start chain) : chain.Nodup := by
  induction h with
  | nil => exact List.nodup_nil
  | @cons a next chain hp h ih =>
    have hout : a ∉ chain := by
      intro ha
      -- two ways outwards from `a`, one of them longer than the other
      obtain ⟨rest, hrest, hsuffix⟩ := h.exists_suffix ha
      have hsame := hrest.unique (.cons hp h)
      have hlonger := hsuffix.length_le
      rw [hsame, List.length_cons] at hlonger
      omega
    exact List.nodup_cons.mpr ⟨hout, ih⟩

theorem length_le (h : st.Chain start chain) : chain.length ≤ st.capacity := by
  have hnodup : (chain.map Addr.index).Nodup := h.nodup.map fun a b hab => Addr.eq_iff.mpr hab
  have hsub : (chain.map Addr.index).toFinset ⊆ Finset.range st.capacity := by
    intro i hi
    obtain ⟨a, ha, rfl⟩ := List.mem_map.mp (List.mem_toFinset.mp hi)
    obtain ⟨o, ho⟩ := contains_iff.mp (h.contains ha)
    exact Finset.mem_range.mpr (index_lt_of_get? ho)
  have hcard := Finset.card_le_card hsub
  rwa [List.toFinset_card_of_nodup hnodup, List.length_map, Finset.card_range] at hcard

theorem congr (h : st.Chain start chain) (hp : ∀ a ∈ chain, st'.parent? a = st.parent? a) :
    st'.Chain start chain := by
  induction h with
  | nil => exact .nil
  | @cons a next chain ha _ ih =>
    have hhead := hp a (.head _)
    have htail := ih fun b hb => hp b (.tail _ hb)
    exact .cons (hhead.trans ha) htail

/-- The search for a symbol finds the first scope on the way that binds it. -/
theorem ownerWithin_eq (h : st.Chain (some a) chain) {n : Nat} (hn : chain.length ≤ n) :
    st.ownerWithin s n a = some (chain.find? fun b => (st.binding s b).isSome) := by
  generalize hstart : some a = start at h
  induction h generalizing a n with
  | nil => cases hstart
  | @cons b next chain hp h ih =>
    cases hstart
    obtain ⟨n, rfl⟩ : ∃ m, n = m + 1 := ⟨n - 1, by rw [List.length_cons] at hn; omega⟩
    have hn := Nat.le_of_succ_le_succ hn
    rw [parent?_eq_map] at hp
    obtain ⟨o, ho, rfl⟩ := Option.map_eq_some_iff.mp hp
    rw [ownerWithin, ho]
    cases o with
    | scope scope =>
      have hb : st.binding s b = scope.bindings.get? s := by simp [binding, local?, ho]
      dsimp only
      rw [List.find?_cons, hb]
      cases hv : scope.bindings.get? s with
      | some v => rfl
      | none =>
        cases hparent : scope.parent with
        | none =>
          have hnil : st.Chain scope.parent chain := h
          rw [hparent] at hnil
          cases hnil
          rfl
        | some c => simpa using ih hn hparent.symm
    | str | list | function | failure | input | output =>
      have hb : st.binding s b = none := by simp [binding, local?, ho]
      cases h
      simp [hb]

theorem meetsWithin_eq (h : st.Chain start chain) {n : Nat} (hn : chain.length ≤ n) :
    st.meetsWithin a n start = some (decide (a ∈ chain)) := by
  induction h generalizing n with
  | nil => cases n <;> rfl
  | @cons b next chain hp _ ih =>
    obtain ⟨n, rfl⟩ : ∃ m, n = m + 1 := ⟨n - 1, by rw [List.length_cons] at hn; omega⟩
    rw [meetsWithin, hp]
    by_cases hba : b = a
    · simp [hba]
    · have hab : a ≠ b := fun h => hba h.symm
      simp [hba, hab, ih (Nat.le_of_succ_le_succ hn)]

theorem owner?_eq (h : st.Chain (some a) chain) :
    st.owner? a s = some (chain.find? fun b => (st.binding s b).isSome) :=
  h.ownerWithin_eq h.length_le

theorem lookup_eq (h : st.Chain (some a) chain) :
    st.lookup a s = some (chain.findSome? (st.binding s)) := by
  rw [lookup, h.owner?_eq]
  have hlive (b : Addr) (hb : b ∈ chain) : st.local? b s = some (st.binding s b) := by
    obtain ⟨o, ho⟩ := contains_iff.mp (h.contains hb)
    cases o <;> simp [binding, local?, ho]
  clear h
  induction chain with
  | nil => rfl
  | cons b chain ih =>
    have hb := hlive b (.head _)
    have ih := ih fun c hc => hlive c (.tail _ hc)
    cases hv : st.binding s b with
    | none => simpa [hv] using ih
    | some v => simp [hv, hb]

end Chain

/-- From every live address the way outwards comes to an end. -/
structure Rooted (st : Store Object) : Prop extends st.WellFormed where
  chain : ∀ a, st.contains a = true → ∃ chain, st.Chain (some a) chain

namespace Rooted

theorem chain_of_live (h : st.Rooted) (hp : ∀ p ∈ parent, st.contains p = true) :
    ∃ chain, st.Chain parent chain := by
  cases parent with
  | none => exact ⟨[], .nil⟩
  | some p => exact h.chain p (hp p rfl)

theorem empty : (Store.empty : Store Object).Rooted where
  toWellFormed := .empty
  chain a ha := by
    rw [Store.contains, get?_empty] at ha
    cases ha

/-- Storing an object leaves every way outwards as it was, and starts a new one. -/
theorem insert (h : st.Rooted) {o : Object}
    (hp : ∀ p ∈ o.scope?.bind Scope.parent, st.contains p = true) :
    (st.insert o).Rooted where
  toWellFormed := h.toWellFormed.insert o
  chain a ha := by
    have kept {start : Option Addr} {chain : List Addr} (hc : st.Chain start chain) :
        (st.insert o).Chain start chain := by
      apply hc.congr
      intro b hb
      obtain ⟨p, hp⟩ := contains_iff.mp (hc.contains hb)
      exact parent?_congr ((h.get?_insert_of_get? o hp).trans hp.symm)
    by_cases hnext : a = st.next
    · have hparent : (st.insert o).parent? a = some (o.scope?.bind Scope.parent) := by
        rw [parent?_eq_map, hnext, h.get?_insert_next, Option.map_some]
      obtain ⟨chain, hc⟩ := h.chain_of_live hp
      exact ⟨a :: chain, .cons hparent (kept hc)⟩
    · rw [Store.contains, h.get?_insert, if_neg hnext] at ha
      obtain ⟨chain, hc⟩ := h.chain a ha
      exact ⟨chain, kept hc⟩

/-- A change that keeps the parents of scopes keeps every way outwards. -/
theorem modify (h : st.Rooted) (a : Addr) {f : Object → Object}
    (hf : ∀ b, (st.modify a f).parent? b = st.parent? b) : (st.modify a f).Rooted where
  toWellFormed := h.toWellFormed.modify a f
  chain b hb := by
    rw [contains_modify] at hb
    obtain ⟨chain, hc⟩ := h.chain b hb
    exact ⟨chain, hc.congr fun c _ => hf c⟩

theorem modifyBindings (h : st.Rooted) (a : Addr) (f : Bindings → Bindings) :
    (st.modifyBindings a f).Rooted :=
  h.modify a (st.parent?_modifyBindings a f)

/-- What can be reached keeps its way outwards, because a scope refers to its parent. -/
theorem collect (h : st.Rooted) (roots : List Addr) :
    (st.collect Object.children roots).1.Rooted where
  toWellFormed := h.toWellFormed.collect _ _
  chain a ha := by
    have kept {start : Option Addr} {chain : List Addr} (hc : st.Chain start chain)
        (hstart : ∀ b ∈ start, Reachable Object.children st roots b) :
        (st.collect Object.children roots).1.Chain start chain := by
      induction hc with
      | nil => exact .nil
      | @cons b next chain hp hc ih =>
        have hb := hstart b rfl
        rw [parent?_eq_map] at hp
        obtain ⟨o, ho, hnext⟩ := Option.map_eq_some_iff.mp hp
        have hget := h.get?_collect.mpr ⟨ho, hb⟩
        have hparent : (st.collect Object.children roots).1.parent? b = some next := by
          rw [parent?_eq_map, hget, Option.map_some, hnext]
        apply Chain.cons hparent
        apply ih
        intro c hc'
        cases hc'
        cases hc with
        | cons hc _ =>
          obtain ⟨p, hp⟩ := contains_iff.mp (contains_of_parent? hc)
          exact .child hb ho (mem_children_of_parent hnext) hp
    obtain ⟨o, ho⟩ := contains_iff.mp ha
    obtain ⟨hget, hreach⟩ := h.get?_collect.mp ho
    obtain ⟨chain, hc⟩ := h.chain a (contains_iff.mpr ⟨o, hget⟩)
    refine ⟨chain, kept hc ?_⟩
    intro b hb
    cases hb
    exact hreach

/-- A scope may be moved into any place that does not lie inside it: the way outwards from what it
moves into does not meet it. -/
theorem move (h : st.Rooted) {scope : Scope} (ha : st.get? a = some (.scope scope))
    (hc : st.Chain parent chain) (hout : a ∉ chain) :
    (st.set a (.scope { scope with parent })).Rooted where
  toWellFormed := h.toWellFormed.modify _ _
  chain b hb := by
    have hother (c : Addr) (hca : c ≠ a) :
        (st.set a (.scope { scope with parent })).parent? c = st.parent? c := by
      apply parent?_congr
      simp [hca]
    have hmoved : (st.set a (.scope { scope with parent })).parent? a = some parent := by
      simp [parent?_eq_map, ha, Object.scope?]
    have hc' : (st.set a (.scope { scope with parent })).Chain parent chain := by
      apply hc.congr
      intro c hmem
      apply hother
      intro hca
      exact hout (hca ▸ hmem)
    -- the old way outwards is followed as far as the moved scope, and the new one from there
    have rerouted {start : Option Addr} {old : List Addr} (hold : st.Chain start old) :
        ∃ new, (st.set a (.scope { scope with parent })).Chain start new := by
      induction hold with
      | nil => exact ⟨[], .nil⟩
      | @cons c next old hp _ ih =>
        by_cases hca : c = a
        · exact ⟨c :: chain, .cons (hca ▸ hmoved) hc'⟩
        · obtain ⟨new, hnew⟩ := ih
          exact ⟨c :: new, .cons ((hother c hca).trans hp) hnew⟩
    rw [contains_set] at hb
    obtain ⟨old, hold⟩ := h.chain b hb
    exact rerouted hold

end Rooted

/-- A scope moves unless it is met on the way outwards from its new parent. -/
theorem Chain.setParent_eq (h : st.Chain parent chain) (a : Addr) :
    st.setParent a parent =
      if a ∈ chain then some (false, st)
      else
        match st.get? a with
        | none => none
        | some (.scope scope) => some (true, st.set a (.scope { scope with parent }))
        | some _ => some (false, st) := by
  rw [setParent, h.meetsWithin_eq h.length_le]
  by_cases ha : a ∈ chain
  · simp [ha]
  · rw [decide_eq_false ha]
    exact (if_neg ha).symm

theorem Rooted.setParent (h : st.Rooted) (hp : ∀ p ∈ parent, st.contains p = true) {moved : Bool}
    (hm : st.setParent a parent = some (moved, st')) : st'.Rooted := by
  obtain ⟨chain, hc⟩ := h.chain_of_live hp
  rw [hc.setParent_eq] at hm
  split at hm
  · cases hm
    exact h
  · rename_i hout
    split at hm
    · cases hm
    · rename_i scope ha
      cases hm
      exact h.move ha hc hout
    · cases hm
      exact h

/-- A store that came about by storing objects and new scopes, binding, unbinding and assigning
symbols, moving scopes and collecting, always at live addresses. -/
inductive Arranged : Store Object → Prop where
  | empty : Arranged Store.empty
  | object {st : Store Object} (h : Arranged st) {o : Object} (ho : o.scope? = none) :
    Arranged (st.insert o)
  | scope {st : Store Object} (h : Arranged st) {parent : Option Addr}
    (hp : ∀ p ∈ parent, st.contains p = true) :
    Arranged (st.insert (.scope (.inside parent)))
  | define {st st' : Store Object} (h : Arranged st) {a : Addr} {s : Symbol} {v : Value}
    {found : Bool}
    (hd : st.define a s v = some (found, st')) : Arranged st'
  | assign {st st' : Store Object} (h : Arranged st) {a : Addr} {s : Symbol} {v : Value}
    {owner : Option Addr}
    (ha : st.assign a s v = some (owner, st')) : Arranged st'
  | put {st : Store Object} (h : Arranged st) {a : Addr} (ha : st.contains a = true) (s : Symbol)
    (v : Option Value) :
    Arranged (st.modifyBindings a (·.put s v))
  | setParent {st st' : Store Object} (h : Arranged st) {a : Addr} {parent : Option Addr}
    (hp : ∀ p ∈ parent, st.contains p = true) {moved : Bool}
    (hm : st.setParent a parent = some (moved, st')) : Arranged st'
  | collect {st : Store Object} (h : Arranged st) (roots : List Addr) :
    Arranged (st.collect Object.children roots).1

theorem Arranged.rooted (h : st.Arranged) : st.Rooted := by
  induction h with
  | empty => exact .empty
  | object _ ho ih =>
    apply ih.insert
    intro p hp
    rw [ho] at hp
    cases hp
  | scope _ hp ih => exact ih.insert hp
  | define _ hd ih =>
    unfold Store.define at hd
    split at hd
    · cases hd
    · cases hd
      exact ih.modifyBindings _ _
    · cases hd
      exact ih
  | assign _ ha ih =>
    unfold Store.assign at ha
    split at ha
    · cases ha
    · cases ha
      exact ih
    · cases ha
      exact ih.modifyBindings _ _
  | put _ _ s v ih => exact ih.modifyBindings _ _
  | setParent _ hp hm ih => exact ih.setParent hp hm
  | collect _ roots ih => exact ih.collect roots

/-- The way outwards from every live address ends and meets nothing twice. Searches follow it to the
first scope that binds their symbol. A scope is refused a place inside itself, and then nothing has
changed; it can be moved to any other place, and then nothing else has changed. -/
theorem scope_chains_end (h : st.Arranged) :
    (∀ a, st.contains a = true → ∃ chain, st.Chain (some a) chain ∧ chain.Nodup ∧
      ∀ s, st.owner? a s = some (chain.find? fun b => (st.binding s b).isSome) ∧
        st.lookup a s = some (chain.findSome? (st.binding s)) ∧
        ∀ v, ∃ st', st.assign a s v = some (chain.find? fun b => (st.binding s b).isSome, st')) ∧
    ∀ a parent, st.contains a = true → (∀ p ∈ parent, st.contains p = true) →
      ∃ chain moved st', st.Chain parent chain ∧ chain.Nodup ∧
        st.setParent a parent = some (moved, st') ∧
        (moved = false ↔ (∀ scope, st.get? a ≠ some (.scope scope)) ∨ a ∈ chain) ∧
        (moved = false → st' = st) ∧
        (moved = true → ∃ scope, st.get? a = some (.scope scope) ∧
          st'.get? a = some (.scope { scope with parent }) ∧
          ∀ b, b ≠ a → st'.get? b = st.get? b) := by
  constructor
  · intro a ha
    obtain ⟨chain, hc⟩ := h.rooted.chain a ha
    refine ⟨chain, hc, hc.nodup, ?_⟩
    intro s
    refine ⟨hc.owner?_eq, hc.lookup_eq, ?_⟩
    intro v
    rw [assign, hc.owner?_eq]
    cases chain.find? fun b => (st.binding s b).isSome with
    | none => exact ⟨_, rfl⟩
    | some b => exact ⟨_, rfl⟩
  · intro a parent ha hp
    obtain ⟨chain, hc⟩ := h.rooted.chain_of_live hp
    obtain ⟨o, ho⟩ := contains_iff.mp ha
    have heq := hc.setParent_eq a
    rw [ho] at heq
    by_cases hmem : a ∈ chain
    · rw [if_pos hmem] at heq
      exact ⟨chain, false, st, hc, hc.nodup, heq, by simp [hmem], by simp, by simp⟩
    · rw [if_neg hmem] at heq
      cases o with
      | scope scope =>
        refine ⟨chain, true, _, hc, hc.nodup, heq, by simp [ho, hmem], by simp, ?_⟩
        intro _
        exact ⟨scope, ho, by simp [ho], fun b hb => by simp [hb]⟩
      | str | list | function | failure | input | output =>
        exact ⟨chain, false, st, hc, hc.nodup, heq, by simp [ho], by simp, by simp⟩

/-- A scope in a slot that was emptied lies inside an older one, and the older one is moved into the
newest: the newest is then refused a place inside the first. -/
theorem scope_chains_end_reused :
    let st :=
      ((((Store.empty.insert (.str .empty)).insert (.scope (.inside none))).collect Object.children
        [⟨1⟩]).1.insert
      (.scope (.inside (some ⟨1⟩)))).insert (.scope (.inside none))
    ∃ st', st.setParent ⟨1⟩ (some ⟨2⟩) = some (true, st') ∧ st'.Chain (some ⟨0⟩) [⟨0⟩, ⟨1⟩, ⟨2⟩] ∧
      st'.setParent ⟨2⟩ (some ⟨0⟩) = some (false, st') := by
  intro st
  have hst : st.Arranged := by
    apply Arranged.scope
    · apply Arranged.scope
      · exact .collect (.scope (.object .empty rfl) (by simp)) _
      · simp only [Option.mem_some_iff, forall_eq']
        decide +kernel
    · simp
  have hlive : ∀ p ∈ some (⟨2⟩ : Addr), st.contains p = true := by
    simp only [Option.mem_some_iff, forall_eq']
    decide +kernel
  have hnewest : st.Chain (some ⟨2⟩) [⟨2⟩] := .cons (by decide +kernel) .nil
  obtain ⟨chain, moved, st', hc, _, heq, hiff, _, hmoves⟩ :=
    (scope_chains_end hst).2 ⟨1⟩ (some ⟨2⟩) (by decide +kernel) hlive
  cases hc.unique hnewest
  cases moved with
  | false =>
    obtain hno | hmem := hiff.mp rfl
    · have hscope : st.get? ⟨1⟩ = some (.scope (.inside none)) := by with_unfolding_all rfl
      exact absurd hscope (hno _)
    · simp at hmem
  | true =>
    obtain ⟨scope, _, hget, hrest⟩ := hmoves rfl
    have hfirst : st'.parent? ⟨0⟩ = some (some ⟨1⟩) := by
      rw [parent?_congr (hrest ⟨0⟩ (by decide))]
      decide +kernel
    have hsecond : st'.parent? ⟨1⟩ = some (some ⟨2⟩) := by
      rw [parent?, hget]
    have hthird : st'.parent? ⟨2⟩ = some none := by
      rw [parent?_congr (hrest ⟨2⟩ (by decide))]
      decide +kernel
    have hchain : st'.Chain (some ⟨0⟩) [⟨0⟩, ⟨1⟩, ⟨2⟩] :=
      .cons hfirst (.cons hsecond (.cons hthird .nil))
    refine ⟨st', heq, hchain, ?_⟩
    rw [hchain.setParent_eq, if_pos (by simp)]

end HeapLisp.Store
