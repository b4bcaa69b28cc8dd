import HeapLisp.Proofs.Matching.Sealing
import HeapLisp.Proofs.Matching.States

namespace HeapLisp

namespace Matching

/-- The store is sealed, and programs can get hold of the root and of the symbols that have
names. -/
structure Guards (M : Matching) (s : Interp) : Prop where
  seals : M.Seals s.store
  root : M.pairs .scope s.root s.root
  knows_iff : ∀ x, M.knows x ↔ (s.symbols.spelling? x).isSome

/-- The same interpreter on both sides, guarded, with a store that follows that of `s`. -/
def Onward (M : Matching) (s : Interp) (N : Matching) (t t' : Interp) : Prop :=
  t = t' ∧ N.Guards t ∧ M.Follows s.store N t.store

namespace Guards

variable {M N : Matching} {s t : Interp} {a : Addr} {v : Value}

theorem withStore (h : M.Guards s) (hle : M ≤ N) (hk : N.knows = M.knows) {st : Store Object}
    (hst : N.Seals st) : N.Guards { s with store := st } :=
  ⟨hst, hle.1 _ _ _ h.root, by rw [hk]; exact h.knows_iff⟩

theorem named (h : M.Guards s) : M.NamedIn s.symbols := fun x => (h.knows_iff x).mp

theorem alloc (h : M.Guards s) {o : Object} (ho : M.Objects o o) (hs : M.Suits o o) :
    ∃ N, M ≤ N ∧ N.pairs o.kind (s.alloc o).1 (s.alloc o).1 ∧ N.Guards (s.alloc o).2 ∧
      M.Follows s.store N (s.alloc o).2.store := by
  obtain ⟨N, hle, hk, hp, hst, hfollows⟩ := h.seals.insert ho hs
  exact ⟨N, hle, hp, h.withStore hle hk hst, hfollows⟩

theorem intern (h : M.Guards s) (name : Bytes) :
    (M.learn (s.intern name).1).Guards (s.intern name).2 := by
  refine ⟨h.seals.learn _, h.root, fun x => ⟨h.named.intern name x, fun hx => ?_⟩⟩
  by_cases he : x = s.symbols.symbolOf name
  · exact .inr he
  · rw [Interp.intern, SymbolTable.spelling?_insert_of_ne he] at hx
    exact .inl ((h.knows_iff x).mpr hx)

mutual

theorem build : (f : Form) → ∀ {M : Matching} {s : Interp}, M.Guards s →
    ∃ N, M ≤ N ∧ N.Values (s.build f).1 (s.build f).1 ∧ N.Guards (s.build f).2
  | .num n, M, _, h => ⟨M, le_refl M, .num n, h⟩
  | .str bytes, _, _, h => by
    obtain ⟨N, hle, hp, hs, _⟩ := h.alloc (.str bytes.toByteArray) trivial
    exact ⟨N, hle, .ref hp.pair, hs⟩
  | .sym name, M, _, h => ⟨_, M.le_learn _, .sym (.inr rfl), h.intern name⟩
  | .list items, _, _, h => by
    obtain ⟨N₁, h₁, hv, hs₁⟩ := buildAll items h
    obtain ⟨N₂, h₂, hp, hs₂, _⟩ := hs₁.alloc (States.newList_objects hv) trivial
    exact ⟨N₂, h₁.trans h₂, .ref hp.pair, hs₂⟩

theorem buildAll : (fs : List Form) → ∀ {M : Matching} {s : Interp}, M.Guards s →
    ∃ N, M ≤ N ∧ N.Lists (s.buildAll fs).1 (s.buildAll fs).1 ∧ N.Guards (s.buildAll fs).2
  | [], M, _, h => ⟨M, le_refl M, .nil, h⟩
  | f :: fs, _, _, h => by
    obtain ⟨N₁, h₁, hv, hs₁⟩ := build f h
    obtain ⟨N₂, h₂, hvs, hs₂⟩ := buildAll fs hs₁
    exact ⟨N₂, h₁.trans h₂, .cons (hv.mono h₂) hvs, hs₂⟩

end

theorem readout (h : M.Guards s) (reading : Reading) :
    ∃ N, M ≤ N ∧ N.Readouts (Effect.readout reading s).1 (Effect.readout reading s).1 ∧
      N.Guards (Effect.readout reading s).2 := by
  cases reading with
  | ended => exact ⟨M, le_refl M, .ended, h⟩
  | form f =>
    obtain ⟨N, hle, hv, hs⟩ := build f h
    exact ⟨N, hle, .value hv, hs⟩
  | failed e complete =>
    obtain ⟨N, hle, _, hs⟩ := buildAll complete h
    exact ⟨N, hle, .failed e, hs⟩

section Answers

variable {e : Effect} {Q : Matching → e.Reply → e.Reply → Prop}

/-- An effect that leaves the store, the root and the symbols as they are. -/
theorem looked (h : M.Guards s) (r : e.Reply) (he : e.perform s = some (r, t))
    (hstore : t.store = s.store) (hroot : t.root = s.root) (hsymbols : t.symbols = s.symbols)
    (hq : Q M r r) : Answered (M.Onward s) e e Q s s := by
  refine ⟨M, r, r, t, t, he, he, hq, rfl, ⟨?_, ?_, ?_⟩, ?_⟩
  · rw [hstore]
    exact h.seals
  · rw [hroot]
    exact h.root
  · rw [hsymbols]
    exact h.knows_iff
  · rw [hstore]
    exact .refl M s.store

/-- An effect that makes a symbol. -/
theorem learned {x : Symbol} (r : e.Reply) (he : e.perform s = some (r, t))
    (hstore : t.store = s.store) (ht : (M.learn x).Guards t) (hq : Q (M.learn x) r r) :
    Answered (M.Onward s) e e Q s s := by
  refine ⟨_, r, r, t, t, he, he, hq, rfl, ht, ?_⟩
  rw [hstore]
  exact .of_le (.refl _ _) (M.le_learn x)

/-- An effect that changes nothing but the store. -/
theorem changed (h : M.Guards s) (r : e.Reply) {st : Store Object}
    (he : e.perform s = some (r, { s with store := st })) (hle : M ≤ N) (hk : N.knows = M.knows)
    (hst : N.Seals st) (hfollows : M.Follows s.store N st) (hq : Q N r r) :
    Answered (M.Onward s) e e Q s s :=
  ⟨N, r, r, _, _, he, he, hq, rfl, h.withStore hle hk hst, hfollows⟩

theorem assign (h : M.Guards s) (hp : M.Pair a a) {symbol : Symbol} (hx : M.knows symbol)
    (hv : M.Values v v) :
    Answered (M.Onward s) (.assign a symbol v) (.assign a symbol v)
      (fun N r t => M ≤ N ∧ r = t) s s := by
  obtain ⟨r, r', hr, hr', hc⟩ := h.seals.stores.owner? hp symbol
  cases hr.symm.trans hr'
  cases hc with
  | none =>
    refine h.looked false ?_ rfl rfl rfl ⟨le_refl M, rfl⟩
    rw [Effect.perform, Store.assign, hr]
    rfl
  | some hc =>
    obtain ⟨hst, hfollows⟩ := h.seals.modifyBindings hc fun x y hxy => hxy.insert hx hv
    refine h.changed true ?_ (le_refl M) rfl hst hfollows ⟨le_refl M, rfl⟩
    rw [Effect.perform, Store.assign, hr]
    rfl

/-- Reading from a stream that is an object; what is no stream is not read from. -/
theorem readStream (h : M.Guards s) (hp : M.Pair a a) (read : InputStream → e.Reply × InputStream)
    (other : e.Reply) (hread : ∀ stream, s.store.get? a = some (.input stream) →
      e.perform s =
        some ((read stream).1, { s with store := s.store.set a (.input (read stream).2) }))
    (hother : ∀ o, s.store.get? a = some o → o.kind ≠ .input → e.perform s = some (other, s)) :
    Answered (M.Onward s) e e (fun N r t => M ≤ N ∧ r = t) s s := by
  obtain ⟨o, _, ho, _⟩ := h.seals.stores.get hp
  cases o with
  | input stream =>
    obtain ⟨hst, hfollows⟩ := h.seals.setStream hp ho (read stream).2
    exact h.changed (read stream).1 (hread stream ho) (le_refl M) rfl hst hfollows ⟨le_refl M, rfl⟩
  | str | list | scope | function | failure | output =>
    exact h.looked other (hother _ ho (by simp [Object.kind])) rfl rfl rfl ⟨le_refl M, rfl⟩

theorem readByte (h : M.Guards s) (hp : M.Pair a a) :
    Answered (M.Onward s) (.readByte a) (.readByte a) (fun N r t => M ≤ N ∧ r = t) s s := by
  apply h.readStream (e := .readByte a) hp (InputStream.readByte s.disk) none
  · intro stream ho
    simp only [Effect.perform, ho]
  · intro o ho hk
    cases o with
    | input => exact absurd rfl hk
    | str | list | scope | function | failure | output => rw [Effect.perform, ho]

theorem readLine (h : M.Guards s) (hp : M.Pair a a) :
    Answered (M.Onward s) (.readLine a) (.readLine a) (fun N r t => M ≤ N ∧ r = t) s s := by
  apply h.readStream (e := .readLine a) hp (InputStream.readLine s.disk) none
  · intro stream ho
    simp only [Effect.perform, ho]
  · intro o ho hk
    cases o with
    | input => exact absurd rfl hk
    | str | list | scope | function | failure | output => rw [Effect.perform, ho]

theorem readForm (h : M.Guards s) {top : Bool} {source : Source}
    (hsource : M.Sources top source source) (mark : Bookmark) :
    Answered (M.Onward s) (.readForm source mark) (.readForm source mark) (fun N r t =>
      M ≤ N ∧ N.Readouts r.1 t.1 ∧ r.2.1 = t.2.1 ∧ N.Sources top r.2.2 t.2.2) s s := by
  cases hsource with
  | own stream =>
    generalize hx : stream.readForm s.disk s.config.maxDepth mark = x
    obtain ⟨reading, mark', next⟩ := x
    obtain ⟨N, hle, hr, hs⟩ := h.readout reading
    have hgrows := (Interp.readout_reads h.seals.stores.left.toWellFormed reading).1
    have he : Effect.perform (.readForm (.own stream) mark) s =
        some (((Effect.readout reading s).1, mark', .own next), (Effect.readout reading s).2) := by
      simp only [Effect.perform, Effect.readFrom, hx]
    exact ⟨N, _, _, _, _, he, he, ⟨hle, hr, rfl, .own next⟩, rfl, hs,
      .of_kept h.seals.stores hle hgrows.kept⟩
  | object hp ht =>
    rename_i a
    obtain ⟨o, _, ho, _⟩ := h.seals.stores.get hp
    cases o with
    | input stream =>
      generalize hx : stream.readForm s.disk s.config.maxDepth mark = x
      obtain ⟨reading, mark', next⟩ := x
      -- the stream is put back before the form is stored
      obtain ⟨hst, hfollows⟩ := h.seals.setStream hp ho next
      obtain ⟨N, hle, hr, hs⟩ := (h.withStore (le_refl M) rfl hst).readout reading
      have hgrows := (Interp.readout_reads (s := { s with store := s.store.set a (.input next) })
        hst.stores.left.toWellFormed reading).1
      have hlive {b : Addr} (hb : s.store.contains b = true) :
          (s.store.set a (.input next)).contains b = true := by
        simpa using hb
      have he : Effect.perform (.readForm (.object a) mark) s =
          some
            (((Effect.readout reading { s with store := s.store.set a (.input next) }).1, mark',
              .object a),
            (Effect.readout reading { s with store := s.store.set a (.input next) }).2) := by
        simp only [Effect.perform, Effect.readFrom, ho, hx]
      exact ⟨N, _, _, _, _, he, he, ⟨hle, hr, rfl, .object (hp.mono hle) ht⟩, rfl, hs,
        hfollows.grow hst.stores hlive hle hgrows.kept⟩
    | str | list | scope | function | failure | output =>
      refine h.looked (.ended, mark, .object a) ?_ rfl rfl rfl
        ⟨le_refl M, .ended, rfl, .object hp ht⟩
      simp only [Effect.perform, Effect.readFrom, ho]

/-- Outside all evaluation what is collected is forgotten; nested in an evaluation nothing
happens. -/
theorem tidy (h : M.Guards s) {top : Bool} {vs : List Value} (hs : M.Lists vs vs)
    (hnested : top = false → s.depth ≠ 0) :
    Answered (M.Onward s) (.tidy vs) (.tidy vs) (fun N _ _ => (top = false → M ≤ N) ∧
      N.Lists vs vs) s s := by
  cases top with
  | false =>
    refine h.looked () ?_ rfl rfl rfl ⟨fun _ => le_refl M, hs⟩
    rw [Effect.perform, Effect.tidyUp, if_neg fun hc => hnested rfl hc.1]
  | true =>
    have hk := States.keeps_tidyUp vs h.seals.stores.left
    have hroot := hk.root (.head _) (h.seals.stores.live_left h.root.pair)
    have hlive (a : Addr) (ha : .ref a ∈ vs) : (Effect.tidyUp vs s).store.contains a = true := by
      obtain ⟨w, _, hv⟩ := hs.exists_of_mem ha
      have hmem : a ∈ vs.filterMap Value.addr? := List.mem_filterMap.mpr ⟨.ref a, ha, rfl⟩
      exact hk.root (.tail _ hmem) (h.seals.stores.live_values hv _ rfl)
    obtain ⟨hst, hfollows⟩ := h.seals.keeps hk
    have he :
        Effect.perform (.tidy vs) s =
            some ((), { s with store := (Effect.tidyUp vs s).store }) := by
      rw [← States.tidyUp_eq]
      rfl
    exact ⟨_, (), (), _, _, he, he, ⟨by simp, hs.restrict hlive hlive⟩, rfl,
      ⟨hst, ⟨h.root, hroot, hroot⟩, h.knows_iff⟩, hfollows⟩

end Answers

/-- Whatever a program asks for, the interpreter is still guarded afterwards. -/
theorem answered (h : M.Guards s) {top : Bool} {e f : Effect}
    {Q : Matching → e.Reply → f.Reply → Prop} (ha : Asks top M e f Q) (hef : e = f)
    (hnested : top = false → s.depth ≠ 0) : Answered (M.Onward s) e f Q s s := by
  have hst := h.seals.stores
  cases ha with
  | fetch hp =>
    cases hef
    obtain ⟨o, o', ho, ho', hk, hop⟩ := hst.get hp
    cases ho.symm.trans ho'
    exact h.looked o (by rw [Effect.perform, ho]) rfl rfl rfl ⟨le_refl M, hk, hop⟩
  | fetchForm hf =>
    cases hef
    obtain ⟨params, body, hget, hs⟩ := (h.seals.form hf).2.objects
    exact h.looked _ (by rw [Effect.perform, hget]) rfl rfl rfl
      ⟨le_refl M, .list hs, .inr ⟨_, _, _, rfl⟩⟩
  | alloc ho hs =>
    cases hef
    obtain ⟨N, hle, hp, hN, hfollows⟩ := h.alloc ho hs
    exact ⟨N, _, _, _, _, rfl, rfl, ⟨hle, hp⟩, rfl, hN, hfollows⟩
  | allocForm kind hp hs =>
    cases hef
    obtain ⟨N, hle, hk, hf, hN, hfollows⟩ := h.seals.insertForm kind hp hs
    exact h.changed _ rfl hle hk hN hfollows ⟨hle, hf⟩
  | updateItems hp hf =>
    cases hef
    have hitems := hst.updateItems hp fun xs ys => hf M xs ys (le_refl M)
    obtain ⟨hN, hfollows⟩ := h.seals.modify hp hitems fun o _ => o.becomes_mapItems _
    exact h.changed () (if_pos (hst.live_left hp)) (le_refl M) rfl hN hfollows (le_refl M)
  | lookup hp symbol =>
    cases hef
    obtain ⟨r, r', hr, hr', hv⟩ := hst.lookup hp symbol
    cases hr.symm.trans hr'
    exact h.looked r (by rw [Effect.perform, hr]) rfl rfl rfl ⟨le_refl M, hv⟩
  | define hp hx hv =>
    cases hef
    obtain ⟨hN, hfollows⟩ := h.seals.modifyBindings hp fun x y hxy => hxy.insert hx hv
    refine h.changed () ?_ (le_refl M) rfl hN hfollows (le_refl M)
    rw [Effect.perform_define, if_pos (hst.live_left hp)]
  | assign hp hx hv =>
    cases hef
    exact h.assign hp hx hv
  | restore hp hx hv =>
    cases hef
    obtain ⟨hN, hfollows⟩ := h.seals.modifyBindings hp fun x y hxy => hxy.put hx hv
    exact h.changed () (if_pos (hst.live_left hp)) (le_refl M) rfl hN hfollows (le_refl M)
  | copy hv =>
    cases hef
    obtain ⟨N, r, st, hr, hle, hk, hv, hN, hfollows⟩ := h.seals.deepCopy hv
    exact h.changed r (by rw [Effect.perform, hr]) hle hk hN hfollows ⟨hle, hv⟩
  | sameText hp hp' =>
    cases hef
    obtain ⟨r, hr, _⟩ := hst.sameText hp hp'
    exact h.looked r (by rw [Effect.perform, hr]) rfl rfl rfl ⟨le_refl M, rfl⟩
  | position hv hp =>
    cases hef
    obtain ⟨r, hr, _⟩ := hst.position hv hp
    exact h.looked r (by rw [Effect.perform, hr]) rfl rfl rfl ⟨le_refl M, rfl⟩
  | tidy hs =>
    cases hef
    exact h.tidy hs hnested
  | readByte hp =>
    cases hef
    exact h.readByte hp
  | readLine hp =>
    cases hef
    exact h.readLine hp
  | readForm hsource mark =>
    cases hef
    exact h.readForm hsource mark
  | append hp bytes =>
    cases hef
    obtain ⟨hN, hfollows⟩ := h.seals.modify hp (hst.append hp bytes) fun o _ =>
      o.becomes_append bytes
    exact h.changed () (if_pos (hst.live_left hp)) (le_refl M) rfl hN hfollows (le_refl M)
  | render style hv =>
    cases hef
    obtain ⟨text, htext⟩ := hst.render? h.named style hv
    exact h.looked text (by rw [Effect.perform, htext]) rfl rfl rfl ⟨le_refl M, rfl⟩
  | spelling hx =>
    obtain ⟨text, htext⟩ := Option.isSome_iff_exists.mp (h.named _ hx)
    exact h.looked text (by rw [Effect.perform, htext]) rfl rfl rfl ⟨le_refl M, rfl⟩
  | intern name => exact learned _ rfl rfl (h.intern name) ⟨M.le_learn _, .inr rfl, rfl⟩
  | gensym =>
    have ht :=
      h.intern (71 :: Numeral.decimal (Interp.freshNumber s.symbols s.symbols.size s.generated))
    exact learned _ rfl rfl ⟨ht.seals, ht.root, ht.knows_iff⟩ ⟨M.le_learn _, .inr rfl, rfl⟩
  | echoes | clock | openFile => exact h.looked _ rfl rfl rfl rfl ⟨le_refl M, rfl⟩
  | print => exact h.looked _ rfl rfl rfl rfl (le_refl M)
  | save path line =>
    exact h.looked _ rfl rfl rfl rfl ⟨le_refl M, rfl, fun _ => Effect.kind_of_saveLine⟩

end Guards

end Matching

end HeapLisp
