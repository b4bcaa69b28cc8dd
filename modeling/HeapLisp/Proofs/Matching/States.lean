import HeapLisp.Proofs.Machine.Levels
import HeapLisp.Proofs.Matching.Copies
import HeapLisp.Proofs.Matching.Lookups
import HeapLisp.Proofs.Matching.Printing
import HeapLisp.Proofs.Matching.Run
import HeapLisp.Proofs.Printer.Texts

namespace HeapLisp

/-- Only the file system is at fault if a line is not saved. -/
theorem Effect.kind_of_saveLine {path line : Bytes} {d : Disk} {fault : Fault}
    (h : (saveLine path line d).1 = .error fault) :
    fault.kind = .io := by
  unfold saveLine at h
  split at h
  · cases h
    rfl
  · split at h
    · cases h
      rfl
    · split at h <;> cases h
      rfl

namespace Matching

/-- The table has a name for every symbol that the matching knows. -/
def NamedIn (M : Matching) (symbols : SymbolTable) : Prop :=
  ∀ x, M.knows x → (symbols.spelling? x).isSome

namespace NamedIn

variable {M N : Matching} {symbols : SymbolTable} {v w : Value}

theorem congr (h : M.NamedIn symbols) (hk : N.knows = M.knows) : N.NamedIn symbols := by
  rwa [NamedIn, hk]

theorem intern (h : M.NamedIn symbols) (name : Bytes) :
    (M.learn (symbols.symbolOf name)).NamedIn (symbols.insert name) := by
  rintro x (hx | rfl)
  · exact (SymbolTable.Extends.insert symbols name).isSome (h x hx)
  · rw [SymbolTable.spelling?_symbolOf]
    rfl

theorem values (h : M.NamedIn symbols) (hv : M.Values v w) : v.Named symbols := by
  rintro x rfl
  cases hv with
  | sym hx => exact h x hx

end NamedIn

/-- In matching stores what matches has a text. -/
theorem Stores.render? {M : Matching} {s : Interp} {st : Store Object} {v w : Value}
    (h : M.Stores s.store st) (hn : M.NamedIn s.symbols) (style : Style) (hv : M.Values v w) :
    ∃ text, s.render? style v = some text :=
  Interp.Owns.render? ⟨h.live_values hv, hn.values hv⟩ h.left (h.leftUses.mono hn) style

end Matching

/-- Interpreters that are the same up to their addresses, which match, and for when they collect
and, unless they are `timed`, for their clocks. -/
structure States (timed : Bool) (M : Matching) (s t : Interp) : Prop where
  stores : M.Stores s.store t.store
  overt : M.Overt
  root : M.pairs .scope s.root t.root
  symbols : s.symbols = t.symbols
  named : M.NamedIn s.symbols
  maxDepth : s.config.maxDepth = t.config.maxDepth
  echo : s.config.echo = t.config.echo
  depth : s.depth = t.depth
  generated : s.generated = t.generated
  console : s.console = t.console
  disk : s.disk = t.disk
  clock : timed = true → s.clock = t.clock

namespace States

/-- States that match, the second of which has gone on from `t` in the frame of `M`. -/
def Framed (timed : Bool) (M : Matching) (t : Interp) (N : Matching) (s' t' : Interp) : Prop :=
  States timed N s' t' ∧ M.Frames t.store N t'.store

variable {timed : Bool} {M N : Matching} {s t : Interp}

theorem withStore (h : States timed M s t) (hle : M ≤ N) (hk : N.knows = M.knows) (hov : N.Overt)
    {st st' : Store Object} (hst : N.Stores st st') :
    States timed N { s with store := st } { t with store := st' } :=
  { h with stores := hst, overt := hov, root := hle.1 _ _ _ h.root, named := h.named.congr hk }

theorem alloc (h : States timed M s t) {o p : Object} (ho : M.Objects o p) :
    ∃ N, M ≤ N ∧ N.pairs o.kind (s.alloc o).1 (t.alloc p).1 ∧
      (∀ k, N.form k (s.alloc o).1 (t.alloc p).1) ∧
      Framed timed M t N (s.alloc o).2 (t.alloc p).2 := by
  obtain ⟨N, hle, hk, hp, hf, hov, hst, hframes⟩ := h.stores.insert h.overt ho
  exact ⟨N, hle, hp, hf, h.withStore hle hk hov hst, hframes⟩

/-- From now on the symbol is known. -/
theorem intern (h : States timed M s t) (name : Bytes) :
    ∃ N, M ≤ N ∧ N.knows (s.intern name).1 ∧ (s.intern name).1 = (t.intern name).1 ∧
      Framed timed M t N (s.intern name).2 (t.intern name).2 := by
  refine ⟨M.learn (s.symbols.symbolOf name), M.le_learn _, .inr rfl,
    congrArg (·.symbolOf name) h.symbols, ?_, .learn M _ _⟩
  exact { h with
    stores := h.stores.learn _
    symbols := congrArg (·.insert name) h.symbols
    named := h.named.intern name }

theorem gensym (h : States timed M s t) :
    ∃ N, M ≤ N ∧ N.knows s.gensym.1 ∧ s.gensym.1 = t.gensym.1 ∧
      Framed timed M t N s.gensym.2 t.gensym.2 := by
  have hn : Interp.freshNumber s.symbols s.symbols.size s.generated =
      Interp.freshNumber t.symbols t.symbols.size t.generated := by rw [h.symbols, h.generated]
  obtain ⟨N, hle, hx, he, hs, hframes⟩ :=
    h.intern (71 :: Numeral.decimal (Interp.freshNumber s.symbols s.symbols.size s.generated))
  rw [Interp.gensym, Interp.gensym, ← hn]
  exact ⟨N, hle, hx, he, { hs with generated := rfl }, hframes⟩

theorem newList_objects {vs ws : List Value} (h : M.Lists vs ws) :
    M.Objects (.list vs.toArray) (.list ws.toArray) :=
  .list h

mutual

theorem build : (f : Form) → ∀ {M : Matching} {s t : Interp}, States timed M s t →
    ∃ N, M ≤ N ∧ N.Values (s.build f).1 (t.build f).1 ∧
      Framed timed M t N (s.build f).2 (t.build f).2
  | .num n, M, _, _, h => ⟨M, le_refl M, .num n, h, .refl M _⟩
  | .str bytes, _, _, _, h => by
    obtain ⟨N, hle, hp, _, hs⟩ := h.alloc (.str bytes.toByteArray)
    exact ⟨N, hle, .ref hp.pair, hs⟩
  | .sym name, M, _, _, h => by
    obtain ⟨N, hle, hx, he, hs⟩ := h.intern name
    refine ⟨N, hle, ?_, hs⟩
    simp only [Interp.build, ← he]
    exact .sym hx
  | .list items, _, _, _, h => by
    obtain ⟨N₁, h₁, hv, hs₁, hframes₁⟩ := buildAll items h
    obtain ⟨N₂, h₂, hp, _, hs₂, hframes₂⟩ := hs₁.alloc (newList_objects hv)
    exact ⟨N₂, h₁.trans h₂, .ref hp.pair, hs₂, hframes₁.trans hframes₂⟩

theorem buildAll : (fs : List Form) → ∀ {M : Matching} {s t : Interp}, States timed M s t →
    ∃ N, M ≤ N ∧ N.Lists (s.buildAll fs).1 (t.buildAll fs).1 ∧
      Framed timed M t N (s.buildAll fs).2 (t.buildAll fs).2
  | [], M, _, _, h => ⟨M, le_refl M, .nil, h, .refl M _⟩
  | f :: fs, _, _, _, h => by
    obtain ⟨N₁, h₁, hv, hs₁, hframes₁⟩ := build f h
    obtain ⟨N₂, h₂, hvs, hs₂, hframes₂⟩ := buildAll fs hs₁
    exact ⟨N₂, h₁.trans h₂, .cons (hv.mono h₂) hvs, hs₂, hframes₁.trans hframes₂⟩

end

theorem readout (h : States timed M s t) (reading : Reading) :
    ∃ N, M ≤ N ∧ N.Readouts (Effect.readout reading s).1 (Effect.readout reading t).1 ∧
      Framed timed M t N (Effect.readout reading s).2 (Effect.readout reading t).2 := by
  cases reading with
  | ended => exact ⟨M, le_refl M, .ended, h, .refl M _⟩
  | form f =>
    obtain ⟨N, hle, hv, hs⟩ := build f h
    exact ⟨N, hle, .value hv, hs⟩
  | failed e complete =>
    obtain ⟨N, hle, _, hs⟩ := buildAll complete h
    exact ⟨N, hle, .failed e, hs⟩

theorem setStream (h : States timed M s t) {a b : Addr} {stream : InputStream} (hp : M.Pair a b)
    (ha : s.store.get? a = some (.input stream)) (next : InputStream) :
    States timed M { s with store := s.store.set a (.input next) }
      { t with store := t.store.set b (.input next) } :=
  h.withStore (le_refl M) rfl h.overt (h.stores.setStream hp ha next)

theorem render? (h : States timed M s t) {v w : Value} (style : Style) (hv : M.Values v w) :
    ∃ text, s.render? style v = some text ∧ t.render? style w = some text := by
  obtain ⟨text, htext⟩ := h.stores.render? h.named style hv
  refine ⟨text, htext, ?_⟩
  rw [← htext, Interp.render?, Interp.render?, h.symbols, h.maxDepth,
    h.stores.render h.overt _ _ _ hv]

section Answers

variable {a b : Addr} {v w : Value} {e f : Effect} {Q : Matching → e.Reply → f.Reply → Prop}

/-- An effect that only looks. -/
theorem looked (h : States timed M s t) (r : e.Reply) (r' : f.Reply)
    (he : e.perform s = some (r, s)) (hf : f.perform t = some (r', t)) (hq : Q M r r') :
    Answered (Framed timed M t) e f Q s t :=
  ⟨M, r, r', s, t, he, hf, hq, h, .refl M _⟩

/-- An effect that changes nothing but the store. -/
theorem changed (h : States timed M s t) (r : e.Reply) (r' : f.Reply) {st st' : Store Object}
    (hle : M ≤ N) (hk : N.knows = M.knows) (hov : N.Overt) (hst : N.Stores st st')
    (hframes : M.Frames t.store N st') (he : e.perform s = some (r, { s with store := st }))
    (hf : f.perform t = some (r', { t with store := st' })) (hq : Q N r r') :
    Answered (Framed timed M t) e f Q s t :=
  ⟨N, r, r', _, _, he, hf, hq, h.withStore hle hk hov hst, hframes⟩

theorem updateItems (h : States timed M s t) (hp : M.Pair a b) {f g : Array Value → Array Value}
    (hf : ∀ xs ys, M.Lists (Array.toList xs) (Array.toList ys) →
      M.Lists (f xs).toList (g ys).toList) :
    Answered (Framed timed M t) (.updateItems a f) (.updateItems b g) (fun N _ _ => M ≤ N) s t :=
  h.changed () () (le_refl M) rfl h.overt (h.stores.updateItems hp hf) (.modify hp _)
    (if_pos (h.stores.live_left hp))
    (if_pos (h.stores.live_right hp)) (le_refl M)

theorem define (h : States timed M s t) (hp : M.Pair a b) {symbol : Symbol} (hx : M.knows symbol)
    (hv : M.Values v w) :
    Answered (Framed timed M t) (.define a symbol v) (.define b symbol w)
      (fun N _ _ => M ≤ N) s t := by
  have hst := h.stores.modifyBindings hp fun x y hxy => hxy.insert hx hv
  refine h.changed () () (le_refl M) rfl h.overt hst (.modify hp _) ?_ ?_ (le_refl M)
  · rw [Effect.perform_define, if_pos (h.stores.live_left hp)]
    rfl
  · rw [Effect.perform_define, if_pos (h.stores.live_right hp)]
    rfl

theorem restore (h : States timed M s t) (hp : M.Pair a b) {symbol : Symbol} (hx : M.knows symbol)
    {old old' : Option Value} (hv : Option.Rel M.Values old old') :
    Answered (Framed timed M t) (.restore a symbol old) (.restore b symbol old')
      (fun N _ _ => M ≤ N) s t := by
  have hst := h.stores.modifyBindings hp fun x y hxy => hxy.put hx hv
  exact h.changed () () (le_refl M) rfl h.overt hst (.modify hp _) (if_pos (h.stores.live_left hp))
    (if_pos (h.stores.live_right hp)) (le_refl M)

theorem assign (h : States timed M s t) (hp : M.Pair a b) {symbol : Symbol} (hx : M.knows symbol)
    (hv : M.Values v w) :
    Answered (Framed timed M t) (.assign a symbol v) (.assign b symbol w)
      (fun N r t => M ≤ N ∧ r = t) s t := by
  obtain ⟨r, r', hr, hr', hc⟩ := h.stores.owner? hp symbol
  cases hc with
  | none =>
    refine h.looked false false ?_ ?_ ⟨le_refl M, rfl⟩
    · rw [Effect.perform, Store.assign, hr]
      rfl
    · rw [Effect.perform, Store.assign, hr']
      rfl
  | some hc =>
    have hst := h.stores.modifyBindings hc fun x y hxy => hxy.insert hx hv
    refine h.changed true true (le_refl M) rfl h.overt hst (.modify hc _) ?_ ?_ ⟨le_refl M, rfl⟩
    · rw [Effect.perform, Store.assign, hr]
      rfl
    · rw [Effect.perform, Store.assign, hr']
      rfl

theorem append (h : States timed M s t) (hp : M.Pair a b) (bytes : Bytes) :
    Answered (Framed timed M t) (.append a bytes) (.append b bytes) (fun N _ _ => M ≤ N) s t :=
  h.changed () () (le_refl M) rfl h.overt (h.stores.append hp bytes) (.modify hp _)
    (if_pos (h.stores.live_left hp))
    (if_pos (h.stores.live_right hp)) (le_refl M)

theorem readByte (h : States timed M s t) (hp : M.Pair a b) :
    Answered (Framed timed M t) (.readByte a) (.readByte b) (fun N r t => M ≤ N ∧ r = t) s t := by
  obtain ⟨o, p, ho, hp', _, hop⟩ := h.stores.get hp
  cases hop with
  | input stream =>
    generalize hx : stream.readByte s.disk = x
    have hy : stream.readByte t.disk = x := by rw [← h.disk, hx]
    obtain ⟨r, next⟩ := x
    refine h.changed r r (le_refl M) rfl h.overt (h.setStream hp ho next).stores
      (.modify hp _) ?_ ?_ ⟨le_refl M, rfl⟩
    · simp only [Effect.perform, ho, hx]
    · simp only [Effect.perform, hp', hy]
  | str | list | scope | function | failure | output =>
    exact h.looked none none (by rw [Effect.perform, ho]) (by rw [Effect.perform, hp'])
      ⟨le_refl M, rfl⟩

theorem readLine (h : States timed M s t) (hp : M.Pair a b) :
    Answered (Framed timed M t) (.readLine a) (.readLine b) (fun N r t => M ≤ N ∧ r = t) s t := by
  obtain ⟨o, p, ho, hp', _, hop⟩ := h.stores.get hp
  cases hop with
  | input stream =>
    generalize hx : stream.readLine s.disk = x
    have hy : stream.readLine t.disk = x := by rw [← h.disk, hx]
    obtain ⟨r, next⟩ := x
    refine h.changed r r (le_refl M) rfl h.overt (h.setStream hp ho next).stores
      (.modify hp _) ?_ ?_ ⟨le_refl M, rfl⟩
    · simp only [Effect.perform, ho, hx]
    · simp only [Effect.perform, hp', hy]
  | str | list | scope | function | failure | output =>
    exact h.looked none none (by rw [Effect.perform, ho]) (by rw [Effect.perform, hp'])
      ⟨le_refl M, rfl⟩

theorem readForm (h : States timed M s t) {top : Bool} {source source' : Source}
    (hsrc : M.Sources top source source') (mark : Bookmark) :
    Answered (Framed timed M t) (.readForm source mark) (.readForm source' mark) (fun N r t =>
      M ≤ N ∧ N.Readouts r.1 t.1 ∧ r.2.1 = t.2.1 ∧ N.Sources top r.2.2 t.2.2) s t := by
  cases hsrc with
  | own stream =>
    generalize hx : stream.readForm s.disk s.config.maxDepth mark = x
    have hy : stream.readForm t.disk t.config.maxDepth mark = x := by
      rw [← h.disk, ← h.maxDepth, hx]
    obtain ⟨reading, mark', next⟩ := x
    obtain ⟨N, hle, hr, hs⟩ := h.readout reading
    refine ⟨N, (_, mark', .own next), (_, mark', .own next), _, _, ?_, ?_,
      ⟨hle, hr, rfl, .own next⟩, hs⟩
    · simp only [Effect.perform, Effect.readFrom, hx]
    · simp only [Effect.perform, Effect.readFrom, hy]
  | @object a b hp ht =>
    obtain ⟨o, p, ho, hp', _, hop⟩ := h.stores.get hp
    cases hop with
    | input stream =>
      generalize hx : stream.readForm s.disk s.config.maxDepth mark = x
      have hy : stream.readForm t.disk t.config.maxDepth mark = x := by
        rw [← h.disk, ← h.maxDepth, hx]
      obtain ⟨reading, mark', next⟩ := x
      obtain ⟨N, hle, hr, hs, hframes⟩ := (h.setStream hp ho next).readout reading
      refine ⟨N, (_, mark', .object a), (_, mark', .object b), _, _, ?_, ?_,
        ⟨hle, hr, rfl, .object (hp.mono hle) ht⟩, hs, (Matching.Frames.modify hp _).trans hframes⟩
      · simp only [Effect.perform, Effect.readFrom, ho, hx]
      · simp only [Effect.perform, Effect.readFrom, hp', hy]
    | str | list | scope | function | failure | output =>
      refine h.looked (.ended, mark, .object a) (.ended, mark, .object b) ?_ ?_
        ⟨le_refl M, .ended, rfl, .object hp ht⟩
      · simp only [Effect.perform, Effect.readFrom, ho]
      · simp only [Effect.perform, Effect.readFrom, hp']

theorem keeps_tidyUp (roots : List Value) (h : s.store.Intact) :
    s.store.Keeps (s.root :: roots.filterMap Value.addr?) (Effect.tidyUp roots s).store := by
  unfold Effect.tidyUp
  split
  · exact h.keeps_collect _
  · exact h.keeps_self _

theorem tidyUp_eq (roots : List Value) (s : Interp) :
    Effect.tidyUp roots s = { s with store := (Effect.tidyUp roots s).store } := by
  unfold Effect.tidyUp
  split <;> rfl

/-- Outside all evaluation either side may collect or not; what it collects is forgotten. Nested in
an evaluation nothing happens. -/
theorem tidy (h : States timed M s t) {top : Bool} {vs ws : List Value} (hs : M.Lists vs ws)
    (hnested : top = false → s.depth ≠ 0) :
    Answered (fun N s' t' => States timed N s' t' ∧ (top = false → M.Frames t.store N t'.store))
      (.tidy vs) (.tidy ws) (fun N _ _ => (top = false → M ≤ N) ∧ N.Lists vs ws) s t := by
  cases top with
  | false =>
    have hd := hnested rfl
    refine ⟨M, (), (), s, t, ?_, ?_, ⟨fun _ => le_refl M, hs⟩, h, fun _ => .refl M _⟩
    · rw [Effect.perform, Effect.tidyUp, if_neg fun hc => hd hc.1]
    · rw [Effect.perform, Effect.tidyUp, if_neg fun hc => hd (h.depth.trans hc.1)]
  | true =>
    have hk := keeps_tidyUp vs h.stores.left
    have hk' := keeps_tidyUp ws h.stores.right
    have kept {a : Addr} {vs : List Value} (ha : .ref a ∈ vs) : a ∈ vs.filterMap Value.addr? :=
      List.mem_filterMap.mpr ⟨.ref a, ha, rfl⟩
    refine ⟨M.restrict (Effect.tidyUp vs s).store (Effect.tidyUp ws t).store, (), (), _,
      _, rfl, rfl, ⟨by rintro ⟨⟩, ?_⟩, ?_, by rintro ⟨⟩⟩
    · refine hs.restrict (fun a ha => ?_) fun b hb => ?_
      · obtain ⟨w, _, hw⟩ := hs.exists_of_mem ha
        cases hw with
        | ref hp => exact hk.root (.tail _ (kept ha)) (h.stores.live_left hp)
      · obtain ⟨v, _, hv⟩ := hs.flip.exists_of_mem hb
        cases hv with
        | ref hp => exact hk'.root (.tail _ (kept hb)) (h.stores.live_right hp)
    · rw [tidyUp_eq vs, tidyUp_eq ws]
      exact { h with
        stores := h.stores.keeps hk hk'
        overt := h.overt.restrict _ _
        root := ⟨h.root, hk.root (.head _) (h.stores.live_left h.root.pair),
          hk'.root (.head _) (h.stores.live_right h.root.pair)⟩ }

end Answers

/-- Matching effects are answered alike, and nested in an evaluation what does not match is left
alone. -/
theorem answered {top : Bool} {e f : Effect} {Q : Matching → e.Reply → f.Reply → Prop}
    (h : States timed M s t) (ha : Asks top M e f Q) (hnested : top = false → s.depth ≠ 0)
    (hclock : timed = false → e ≠ .clock) :
    Answered (fun N s' t' => States timed N s' t' ∧
      (top = false → M.Frames t.store N t'.store)) e f Q s t := by
  by_cases htidy : ∃ vs, e = .tidy vs
  · obtain ⟨vs, rfl⟩ := htidy
    cases ha with
    | tidy hs => exact h.tidy hs hnested
  refine Answered.imp (R := Framed timed M t) ?_ fun _ _ _ hs => ⟨hs.1, fun _ => hs.2⟩
  cases ha with
  | fetch hp =>
    obtain ⟨o, p, ho, hp', hk, hop⟩ := h.stores.get hp
    exact h.looked o p (by rw [Effect.perform, ho]) (by rw [Effect.perform, hp'])
      ⟨le_refl M, hk, hop⟩
  | fetchForm hf =>
    have hp := h.overt _ _ _ hf
    obtain ⟨o, p, ho, hp', hk, hop⟩ := h.stores.get hp
    exact h.looked o p (by rw [Effect.perform, ho]) (by rw [Effect.perform, hp'])
      ⟨le_refl M, hop, .inl hp⟩
  | alloc ho _ =>
    obtain ⟨N, hle, hp, _, hs⟩ := h.alloc ho
    exact ⟨N, _, _, _, _, rfl, rfl, ⟨hle, hp⟩, hs⟩
  | allocForm kind hp hs =>
    obtain ⟨N, hle, _, hf, hst⟩ :=
      h.alloc (newList_objects (.cons (.wellKnown kind.symbol_wellKnown)
      (.cons (.ref hp.pair) hs)))
    exact ⟨N, _, _, _, _, rfl, rfl, ⟨hle, hf kind⟩, hst⟩
  | updateItems hp hf => exact h.updateItems hp fun xs ys => hf M xs ys (le_refl M)
  | lookup hp symbol =>
    obtain ⟨r, r', hr, hr', hv⟩ := h.stores.lookup hp symbol
    exact h.looked r r' (by rw [Effect.perform, hr]) (by rw [Effect.perform, hr']) ⟨le_refl M, hv⟩
  | define hp hx hv => exact h.define hp hx hv
  | assign hp hx hv => exact h.assign hp hx hv
  | restore hp hx hv => exact h.restore hp hx hv
  | copy hv =>
    obtain ⟨N, r, r', st, st', hr, hr', hle, hk, hv, hov, hst, hframes⟩ :=
      h.stores.deepCopy h.overt hv
    exact h.changed r r' hle hk hov hst hframes (by rw [Effect.perform, hr])
      (by rw [Effect.perform, hr']) ⟨hle, hv⟩
  | intern name =>
    obtain ⟨N, hle, hx, he, hs⟩ := h.intern name
    exact ⟨N, _, _, _, _, rfl, rfl, ⟨hle, hx, he⟩, hs⟩
  | spelling hx =>
    obtain ⟨text, htext⟩ := Option.isSome_iff_exists.mp (h.named _ hx)
    exact h.looked text text (by rw [Effect.perform, htext])
      (by rw [Effect.perform, ← h.symbols, htext]) ⟨le_refl M, rfl⟩
  | sameText hp hp' =>
    obtain ⟨r, hr, hr'⟩ := h.stores.sameText hp hp'
    exact h.looked r r (by rw [Effect.perform, hr]) (by rw [Effect.perform, hr']) ⟨le_refl M, rfl⟩
  | position hv hp =>
    obtain ⟨r, hr, hr'⟩ := h.stores.position hv hp
    exact h.looked r r (by rw [Effect.perform, hr]) (by rw [Effect.perform, hr']) ⟨le_refl M, rfl⟩
  | gensym =>
    obtain ⟨N, hle, hx, he, hs⟩ := h.gensym
    exact ⟨N, _, _, _, _, rfl, rfl, ⟨hle, hx, he⟩, hs⟩
  | render style hv =>
    obtain ⟨text, htext, htext'⟩ := h.render? style hv
    exact h.looked text text (by rw [Effect.perform, htext]) (by rw [Effect.perform, htext'])
      ⟨le_refl M, rfl⟩
  | tidy => exact absurd ⟨_, rfl⟩ htidy
  | print text =>
    exact ⟨M, _, _, _, _, rfl, rfl, le_refl M,
      { h with console := congrArg (·.print text) h.console }, .refl M _⟩
  | echoes => exact h.looked _ _ rfl rfl ⟨le_refl M, h.echo⟩
  | clock =>
    cases timed with
    | false => exact absurd rfl (hclock rfl)
    | true =>
      have hnow := h.clock rfl
      exact ⟨M, _, _, _, _, rfl, rfl, ⟨le_refl M, hnow⟩,
        { h with clock := fun _ => congrArg (· + 1) hnow }, .refl M _⟩
  | openFile path => exact h.looked _ _ rfl rfl ⟨le_refl M, by rw [h.disk]⟩
  | readByte hp => exact h.readByte hp
  | readLine hp => exact h.readLine hp
  | readForm hsrc mark => exact h.readForm hsrc mark
  | append hp bytes => exact h.append hp bytes
  | save path line =>
    have hdisk : Effect.saveLine path line s.disk = Effect.saveLine path line t.disk := by
      rw [h.disk]
    exact ⟨M, _, _, _, _, rfl, rfl,
      ⟨le_refl M, congrArg Prod.fst hdisk, fun _ => Effect.kind_of_saveLine⟩,
      { h with disk := congrArg Prod.snd hdisk }, .refl M _⟩

end States

/-- Matching states are a simulation. -/
def Simulation.matching (timed : Bool) : Simulation where
  timed := timed
  states := States timed
  depth_eq h := h.depth
  maxDepth_eq h := h.maxDepth
  withDepth _ h := { h with depth := rfl }
  answered h hask hnested hclock := (h.answered hask hnested hclock).imp fun _ _ _ hs => hs.1

end HeapLisp
