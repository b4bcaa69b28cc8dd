import HeapLisp.Eval.Effect
import HeapLisp.Proofs.Reader.Acceptance
import HeapLisp.Proofs.Reader.Spelling
import HeapLisp.Proofs.Store.Additions
import HeapLisp.Proofs.Stream.Pending

namespace HeapLisp

mutual

/-- The value is the form, as the interpreter stores it. -/
inductive Interp.Stored (s : Interp) : Form → Value → Prop where
  | num (k : Int64) : s.Stored (.num k) (.num k)
  | str {bytes : Bytes} {a : Addr} (ha : s.store.get? a = some (.str bytes.toByteArray)) :
    s.Stored (.str bytes) (.ref a)
  | sym {name : Bytes} {x : Symbol} (hx : s.symbols.spelling? x = some name.toByteArray) :
    s.Stored (.sym name) (.sym x)
  | list {fs : List Form} {a : Addr} {items : Array Value}
    (ha : s.store.get? a = some (.list items))
    (h : s.StoredAll fs items.toList) : s.Stored (.list fs) (.ref a)

/-- The values are the forms, in order. -/
inductive Interp.StoredAll (s : Interp) : List Form → List Value → Prop where
  | nil : s.StoredAll [] []
  | cons {f : Form} {v : Value} {fs : List Form} {vs : List Value} (h : s.Stored f v)
    (hs : s.StoredAll fs vs) :
    s.StoredAll (f :: fs) (v :: vs)

end

namespace Interp

variable {s s' s₁ : Interp} {f : Form} {v : Value} {fs : List Form} {vs : List Value}

/-- The interpreter goes on: its store is well formed, its symbols keep their names, and it has the
same limits and files. -/
structure Continues (s s' : Interp) : Prop where
  wellFormed : s'.store.WellFormed
  named : s.symbols.Extends s'.symbols
  config : s'.config = s.config
  disk : s'.disk = s.disk

theorem Grows.continues {store : Store Object} (h : { s with store }.Grows s') :
    s.Continues s' where
  wellFormed := h.wellFormed
  named := h.named
  config := by rw [h.adds.storeOnly]
  disk := by rw [h.adds.storeOnly]

mutual

theorem Stored.grow {s s' : Interp} (hg : s.Grows s') : {f : Form} → {v : Value} → s.Stored f v →
    s'.Stored f v
  | _, _, .num k => .num k
  | _, _, .str ha => .str (hg.kept ha)
  | _, _, .sym hx => .sym (hg.named.spelled hx)
  | _, _, .list ha hs => .list (hg.kept ha) (StoredAll.grow hg hs)

theorem StoredAll.grow {s s' : Interp} (hg : s.Grows s') :
    {fs : List Form} → {vs : List Value} → s.StoredAll fs vs → s'.StoredAll fs vs
  | _, _, .nil => .nil
  | _, _, .cons h hs => .cons (Stored.grow hg h) (StoredAll.grow hg hs)

end

mutual

theorem Stored.unique {s : Interp} : {f g : Form} → {v : Value} → s.Stored f v →
    s.Stored g v → f = g
  | _, _, _, .num _, .num _ => rfl
  | _, _, _, .str ha, .str hb => by
    have htext := congrArg Bytes.ofPacked (Object.str.inj (Option.some.inj (ha.symm.trans hb)))
    rw [Bytes.ofPacked_toByteArray, Bytes.ofPacked_toByteArray] at htext
    rw [htext]
  | _, _, _, .sym hx, .sym hy => by
    have hname := congrArg Bytes.ofPacked (Option.some.inj (hx.symm.trans hy))
    rw [Bytes.ofPacked_toByteArray, Bytes.ofPacked_toByteArray] at hname
    rw [hname]
  | _, _, _, .list ha hs, .list hb ht => by
    cases ha.symm.trans hb
    rw [StoredAll.unique hs ht]
  | _, _, _, .str ha, .list hb _ => by cases ha.symm.trans hb
  | _, _, _, .list ha _, .str hb => by cases ha.symm.trans hb

theorem StoredAll.unique {s : Interp} : {fs gs : List Form} → {vs : List Value} →
    s.StoredAll fs vs → s.StoredAll gs vs → fs = gs
  | _, _, _, .nil, .nil => rfl
  | _, _, _, .cons h hs, .cons h' hs' => by rw [Stored.unique h h', StoredAll.unique hs hs']

end

mutual

theorem build_stored : (f : Form) → ∀ {s : Interp}, s.store.WellFormed →
    s.Grows (s.build f).2 ∧ (s.build f).2.Stored f (s.build f).1
  | .num k, _, hw => ⟨.refl hw, .num k⟩
  | .str _, _, hw => ⟨.of_onlyAdds (.alloc hw _), .str (get?_alloc hw _)⟩
  | .sym name, s, hw => ⟨.intern hw name, .sym (s.symbols.spelling?_symbolOf name)⟩
  | .list items, s, hw => by
    obtain ⟨hgrows, hs⟩ := buildAll_stored items hw
    have halloc : Grows _ _ :=
      .of_onlyAdds (.alloc hgrows.wellFormed (.list (s.buildAll items).1.toArray))
    have hget := get?_alloc hgrows.wellFormed (.list (s.buildAll items).1.toArray)
    exact ⟨hgrows.trans halloc, .list hget (StoredAll.grow halloc hs)⟩

theorem buildAll_stored : (fs : List Form) → ∀ {s : Interp}, s.store.WellFormed →
    s.Grows (s.buildAll fs).2 ∧ (s.buildAll fs).2.StoredAll fs (s.buildAll fs).1
  | [], _, hw => ⟨.refl hw, .nil⟩
  | f :: fs, s, hw => by
    obtain ⟨hgrows, h⟩ := build_stored f hw
    obtain ⟨hgrows', hs⟩ := buildAll_stored fs hgrows.wellFormed
    exact ⟨hgrows.trans hgrows', .cons (Stored.grow hgrows' h) hs⟩

end

/-- What a reading gives once its form is stored. -/
inductive Reads (s : Interp) : Reading → Readout → Prop where
  | ended : s.Reads .ended .ended
  | value {f : Form} {v : Value} (h : s.Stored f v) : s.Reads (.form f) (.value v)
  | failed (e : ReadError) (complete : List Form) : s.Reads (.failed e complete) (.failed e)

theorem readout_reads (hw : s.store.WellFormed) (reading : Reading) :
    s.Grows (Effect.readout reading s).2 ∧
    (Effect.readout reading s).2.Reads reading (Effect.readout reading s).1 := by
  cases reading with
  | ended => exact ⟨.refl hw, .ended⟩
  | form f =>
    obtain ⟨hgrows, h⟩ := build_stored f hw
    exact ⟨hgrows, .value h⟩
  | failed e complete => exact ⟨(buildAll_stored complete hw).1, .failed e complete⟩

end Interp

namespace Source

/-- The stream that a source reads. -/
def stream? (s : Interp) : Source → Option InputStream
  | own stream => some stream
  | object a =>
    match s.store.get? a with
    | some (.input stream) => some stream
    | _ => none

/-- The source, reading from another stream. -/
def withStream (stream : InputStream) : Source → Source
  | own _ => own stream
  | object a => object a

/-- A reader of the source that has looked at one character stands at the cursor. -/
def At (s : Interp) (source : Source) (mark : Bookmark) (c : Cursor) : Prop :=
  ∃ stream, source.stream? s = some stream ∧ stream.IsFinite s.disk ∧
    Bookmark.ofCursor c = (mark, stream.pending s.disk)

end Source

theorem Reader.readAt_ofCursor (limit : Nat) {c : Cursor} {mark : Bookmark} {left : Bytes}
    (h : Bookmark.ofCursor c = (mark, left)) :
    readAt limit mark left = ((read limit c).1, Bookmark.ofCursor (read limit c).2) := by
  obtain ⟨text, line⟩ := c
  cases text with
  | nil =>
    cases h
    have hended : read limit ⟨[], line⟩ = (.ended, ⟨[], line⟩) := by
      rw [read, Token.next, Token.skipBlanks, parse]
      rfl
    rw [hended]
    rfl
  | cons b text =>
    cases h
    rfl

namespace Effect

variable {s : Interp} {source : Source} {mark mark' : Bookmark} {stream stream' : InputStream}
  {reading : Reading}

theorem readFrom_stream (hw : s.store.WellFormed) (hstream : source.stream? s = some stream)
    (hread : stream.readForm s.disk s.config.maxDepth mark = (reading, mark', stream')) :
    ∃ r s', readFrom source mark s = some ((r, mark', source.withStream stream'), s') ∧
      s.Continues s' ∧ s'.Reads reading r ∧
      (source.withStream stream').stream? s' = some stream' := by
  cases source with
  | own stream =>
    cases hstream
    obtain ⟨hgrows, hreads⟩ := Interp.readout_reads hw reading
    refine ⟨_, _, ?_, hgrows.continues, hreads, rfl⟩
    rw [readFrom, hread]
    rfl
  | object a =>
    rw [Source.stream?] at hstream
    split at hstream
    · cases hstream
      rename_i hget
      -- the stream is put back before the form is stored, so the form is built in another store
      have hset : (s.store.set a (.input stream')).get? a = some (.input stream') := by
        simp [hget]
      obtain ⟨hgrows, hreads⟩ :=
        Interp.readout_reads (s := { s with store := s.store.set a (.input stream') })
        (hw.modify a _) reading
      refine ⟨_, _, ?_, hgrows.continues, hreads, ?_⟩
      · rw [readFrom, hget]
        dsimp only
        rw [hread]
        rfl
      · rw [Source.withStream, Source.stream?, hgrows.kept hset]
    · cases hstream

/-- Reading from a source reads the text that it stands at; what is read decides how much of the
stream is left. -/
theorem readFrom_cursor {c d : Cursor} {left : Bytes} (hw : s.store.WellFormed)
    (hstream : source.stream? s = some stream) (hfinite : stream.IsFinite s.disk)
    (hmark : Bookmark.ofCursor c = (mark, stream.pending s.disk))
    (hread : Reader.read s.config.maxDepth c = (reading, d))
    (hafter : Bookmark.ofCursor d = (mark', left)) :
    ∃ r s',
      readFrom source mark s = some ((r, mark', source.withStream (stream.leaving s.disk left)),
        s') ∧ s.Continues s' ∧
      s'.Reads reading r ∧
      (source.withStream (stream.leaving s.disk left)).stream? s' =
        some (stream.leaving s.disk left) ∧
      (source.withStream (stream.leaving s.disk left)).At s' mark' d := by
  have hreadAt := Reader.readAt_ofCursor s.config.maxDepth hmark
  have hleft := Reader.readAt_suffix s.config.maxDepth mark (stream.pending s.disk)
  rw [hread, hafter] at hreadAt
  rw [hreadAt] at hleft
  obtain ⟨hfinite', hpending⟩ := InputStream.pending_leaving hfinite hleft
  obtain ⟨r, s', hfrom, hcont, hreads, hstream'⟩ :=
    readFrom_stream hw hstream (InputStream.readForm_eq hreadAt)
  refine ⟨r, s', hfrom, hcont, hreads, hstream', _, hstream', ?_, ?_⟩
  · rwa [hcont.disk]
  · rw [hcont.disk, hpending, hafter]

end Effect

theorem Reader.read_eq_form_iff_spelling {limit : Nat} {c d : Cursor} {f : Form} :
    read limit c = (.form f, d) ↔ ∃ lead text, Layout lead ∧ Spelling limit f text d.text ∧
    c.text = lead ++ (text ++ d.text) ∧
      d.line = c.line + Bytes.lineBreaks (lead ++ text) := by
  rw [read_eq_form_iff]
  constructor
  · intro h
    obtain ⟨ts, hs, hl⟩ := h
    exact hs.spelling hl
  · intro h
    obtain ⟨lead, text, hlead, hs, htext, hline⟩ := h
    obtain ⟨ts, hts, hl⟩ := hs.lexes (c.line + Bytes.lineBreaks lead)
    have hall := Token.lexes_layout hlead hts.ne_nil hl
    rw [Nat.add_assoc, ← Bytes.lineBreaks_append, ← hline, ← htext] at hall
    exact ⟨ts, hts, hall⟩

/-- Reading from a source accepts the spellings of forms within the limit and nothing else, and
stops right behind them. -/
theorem readFrom_exactly_spellings {s : Interp} (hw : s.store.WellFormed) {source : Source}
    {mark : Bookmark} {c : Cursor} (h : source.At s mark c) :
    (∀ f lead text rest, Layout lead → Spelling s.config.maxDepth f text rest →
      c.text = lead ++ (text ++ rest) →
      ∃ v mark' source' s', Effect.readFrom source mark s = some ((.value v, mark', source'), s') ∧
        s'.Stored f v ∧
        source'.At s' mark' ⟨rest, c.line + Bytes.lineBreaks (lead ++ text)⟩) ∧
    ∀ v mark' source' s', Effect.readFrom source mark s = some ((.value v, mark', source'), s') →
      ∃ f lead text rest, Layout lead ∧ Spelling s.config.maxDepth f text rest ∧
        c.text = lead ++ (text ++ rest) ∧
        s'.Stored f v ∧ source'.At s' mark' ⟨rest, c.line + Bytes.lineBreaks (lead ++ text)⟩ := by
  obtain ⟨stream, hstream, hfinite, hmark⟩ := h
  rcases hread : Reader.read s.config.maxDepth c with ⟨reading, d⟩
  rcases hafter : Bookmark.ofCursor d with ⟨mark', left⟩
  obtain ⟨r, s', hfrom, _, hreads, _, hat⟩ :=
    Effect.readFrom_cursor hw hstream hfinite hmark hread hafter
  constructor
  · intro f lead text rest hlead hs htext
    have hform : Reader.read s.config.maxDepth c =
        (.form f, ⟨rest, c.line + Bytes.lineBreaks (lead ++ text)⟩) :=
      Reader.read_eq_form_iff_spelling.mpr ⟨lead, text, hlead, hs, htext, rfl⟩
    cases hread.symm.trans hform
    cases hreads with
    | value hv => exact ⟨_, mark', _, s', hfrom, hv, hat⟩
  · intro v mark₁ source₁ s₁ hvalue
    cases hfrom.symm.trans hvalue
    cases hreads with
    | @value f _ hv =>
      obtain ⟨lead, text, hlead, hs, htext, hline⟩ := Reader.read_eq_form_iff_spelling.mp hread
      refine ⟨f, lead, text, d.text, hlead, hs, htext, hv, ?_⟩
      rwa [← hline]

/-- A comment and a quoted list, nested as deep as the limit allows, with another form behind it. -/
theorem readFrom_exactly_spellings_quoted :
    let s := Interp.bare ⟨3, 65536, false⟩ .empty 0
    let source := Source.own (.memory (Bytes.ofString ";c\n'(-0x1F ,b \"s\")x"))
    ∃ v mark' source' s', Effect.readFrom source .start s = some ((.value v, mark', source'), s') ∧
      s'.Stored
        (Mark.quote.wrap (.list [.num (-31), Mark.unquote.wrap (.sym [98]), .str [115]])) v ∧
      source'.At s' mark' ⟨[120], 2⟩ := by
  intro s source
  have hw : s.store.WellFormed := Store.WellFormed.empty.insert _
  have hat : source.At s .start ⟨Byte.space :: Bytes.ofString ";c\n'(-0x1F ,b \"s\")x", 1⟩ :=
    ⟨_, rfl, trivial, rfl⟩
  have hlead : Layout [32, 59, 99, 10] := .blank rfl (@Layout.comment [99] [] (by decide) .nil)
  have hnum : Numeral.Denotes [45, 48, 120, 49, 70] (-31 : Int64).toInt :=
    Numeral.parse_eq_some_iff.mp (by decide +kernel)
  have hname : Token.IsAtom [98] := ⟨by decide, by decide +kernel, by decide +kernel⟩
  have hclose : SpellingAll 1 [] [41] [120] := .nil .nil
  have hstr : SpellingAll 1 [.str [115]] [32, 34, 115, 34, 41] [120] :=
    .cons (.blank rfl .nil) (.str (by decide)) hclose
  have hsym : Spelling 0 (.sym [98]) [98] [32, 34, 115, 34, 41, 120] :=
    .sym hname (by decide) (.cons rfl _)
  have hmark : SpellingAll 1 [Mark.unquote.wrap (.sym [98]), .str [115]] [32, 44, 98, 32, 34, 115,
      34, 41] [120] :=
    .cons (.blank rfl .nil) (.mark .unquote .nil (by decide) hsym) hstr
  have hitems : SpellingAll 1 [.num (-31), Mark.unquote.wrap (.sym [98]), .str [115]]
      [45, 48, 120, 49, 70, 32, 44, 98, 32, 34, 115, 34, 41] [120] :=
        .cons .nil (.num hnum (.cons rfl _)) hmark
  have hs :
    Spelling 3 (Mark.quote.wrap (.list [.num (-31), Mark.unquote.wrap (.sym [98]), .str [115]]))
      [39, 40, 45, 48, 120, 49, 70, 32, 44, 98, 32, 34, 115, 34, 41] [120] :=
        .mark .quote .nil (by decide) (.list hitems)
  exact (readFrom_exactly_spellings hw hat).1 _ _ _ _ hlead hs (by decide +kernel)

end HeapLisp
