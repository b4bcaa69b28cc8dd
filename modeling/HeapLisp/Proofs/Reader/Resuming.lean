import HeapLisp.Proofs.Machine.Lasting
import HeapLisp.Proofs.Parameters.Rebinding
import HeapLisp.Proofs.Reader.Progress
import HeapLisp.Proofs.Reader.Renumbering

namespace HeapLisp

theorem Peek.ofCode_toCode {p : Peek} (h : ∀ code, p ≠ .other code) : ofCode p.toCode = p := by
  cases p with
  | ended => decide +kernel
  | byte b =>
    have hbytes : ∀ n < 256, ofCode (toCode (.byte (UInt8.ofNat n))) = .byte (UInt8.ofNat n) := by
      decide +kernel
    have hb := hbytes b.toNat b.toNat_lt
    rwa [UInt8.ofNat_toNat] at hb
  | other code => exact absurd rfl (h code)

/-- Readings that are the same, but for the line of an error. -/
inductive Reading.Alike : Reading → Reading → Prop where
  | ended : Alike .ended .ended
  | form (f : Form) : Alike (.form f) (.form f)
  | failed {e e' : ReadError} (hfault : e'.fault = e.fault) (hcontext : e'.context = e.context)
    (complete : List Form) :
    Alike (.failed e complete) (.failed e' complete)

theorem Reading.alike_lower (reading : Reading) (k k' : Nat) :
    (reading.lower k).Alike (reading.lower k') := by
  cases reading with
  | ended => exact .ended
  | form f => exact .form f
  | failed e complete =>
    apply Alike.failed
    · rfl
    · rfl

theorem Reader.readAt_alike {limit : Nat} {mark mark' : Bookmark} {rest left : Bytes}
    {reading : Reading} (h : readAt limit mark rest = (reading, mark', left)) (line : Nat) :
    ∃ reading' line', readAt limit ⟨mark.peek, line⟩ rest = (reading', ⟨mark'.peek, line'⟩, left) ∧
      reading.Alike reading' := by
  obtain ⟨reading₀, peek, line₀, left₀, hlower⟩ := readAt_lower limit mark.peek 0 rest
  have hmark := hlower mark.line
  have hline := hlower line
  rw [Nat.zero_add] at hmark hline
  cases h.symm.trans hmark
  exact ⟨_, _, hline, reading₀.alike_lower mark.line line⟩

namespace Interp

variable {scope a : Addr} {text left : Bytes} {s t : Interp} {mark mark' : Bookmark}
  {reading : Reading}

/-- There is a scope, and an open stream that holds the text. -/
structure Streams (scope a : Addr) (text : Bytes) (t : Interp) : Prop where
  whole : t.Whole
  isScope : ∃ sc, t.store.get? scope = some (.scope sc)
  isStream : ∃ stream, t.store.get? a = some (.input stream) ∧ stream.isOpen = true ∧
    stream.IsFinite t.disk ∧
    stream.pending t.disk = text

namespace Streams

theorem hasScope (h : t.Streams scope a text) : t.HasScope scope := ⟨h.whole.intact, h.isScope⟩

theorem alloc (h : t.Streams scope a text) {o : Object}
    (ho : ∀ c ∈ o.children, t.store.contains c = true)
    (hx : ∀ x, o.Uses x → (t.symbols.spelling? x).isSome) : (t.alloc o).2.Streams scope a text := by
  have hadds := Alters.alloc h.whole.intact.toWellFormed o
  obtain ⟨sc, hsc⟩ := h.isScope
  obtain ⟨stream, hget, hrest⟩ := h.isStream
  exact ⟨(h.whole.alloc ho hx).1, ⟨sc, hadds.changed hsc⟩, stream, hadds.changed hget, hrest⟩

end Streams

theorem Whole.readFrom {r : Readout × Bookmark × Source} (h : s.Whole)
    (hread : Effect.readFrom (.object a) mark s = some (r, t)) : t.Whole := by
  have hlive : s.store.contains a = true := by
    rw [Effect.readFrom] at hread
    split at hread
    · cases hread
    · exact Store.contains_iff.mpr ⟨_, ‹_›⟩
    · exact Store.contains_iff.mpr ⟨_, ‹_›⟩
  have hsource : (Matching.self s).Sources false (.object a) (.object a) :=
    .object (Matching.self_pair hlive) rfl
  obtain ⟨N, q, _, s₁, _, hq, _, _, hstates, _⟩ := h.states.readForm hsource mark
  cases hread.symm.trans hq
  exact (whole_of_states hstates).1

/-- From a stream of the interpreter the text is read that it holds, and the stream then holds what
is left. -/
theorem Streams.readFrom (h : t.Streams scope a text)
    (hread : Reader.readAt t.config.maxDepth mark text = (reading, mark', left)) :
    ∃ r t', Effect.readFrom (.object a) mark t = some ((r, mark', .object a), t') ∧
      t'.Reads reading r ∧
      t'.Streams scope a left ∧ t'.config = t.config := by
  obtain ⟨stream, hget, hopen, hfinite, rfl⟩ := h.isStream
  have hstream : (Source.object a).stream? t = some stream := by rw [Source.stream?, hget]
  have hleft := Reader.readAt_suffix t.config.maxDepth mark (stream.pending t.disk)
  rw [hread] at hleft
  obtain ⟨hfinite', hpending⟩ := InputStream.pending_leaving hfinite hleft
  have hw := h.whole.intact.toWellFormed
  obtain ⟨r, t', hfrom, hcont, hreads, hstream'⟩ :=
    Effect.readFrom_stream hw hstream (InputStream.readForm_eq hread)
  refine ⟨r, t', hfrom, hreads, ⟨h.whole.readFrom hfrom, ?_, stream.leaving t.disk left, ?_, ?_, ?_,
    ?_⟩, hcont.config⟩
  · obtain ⟨⟨old, parent⟩, hsc⟩ := h.isScope
    have hlasts : t.store.Lasts .univ t'.store := Effect.readFrom_lasts hw hfrom
    obtain ⟨o, ho, hbecomes⟩ := hlasts.becomes scope trivial _ hsc
    cases hbecomes with
    | scope => exact ⟨_, ho⟩
  · rw [Source.withStream, Source.stream?] at hstream'
    split at hstream'
    · cases hstream'
      assumption
    · cases hstream'
  · cases stream with
    | memory => rfl
    | file reader =>
      cases reader with
      | none => cases hopen
      | some => rfl
  · rwa [hcont.disk]
  · rwa [hcont.disk]

theorem Stored.owns {f : Form} {v : Value} (h : t.Stored f v) : t.Owns v := by
  cases h with
  | num k => exact .num t k
  | sym hx => exact .sym (Option.isSome_of_eq_some hx)
  | str ha => exact .ref ha
  | list ha => exact .ref ha

/-- What `read` makes of a reading and of the character it stopped at: a list of the form, or of
`nil` at the end, and of the character, or an error. -/
inductive Returns (t : Interp) : Reading → Peek → Except Addr Value → Prop where
  | ended {peek : Peek} {b : Addr} (hb : t.store.get? b = some (.list #[.nil, .num peek.toCode])) :
    t.Returns .ended peek (.ok (.ref b))
  | form {f : Form} {v : Value} {peek : Peek} {b : Addr} (hv : t.Stored f v)
    (hb : t.store.get? b = some (.list #[v, .num peek.toCode])) :
    t.Returns (.form f) peek (.ok (.ref b))
  | failed {e : ReadError} {complete : List Form} {peek : Peek} {b : Addr} {location : Location}
    (hb : t.store.get? b = some (.failure ⟨.unreadable e, location, .nil⟩)) :
    t.Returns (.failed e complete) peek (.error b)

end Interp

namespace Eval

variable {scope a : Addr} {code : Int64} {text left : Bytes} {t : Interp} {mark mark' : Bookmark}
  {reading : Reading}

/-- `read`, called with a stream and the character before what the stream holds. -/
def readCall (scope a : Addr) (code : Int64) : Eval Value :=
  runPrimitive scope .read [.ref a, .num code]

theorem exists_handOver_ends {r : Readout} (ht : t.Streams scope a text) (hr : t.Reads reading r)
    (mark : Bookmark) :
    ∃ result t', (handOver scope r mark).Ends t result t' ∧ t'.Returns reading mark.peek result ∧
      t'.Streams scope a text ∧
      t'.config = t.config := by
  have hw := ht.whole.intact.toWellFormed
  -- the new list holds a value of the interpreter and a number
  have hpair {v : Value} (hv : t.Owns v) :
      (t.alloc (.list #[v, .num mark.peek.toCode])).2.Streams scope a text := by
    apply ht.alloc
    · intro c hc
      have hmem := Object.mem_children_list.mp hc
      simp at hmem
      exact hv.live c hmem.symm
    · intro x hx
      simp [Object.Uses] at hx
      exact hv.named x hx.symm
  have hnil := ht.whole.owns_nil
  cases hr with
  | ended =>
    have hget := Interp.get?_alloc hw (.list #[.nil, .num mark.peek.toCode])
    exact ⟨_, _, .effect rfl (.done _ _), .ended hget, hpair hnil, rfl⟩
  | @value f v hv =>
    have hadds := Interp.Alters.alloc hw (.list #[v, .num mark.peek.toCode])
    have hget := Interp.get?_alloc hw (.list #[v, .num mark.peek.toCode])
    exact ⟨_, _, .effect rfl (.done _ _), .form (hv.grow (.of_onlyAdds hadds)) hget,
      hpair hv.owns, rfl⟩
  | failed e complete =>
    obtain ⟨location, hends⟩ := exists_raise_ends (α := Value) ht.whole.intact ht.hasScope.live
      (.unreadable e) .nil
    have hget := Interp.get?_alloc hw (.failure ⟨.unreadable e, location, .nil⟩)
    refine ⟨_, _, hends, .failed hget, ht.alloc ?_ hnil.named, rfl⟩
    intro c hc
    cases Object.mem_children_failure.mp hc

theorem exists_readCall_ends (ht : t.Streams scope a text)
    (hread : Reader.readAt t.config.maxDepth (.resume code) text = (reading, mark', left)) :
    ∃ result t', (readCall scope a code).Ends t result t' ∧ t'.Returns reading mark'.peek result ∧
      t'.Streams scope a left ∧
      t'.config = t.config := by
  obtain ⟨stream, hget, hopen, _⟩ := ht.isStream
  obtain ⟨r, t₁, hfrom, hreads, ht₁, hconfig₁⟩ := ht.readFrom hread
  obtain ⟨result, t', hends, hreturns, ht', hconfig⟩ := exists_handOver_ends ht₁ hreads mark'
  refine ⟨result, t', ?_, hreturns, ht', hconfig.trans hconfig₁⟩
  have harg : (inputArg scope (.ref a)).Ends t (.ok a) t := by
    apply ends_fetch_bind.mpr
    refine ⟨_, hget, ?_⟩
    simp only [hopen, if_true]
    exact .done a t
  exact ends_bind.mpr (.inl ⟨a, t, harg, .effect hfrom hends⟩)

/-- Call after call of `read`, each with the character that the one before gave back, and the forms
that they gave. -/
inductive ReadsOn (scope a : Addr) : Int64 → Interp → List Form → Int64 → Interp → Prop where
  | nil (code : Int64) (t : Interp) : ReadsOn scope a code t [] code t
  | cons {code code' : Int64} {t t₁ t' : Interp} {f : Form} {forms : List Form} {peek : Peek}
    {result : Except Addr Value}
    {fuel : Nat} (h : t.run fuel (readCall scope a code) = .finished result t₁)
    (hr : t₁.Returns (.form f) peek result)
    (hs : ReadsOn scope a peek.toCode t₁ forms code' t') :
    ReadsOn scope a code t (f :: forms) code' t'

end Eval

/-- A reader of a source, and an interpreter where as much is to be read from a stream. -/
structure Abreast (scope a : Addr) (text : Bytes) (source : Source) (mark : Bookmark)
    (s t : Interp) : Prop where
  wellFormed : s.store.WellFormed
  regular : mark.Regular
  limit : t.config.maxDepth = s.config.maxDepth
  holds : source.Holds s text
  streams : t.Streams scope a text

namespace Abreast

variable {scope a : Addr} {text : Bytes} {source source' : Source} {mark mark' : Bookmark}
  {s s' t : Interp}

theorem step (h : Abreast scope a text source mark s t) :
    ∃ r mark' source' s' reading fuel result t' reading' left,
      Effect.readFrom source mark s = some ((r, mark', source'), s') ∧ s'.Reads reading r ∧
      t.run fuel (Eval.readCall scope a mark.peek.toCode) = .finished result t' ∧
      t'.Returns reading' mark'.peek result ∧
      reading.Alike reading' ∧ Abreast scope a left source' mark' s' t' := by
  obtain ⟨stream, hstream, hfinite, hpending⟩ := h.holds
  rcases hread : Reader.readAt s.config.maxDepth mark text with ⟨reading, mark', left⟩
  have hleft := Reader.readAt_suffix s.config.maxDepth mark text
  have hregular := (Reader.readAt_advances h.regular hread).1
  obtain ⟨reading', line', hresumed, halike⟩ := Reader.readAt_alike hread 1
  have hcode : (⟨mark.peek, 1⟩ : Bookmark) = .resume mark.peek.toCode := by
    rw [Bookmark.resume, Peek.ofCode_toCode h.regular]
  rw [← h.limit, hcode] at hresumed
  obtain ⟨result, t', hends, hreturns, hstreams, hconfig⟩ :=
    Eval.exists_readCall_ends h.streams hresumed
  obtain ⟨fuel, hrun⟩ := Interp.run_finished_iff.mpr hends
  subst hpending
  rw [hread] at hleft
  obtain ⟨hfinite', hpending'⟩ := InputStream.pending_leaving hfinite hleft
  obtain ⟨r, s', hfrom, hcont, hreads, hstream'⟩ :=
    Effect.readFrom_stream h.wellFormed hstream (InputStream.readForm_eq hread)
  refine ⟨r, mark', _, s', reading, fuel, result, t', reading', left, hfrom, hreads, hrun, hreturns,
    halike, ?_⟩
  have hholds : (source.withStream (stream.leaving s.disk left)).Holds s' left := by
    refine ⟨_, hstream', ?_, ?_⟩
    · rwa [hcont.disk]
    · rwa [hcont.disk]
  have hlimit : t'.config.maxDepth = s'.config.maxDepth := by rw [hconfig, hcont.config, h.limit]
  exact ⟨hcont.wellFormed, hregular, hlimit, hholds, hstreams⟩

theorem run {forms : List Form} (h : Abreast scope a text source mark s t)
    (hreads : source.Reads mark s (forms.map .form) source' mark' s') :
    ∃ t' left, Eval.ReadsOn scope a mark.peek.toCode t forms mark'.peek.toCode t' ∧
      Abreast scope a left source' mark' s' t' := by
  induction forms generalizing source mark s t text with
  | nil =>
    cases hreads
    exact ⟨t, text, .nil _ t, h⟩
  | cons f forms ih =>
    cases hreads with
    | cons hfrom hr hs =>
      obtain ⟨r, mark₁, source₁, s₁, reading, fuel, result, t₁, reading', left, hfrom', hr', hrun,
          hreturns, halike, h₁⟩ :=
        h.step
      cases hfrom.symm.trans hfrom'
      obtain ⟨t', left', hon, h'⟩ := ih h₁ hs
      refine ⟨t', left', .cons hrun ?_ hon, h'⟩
      -- the value is one form only, so the reading that `read` answers to is the one of the source
      cases hr with
      | value hv =>
        cases hr' with
        | value hv' =>
          cases hv.unique hv'
          cases halike
          exact hreturns

end Abreast

/-- Reading can stop after any form and resume. Where a reader that never stops reads forms from a
text, calls of `read`, the first with a space and each other one with the character that the one
before gave back, read the same forms in the same order. Both then look at the same character and
have as much of the text left, and their next readings are alike: the same form, the end, or an
error with the same cause, blamed on a line of its own. -/
theorem Source.reads_resumed {scope a : Addr} {text : Bytes} {source source' : Source}
    {mark' : Bookmark} {s s' t : Interp} {forms : List Form} (hs : s.store.WellFormed)
    (hsource : source.Holds s text) (ht : t.Streams scope a text)
    (hlimit : t.config.maxDepth = s.config.maxDepth)
    (hreads : source.Reads .start s (forms.map .form) source' mark' s') :
    ∃ t', Eval.ReadsOn scope a 32 t forms mark'.peek.toCode t' ∧
      (∃ left, source'.Holds s' left ∧ t'.Streams scope a left) ∧
      ∃ r mark₁ source₁ s₁ reading fuel result t₁ reading',
        Effect.readFrom source' mark' s' = some ((r, mark₁, source₁), s₁) ∧ s₁.Reads reading r ∧
        t'.run fuel (Eval.readCall scope a mark'.peek.toCode) = .finished result t₁ ∧
        t₁.Returns reading' mark₁.peek result ∧
        reading.Alike reading' ∧ ∃ left, source₁.Holds s₁ left ∧ t₁.Streams scope a left := by
  have hbegin : Abreast scope a text source .start s t :=
    ⟨hs, Bookmark.start_regular, hlimit, hsource, ht⟩
  obtain ⟨t', left, hon, h'⟩ := hbegin.run hreads
  obtain ⟨r, mark₁, source₁, s₁, reading, fuel, result, t₁, reading', left', hfrom, hr, hrun,
      hreturns, halike, h₁⟩ :=
    h'.step
  refine ⟨t', hon, ⟨left, h'.holds, h'.streams⟩, ?_⟩
  exact ⟨r, mark₁, source₁, s₁, reading, fuel, result, t₁, reading', hfrom, hr, hrun, hreturns,
    halike, left', h₁.holds, h₁.streams⟩

/-- A name before a line end, which `read` gives back, and behind that a string that is not
closed. -/
theorem Source.reads_resumed_name :
    let s := Interp.bare ⟨3, 65536, false⟩ .empty 0
    let text := Bytes.ofString "a\n\"b"
    let t := (s.alloc (.input (.memory text))).2
    ∃ t', Eval.ReadsOn ⟨0⟩ ⟨1⟩ 32 t [.sym [97]] 10 t' ∧
      t'.Streams ⟨0⟩ ⟨1⟩ (Bytes.ofString "\"b") := by
  intro s text t
  have hw : s.store.WellFormed := Store.WellFormed.empty.insert _
  have hname : Token.IsAtom [97] := ⟨by decide, by decide +kernel, by decide +kernel⟩
  have hspelling : Spelling 3 (.sym [97]) [97] [10, 34, 98] := .sym hname (by decide) (.cons rfl _)
  have hread : Reader.read 3 ⟨Byte.space :: text, 1⟩ = (.form (.sym [97]), ⟨[10, 34, 98], 1⟩) :=
    Reader.read_eq_form_iff_spelling.mpr ⟨[32], [97], .blank rfl .nil, hspelling,
      by decide +kernel, by decide +kernel⟩
  have hmark : Bookmark.ofCursor ⟨Byte.space :: text, 1⟩ =
      (.start, InputStream.pending s.disk (.memory text)) :=
    rfl
  have hown : (Source.own (.memory text)).stream? s = some (.memory text) := rfl
  have hsource : (Source.own (.memory text)).Holds s text := ⟨_, hown, trivial, rfl⟩
  obtain ⟨r, s', hfrom, _, hr, _⟩ := Effect.readFrom_cursor hw hown trivial hmark hread rfl
  have hreads : Source.Reads (.own (.memory text)) .start s ([.sym [97]].map .form) _
      ⟨.byte 10, 1⟩ s' :=
    .cons hfrom hr (.nil _ _ _)
  have ht : t.Streams ⟨0⟩ ⟨1⟩ text := by
    have hchildren : ∀ c ∈ (Object.input (.memory text)).children, s.store.contains c = true := by
      simp [Object.children]
    have hsound : t.Sound := ((Interp.bare_sound _ _ _).alloc hchildren (by simp [Object.Uses])).1
    exact ⟨hsound.toWhole, ⟨_, rfl⟩, _, rfl, rfl, trivial, rfl⟩
  obtain ⟨t', hon, ⟨left, ⟨stream, hsome, _, hleft⟩, hstreams⟩, _⟩ :=
    Source.reads_resumed hw hsource ht rfl hreads
  cases hsome
  cases hleft
  exact ⟨t', hon, hstreams⟩

end HeapLisp
