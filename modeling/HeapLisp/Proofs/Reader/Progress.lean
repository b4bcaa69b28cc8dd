import HeapLisp.Proofs.Reader.Skipping

namespace HeapLisp

namespace Bookmark

/-- The reader looks at a byte or at the end of the text, as it does once it has read from a
stream. -/
def Regular (mark : Bookmark) : Prop := ∀ code, mark.peek ≠ .other code

/-- What a reader has in front of it: the character it looks at, and the rest of the text behind
that one. Nothing follows the end. -/
def ahead (mark : Bookmark) (rest : Bytes) : Bytes :=
  match mark.peek with
  | .ended => []
  | .byte b => b :: rest
  | .other _ => rest

theorem start_regular : start.Regular := by
  intro code h
  cases h

theorem regular_ofCursor (c : Cursor) : (ofCursor c).1.Regular := by
  obtain ⟨text, line⟩ := c
  cases text with
  | nil =>
    intro code h
    cases h
  | cons b rest =>
    intro code h
    cases h

theorem ahead_ofCursor (c : Cursor) : (ofCursor c).1.ahead (ofCursor c).2 = c.text := by
  obtain ⟨text, line⟩ := c
  cases text <;> rfl

theorem line_ofCursor (c : Cursor) : (ofCursor c).1.line = c.line := by
  obtain ⟨text, line⟩ := c
  cases text <;> rfl

theorem ofCursor_of_text_eq_nil {c : Cursor} (h : c.text = []) :
    (ofCursor c).1.peek = .ended ∧ (ofCursor c).2 = [] := by
  obtain ⟨text, line⟩ := c
  cases h
  exact ⟨rfl, rfl⟩

end Bookmark

theorem Token.length_place_next_lt {c : Cursor} (h : ∀ after, next c ≠ .ended after) :
    (next c).place.text.length < c.text.length := by
  have hskip := (skipBlanks_suffix false c.text c.line).length_le
  unfold next at h ⊢
  split
  · rename_i line heq
    simp only [heq] at h
    exact absurd rfl (h _)
  · rename_i b rest line heq
    have hstart := (start_suffix b rest line).length_le
    rw [heq, List.length_cons] at hskip
    omega

theorem Token.start_ne_ended (b : UInt8) (rest : Bytes) (line : Nat) (d : Cursor) :
    start b rest line ≠ .ended d := by
  intro h
  unfold start at h
  split_ifs at h <;> (try split at h) <;> (try cases h)
  simp only [atom, ofAtom] at h
  split_ifs at h
  split at h <;> cases h

theorem Token.text_eq_nil_of_next_eq_ended {c d : Cursor} (h : next c = .ended d) :
    d.text = [] := by
  unfold next at h
  split at h
  · cases h
    rfl
  · exact absurd h (start_ne_ended _ _ _ d)

namespace Reader

variable {limit : Nat} {c d : Cursor} {mark mark' : Bookmark} {reading : Reading}
  {rest left : Bytes}

theorem exists_passed (h : read limit c = (reading, d)) (hr : reading ≠ .ended) :
    ∃ passed ≠ [], c.text = passed ++ d.text := by
  have hsuffix := parse_suffix limit .none (Token.next c)
  have hplace := Token.next_suffix c
  rw [← read, h] at hsuffix
  have hshorter : d.text.length < c.text.length := by
    have hlexeme : ∀ after, Token.next c ≠ .ended after := by
      intro after hended
      rw [read_eq_ended_iff.mpr hended] at h
      cases h
      exact hr rfl
    have hnext := Token.length_place_next_lt hlexeme
    have hle := hsuffix.length_le
    exact Nat.lt_of_le_of_lt hle hnext
  obtain ⟨passed, hpassed⟩ := hsuffix.trans hplace
  refine ⟨passed, ?_, hpassed.symm⟩
  intro hnil
  rw [← hpassed, hnil, List.nil_append] at hshorter
  exact Nat.lt_irrefl _ hshorter

/-- From a bookmark on, a reading comes to nothing only at the end, and passes something
otherwise. -/
theorem readAt_advances (hmark : mark.Regular)
    (h : readAt limit mark rest = (reading, mark', left)) :
    mark'.Regular ∧ (reading = .ended → mark'.peek = .ended ∧ (mark.peek ≠ .ended → left = [])) ∧
      (reading ≠ .ended → ∃ passed ≠ [], mark.ahead rest = passed ++ mark'.ahead left) := by
  unfold readAt at h
  cases hpeek : mark.peek with
  | other code => exact absurd hpeek (hmark code)
  | ended =>
    rw [hpeek] at h
    cases h
    exact ⟨hmark, fun _ => ⟨hpeek, fun hne => absurd rfl hne⟩, fun hne => absurd rfl hne⟩
  | byte b =>
    rw [hpeek] at h
    rcases hread : read limit ⟨b :: rest, mark.line⟩ with ⟨reading₀, d⟩
    simp only [hread] at h
    obtain ⟨rfl, hafter⟩ := Prod.mk.inj h
    obtain rfl : (Bookmark.ofCursor d).1 = mark' := congrArg Prod.fst hafter
    obtain rfl : (Bookmark.ofCursor d).2 = left := congrArg Prod.snd hafter
    refine ⟨Bookmark.regular_ofCursor d, ?_, ?_⟩
    · intro hended
      rw [hended] at hread
      have hnil := Token.text_eq_nil_of_next_eq_ended (read_eq_ended_iff.mp hread)
      obtain ⟨hpeek', hleft⟩ := Bookmark.ofCursor_of_text_eq_nil hnil
      exact ⟨hpeek', fun _ => hleft⟩
    · intro hne
      rw [Bookmark.ahead_ofCursor, Bookmark.ahead, hpeek]
      exact exists_passed hread hne

end Reader

/-- The source reads from a stream that comes to an end and still holds the text. -/
def Source.Holds (s : Interp) (source : Source) (text : Bytes) : Prop :=
  ∃ stream, source.stream? s = some stream ∧ stream.IsFinite s.disk ∧ stream.pending s.disk = text

/-- Reading from a source that holds a text returns; it comes to nothing only at the end, and passes
something otherwise. -/
theorem Effect.readFrom_advances {s : Interp} {source : Source} {mark : Bookmark} {text : Bytes}
    (hw : s.store.WellFormed) (hsource : source.Holds s text) (hmark : mark.Regular) :
    ∃ r mark' stream' s' left, readFrom source mark s = some ((r, mark', source.withStream stream'),
      s') ∧ s.Continues s' ∧
      (source.withStream stream').Holds s' left ∧ mark'.Regular ∧
      (r = .ended → mark'.peek = .ended ∧ (mark.peek ≠ .ended → left = [])) ∧
      (r ≠ .ended → ∃ passed ≠ [], mark.ahead text = passed ++ mark'.ahead left) := by
  obtain ⟨stream, hstream, hfinite, rfl⟩ := hsource
  rcases hread : Reader.readAt s.config.maxDepth mark (stream.pending s.disk)
    with ⟨reading, mark', left⟩
  have hleft := Reader.readAt_suffix s.config.maxDepth mark (stream.pending s.disk)
  rw [hread] at hleft
  obtain ⟨hfinite', hpending⟩ := InputStream.pending_leaving hfinite hleft
  obtain ⟨hregular, hended, hpassed⟩ := Reader.readAt_advances hmark hread
  obtain ⟨r, s', hfrom, hcont, hreads, hstream'⟩ :=
    readFrom_stream hw hstream (InputStream.readForm_eq hread)
  refine ⟨r, mark', _, s', left, hfrom, hcont, ⟨_, hstream', ?_, ?_⟩, hregular, ?_, ?_⟩
  · rwa [hcont.disk]
  · rwa [hcont.disk]
  · intro hr
    apply hended
    cases hreads with
    | ended => rfl
    | value | failed => cases hr
  · intro hr
    apply hpassed
    intro hreading
    cases hreads with
    | ended => exact hr rfl
    | value | failed => cases hreading

/-- From a bookmark on, a source is read again and again, with these readings; each one goes on from
the bookmark of the one before. -/
inductive Source.Reads : Source → Bookmark → Interp → List Reading → Source → Bookmark →
    Interp → Prop where
  | nil (source : Source) (mark : Bookmark) (s : Interp) : Reads source mark s [] source mark s
  | cons {source source₁ source' : Source} {mark mark₁ mark' : Bookmark} {s s₁ s' : Interp}
    {r : Readout} {reading : Reading}
    {readings : List Reading} (h : Effect.readFrom source mark s = some ((r, mark₁, source₁), s₁))
    (hr : s₁.Reads reading r)
    (hs : Reads source₁ mark₁ s₁ readings source' mark' s') :
    Reads source mark s (reading :: readings) source' mark' s'

end HeapLisp
