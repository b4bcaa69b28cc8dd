import HeapLisp.Proofs.Reader.Openings
import HeapLisp.Proofs.Reader.Progress

namespace HeapLisp

/-- The second place is further on in the same text, and as many lines further down as there are
line ends between them. -/
def Cursor.Reaches (c d : Cursor) : Prop :=
  ∃ passed, c.text = passed ++ d.text ∧ d.line = c.line + Bytes.lineBreaks passed

namespace Cursor.Reaches

variable {b c d : Cursor}

theorem refl (c : Cursor) : c.Reaches c := ⟨[], rfl, rfl⟩

theorem trans (h : b.Reaches c) (h' : c.Reaches d) : b.Reaches d := by
  obtain ⟨passed, htext, hline⟩ := h
  obtain ⟨passed', htext', hline'⟩ := h'
  refine ⟨passed ++ passed', ?_, ?_⟩
  · rw [htext, htext', List.append_assoc]
  · rw [hline', hline, Bytes.lineBreaks_append, Nat.add_assoc]

end Cursor.Reaches

namespace Token

variable {b : UInt8} {text rest lead body : Bytes} {line : Nat} {c d : Cursor} {t : Token}
  {e : ReadError} {ts : List Token}

/-- Blanks and comments up to the end of the text are passed with all their line ends. -/
theorem skipBlanks_ended {comment : Bool} {line' : Nat}
    (h : skipBlanks comment text line = ⟨[], line'⟩) :
    line' = line + Bytes.lineBreaks text := by
  fun_induction skipBlanks comment text line with
  | case1 comment line =>
    cases h
    rfl
  | case2 comment b rest line hb ih =>
    have hnewline : b = Byte.newline := by simpa using hb
    have hline := ih h
    rw [Bytes.lineBreaks_cons, if_pos hnewline]
    omega
  | case3 b rest line hb ih | case4 comment b rest line hb _ _ ih
  | case5 comment b rest line hb _ _ _ ih =>
    have hnewline : b ≠ Byte.newline := by simpa using hb
    rw [Bytes.lineBreaks_cons, if_neg hnewline]
    exact ih h
  | case6 => cases h

theorem start_eq_failed (h : start b rest line = .failed e d) :
    (b = Byte.doubleQuote ∧ Byte.doubleQuote ∉ rest ∧
      e = (ReadError.of (.unclosed .string)).atLine line ∧
      d = ⟨[], line + Bytes.lineBreaks rest⟩) ∨
    ∃ name number, rest = name ++ d.text ∧ Byte.newline ∉ name ∧ d.line = line ∧
      e.fault = .invalidNumber number := by
  unfold start at h
  split_ifs at h with h₁ h₂ h₃ h₄ h₅ hquote
  · split at h <;> cases h
  · dsimp only at h
    split at h
    · rename_i hdrop
      have hnone : Byte.doubleQuote ∉ rest := by
        intro hmem
        have hall := List.dropWhile_eq_nil_iff.mp hdrop _ hmem
        simp at hall
      have hwhole : rest.takeWhile (· != Byte.doubleQuote) = rest := by
        have hsplit := rest.takeWhile_append_dropWhile (p := (· != Byte.doubleQuote))
        rwa [hdrop, List.append_nil] at hsplit
      rw [hwhole] at h
      cases h
      exact .inl ⟨by simpa using hquote, hnone, rfl, rfl⟩
    · cases h
  · have hsplit := rest.takeWhile_append_dropWhile (p := (!endsAtom ·))
    have hnewline : Byte.newline ∉ rest.takeWhile (!endsAtom ·) := by
      intro hmem
      have hplain := List.mem_takeWhile_imp hmem
      cases hplain
    simp only [atom, ofAtom] at h
    split_ifs at h
    split at h
    · cases h
    · cases h
      exact .inr ⟨_, _, hsplit.symm, hnewline, rfl, rfl⟩

theorem next_eq_failed (h : next c = .failed e d) :
    c.Reaches d ∧
    ((∃ lead body, Layout lead ∧ c.text = lead ++ Byte.doubleQuote :: body ∧
      Byte.doubleQuote ∉ body ∧
      e = (ReadError.of (.unclosed .string)).atLine (c.line + Bytes.lineBreaks lead : Nat)) ∨
      ∃ number, e.fault = .invalidNumber number) := by
  obtain ⟨text, line⟩ := c
  rcases hskip : skipBlanks false text line with ⟨_ | ⟨b, rest⟩, line'⟩
  · simp [next, hskip] at h
  · simp only [next, hskip] at h
    obtain ⟨hblank, _, lead, rfl, rfl, hlead⟩ := exists_layout hskip
    have hnewline : b ≠ Byte.newline := by
      rintro rfl
      cases hblank
    rcases start_eq_failed h with ⟨rfl, hbody, rfl, rfl⟩ | ⟨name, number, hname, hplain,
      hline, hfault⟩
    · refine ⟨⟨lead ++ Byte.doubleQuote :: rest, by simp, ?_⟩,
        .inl ⟨lead, rest, hlead, rfl, hbody, rfl⟩⟩
      rw [Bytes.lineBreaks_append, Bytes.lineBreaks_cons, if_neg hnewline]
      dsimp only
      omega
    · refine ⟨⟨lead ++ b :: name, ?_, ?_⟩, .inr ⟨number, hfault⟩⟩
      · simp [hname]
      · rw [Bytes.lineBreaks_append, Bytes.lineBreaks_cons, if_neg hnewline,
          Bytes.lineBreaks_of_not_mem hplain]
        exact hline

theorem next_eq_token_reaches (h : next c = .token t d) : c.Reaches d := by
  obtain ⟨lead, text, _, _, _, htext, hline⟩ := next_eq_token_iff.mp h
  exact ⟨lead ++ text, htext, hline⟩

/-- The place behind a lexeme is on the line that the line ends before it make. -/
theorem next_reaches (c : Cursor) : c.Reaches (next c).place := by
  cases h : next c with
  | token t d => exact next_eq_token_reaches h
  | failed e d => exact (next_eq_failed h).1
  | ended d =>
    have hnil := text_eq_nil_of_next_eq_ended h
    obtain ⟨text, line⟩ := c
    obtain ⟨text', line'⟩ := d
    cases hnil
    refine ⟨text, by simp [Lexeme.place], ?_⟩
    rcases hskip : skipBlanks false text line with ⟨_ | ⟨b, rest⟩, line₁⟩
    · simp only [next, hskip] at h
      cases h
      exact skipBlanks_ended hskip
    · simp only [next, hskip] at h
      exact absurd h (start_ne_ended b rest line₁ _)

theorem Lexes.reaches (h : Lexes c ts d) : c.Reaches d := by
  induction h with
  | nil c => exact .refl c
  | cons hn _ ih => exact (next_eq_token_reaches hn).trans ih

/-- A token that opens something holds no line end, so it is on the line that is told behind it. -/
theorem next_eq_opens (h : next c = .token t d) (ht : t.Opens) :
    ∃ written, Written t written ∧ c.Reaches ⟨written ++ d.text, d.line⟩ := by
  obtain ⟨lead, written, _, hwritten, _, htext, hline⟩ := next_eq_token_iff.mp h
  have hbreaks : Bytes.lineBreaks written = 0 := by
    rcases ht with rfl | ⟨m, rfl⟩
    · cases hwritten
      rfl
    · cases hwritten
      cases m <;> rfl
  refine ⟨written, hwritten, lead, ?_, ?_⟩
  · rw [htext, List.append_assoc]
  · rw [hline, Bytes.lineBreaks_append, hbreaks, Nat.add_zero]

end Token

/-- The text ends with a byte that is no line end. -/
def Bytes.EndsInLine (text : Bytes) : Prop :=
  ∃ init last, text = init ++ [last] ∧ last ≠ Byte.newline

theorem Bytes.EndsInLine.append {text : Bytes} (h : EndsInLine text) (before : Bytes) :
    EndsInLine (before ++ text) := by
  obtain ⟨init, last, rfl, hlast⟩ := h
  exact ⟨before ++ init, last, (List.append_assoc _ _ _).symm, hlast⟩

theorem Bytes.endsInLine_singleton {b : UInt8} (h : b ≠ Byte.newline) : EndsInLine [b] :=
  ⟨[], b, rfl, h⟩

theorem Token.IsAtom.endsInLine {text : Bytes} (h : IsAtom text) : Bytes.EndsInLine text := by
  refine ⟨text.dropLast, text.getLast h.ne_nil, (text.dropLast_append_getLast h.ne_nil).symm, ?_⟩
  intro hlast
  have hplain := h.plain _ (text.getLast_mem h.ne_nil)
  rw [hlast] at hplain
  cases hplain

mutual

theorem Spelling.endsInLine : {room : Nat} → {f : Form} → {text rest : Bytes} →
    Spelling room f text rest → text.EndsInLine
  | _, _, _, _, .num h _ => (Token.isAtom_of_denotes h).endsInLine
  | _, _, _, _, .sym h _ _ => h.endsInLine
  | _, .str body, _, _, .str _ =>
    (Bytes.endsInLine_singleton (by decide)).append (Byte.doubleQuote :: body)
  | _, _, _, _, .list h => (SpellingAll.endsInLine h).append [Byte.openParen]
  | _, _, _, _, .mark m _ _ h => ((Spelling.endsInLine h).append _).append m.text

theorem SpellingAll.endsInLine : {room : Nat} → {fs : List Form} → {text rest : Bytes} →
    SpellingAll room fs text rest →
    text.EndsInLine
  | _, _, _, _, .nil _ => (Bytes.endsInLine_singleton (by decide)).append _
  | _, _, _, _, .cons _ _ hs => ((SpellingAll.endsInLine hs).append _).append _

end

namespace Reader

variable {limit lists : Nat} {c d : Cursor}

theorem skipLists_reaches (lists : Nat) (c : Cursor) : c.Reaches (skipLists lists c).2 := by
  fun_induction skipLists lists c with
  | case1 c => exact .refl c
  | case2 c n after h | case3 c n e after h =>
    have hnext := Token.next_reaches c
    rw [h] at hnext
    exact hnext
  | case4 c n after h ih | case5 c n after h ih | case6 c n t after _ _ h ih =>
    exact (Token.next_eq_token_reaches h).trans ih

theorem skipMarked_reaches (lists : Nat) (c : Cursor) : c.Reaches (skipMarked lists c).2 := by
  fun_induction skipMarked lists c with
  | case1 c after h | case2 c e after h =>
    have hnext := Token.next_reaches c
    rw [h] at hnext
    exact hnext
  | case3 c m after h ih => exact (Token.next_eq_token_reaches h).trans ih
  | case4 c after h | case5 c t after _ _ h =>
    exact (Token.next_eq_token_reaches h).trans (skipLists_reaches _ after)

theorem passOver_reaches (t : Token) (opens : List Open) (c : Cursor) :
    c.Reaches (passOver t opens c).2 := by
  unfold passOver
  split
  · exact skipLists_reaches _ c
  · exact skipMarked_reaches _ c

theorem parse_reaches (limit : Nat) (n : Nesting) (l : Lexeme) :
    l.place.Reaches (parse limit n l).2 := by
  fun_induction parse limit n l with
  | case1 n after | case2 n after | case3 n e after => exact .refl after
  | case4 n t after n' hstep ih => exact (Token.next_reaches after).trans ih
  | case5 n t after | case6 n t after => exact .refl after
  | case7 n t after hstep =>
    rw [skipDeep, failAfter_place]
    exact passOver_reaches t n.opens after

/-- A reading, whether it fails or not, tells the line of the place where it stops. -/
theorem read_reaches (limit : Nat) (c : Cursor) : c.Reaches (read limit c).2 :=
  (Token.next_reaches c).trans (parse_reaches limit .none (Token.next c))

theorem read_form_reaches {f : Form} (h : read limit c = (.form f, d)) :
    ∃ lead init last, Layout lead ∧ Spelling limit f (init ++ [last]) d.text ∧
      c.text = lead ++ (init ++ last :: d.text) ∧
      c.Reaches ⟨last :: d.text, d.line⟩ := by
  obtain ⟨lead, spelling, hlead, hspelling, htext, hline⟩ := read_eq_form_iff_spelling.mp h
  obtain ⟨init, last, rfl, hlast⟩ := hspelling.endsInLine
  rw [List.append_assoc, List.singleton_append] at htext
  have hbreaks : Bytes.lineBreaks [last] = 0 := by simp [Bytes.lineBreaks, hlast]
  refine ⟨lead, init, last, hlead, hspelling, htext, lead ++ init, ?_, ?_⟩
  · rw [htext, List.append_assoc]
  · rw [hline, ← List.append_assoc, Bytes.lineBreaks_append, hbreaks, Nat.add_zero]

/-- Behind some tokens a string begins that is not closed; `body` is all that follows its quote
mark. -/
def UnclosedString (c : Cursor) (body : Bytes) : Prop :=
  ∃ ts b lead, Token.Lexes c ts b ∧ Layout lead ∧ b.text = lead ++ Byte.doubleQuote :: body ∧
    Byte.doubleQuote ∉ body

/-- `rest` follows the parenthesis of a list that is not closed and is the innermost one: nothing
but complete forms follows up to the end. -/
def UnclosedList (limit : Nat) (c : Cursor) (rest : Bytes) : Prop :=
  ∃ outer b d fs ts e after, Inside limit c outer b ∧ Token.next b = .token .opening d ∧
    d.text = rest ∧
    SpellsAll (limit - (outer.length + 1)) fs ts ∧ Token.Lexes d ts e ∧ Token.next e = .ended after

/-- The token opens a list or a mark where as many are open as the limit allows, and none was
refused before; `rest` follows it. -/
def BeyondLimit (limit : Nat) (c : Cursor) (t : Token) (rest : Bytes) : Prop :=
  ∃ opens b d, Inside limit c opens b ∧ opens.length = limit ∧ Token.next b = .token t d ∧ t.Opens ∧
    d.text = rest

namespace Blames

variable {e : ReadError}

theorem unclosedString (h : Blames limit c e) (hfault : e.fault = .unclosed .string) :
    ∃ body line, UnclosedString c body ∧ c.Reaches ⟨Byte.doubleQuote :: body, line⟩ ∧
      e.line = some (line : Int) := by
  cases h with
  | token hts hnext hsame hline =>
    rcases (Token.next_eq_failed hnext).2
      with ⟨lead, body, hlead, htext, hbody, rfl⟩ | ⟨number, hnumber⟩
    · exact ⟨body, _, ⟨_, _, lead, hts, hlead, htext, hbody⟩,
        hts.reaches.trans ⟨lead, htext, rfl⟩, hline⟩
    · cases hfault.symm.trans (hsame.trans hnumber)
  | list | mark | stray | tooDeep => cases hfault

theorem unclosedList (h : Blames limit c e) (hfault : e.fault = .unclosed .list) :
    ∃ rest line, UnclosedList limit c rest ∧ c.Reaches ⟨Byte.openParen :: rest, line⟩ ∧
      e.line = some (line : Int) := by
  cases h with
  | @list line _ outer b _ h hnext =>
    cases h with
    | @list _ a d _ _ ts h hroom hopen hitems hl =>
      obtain ⟨us, hus⟩ := h.exists_lexes
      obtain ⟨_, hwritten, hreach⟩ := Token.next_eq_opens hopen (.inl rfl)
      cases hwritten
      exact ⟨d.text, _, ⟨outer, a, d, _, ts, b, _, h, hopen, rfl, hitems, hl, hnext⟩,
        hus.reaches.trans hreach, rfl⟩
  | token hts hnext hsame hline =>
    -- no single token is an unclosed list
    rcases (Token.next_eq_failed hnext).2 with ⟨_, _, _, _, _, rfl⟩ | ⟨number, hnumber⟩
    · cases hfault.symm.trans hsame
    · cases hfault.symm.trans (hsame.trans hnumber)
  | mark | stray | tooDeep => cases hfault

/-- A form that nests too deep is blamed on the line of the token that there is no room for. -/
theorem beyondLimit (h : Blames limit c e) (hfault : e.fault = .tooDeep) :
    ∃ t written rest line, BeyondLimit limit c t rest ∧ t.Written written ∧
      c.Reaches ⟨written ++ rest, line⟩ ∧
      e.line = some (line : Int) := by
  cases h with
  | @tooDeep opens b d t h hfull hnext ht =>
    obtain ⟨us, hus⟩ := h.exists_lexes
    obtain ⟨written, hwritten, hreach⟩ := Token.next_eq_opens hnext ht
    exact ⟨t, written, d.text, _, ⟨opens, b, d, h, hfull, hnext, ht, rfl⟩, hwritten,
      hus.reaches.trans hreach, rfl⟩
  | token hts hnext hsame hline =>
    rcases (Token.next_eq_failed hnext).2 with ⟨_, _, _, _, _, rfl⟩ | ⟨number, hnumber⟩
    · cases hfault.symm.trans hsame
    · cases hfault.symm.trans (hsame.trans hnumber)
  | list | mark | stray => cases hfault

end Blames

end Reader

namespace Source

variable {source source' : Source} {mark mark' : Bookmark} {s s' : Interp} {c : Cursor}
  {readings : List Reading}

/-- However often a source is read, its reader stands further on in the text, on the line that the
line ends before it make. -/
theorem Reads.reaches (h : source.Reads mark s readings source' mark' s') (hw : s.store.WellFormed)
    (hat : source.At s mark c) :
    ∃ d, c.Reaches d ∧ source'.At s' mark' d ∧ s'.store.WellFormed ∧ s'.config = s.config := by
  induction h generalizing c with
  | nil => exact ⟨c, .refl c, hat, hw, rfl⟩
  | @cons _ _ _ mark _ _ s _ _ _ _ _ hfrom _ _ ih =>
    obtain ⟨stream, hstream, hfinite, hmark⟩ := hat
    rcases hread : Reader.read s.config.maxDepth c with ⟨reading, d⟩
    rcases hafter : Bookmark.ofCursor d with ⟨mark₁, left⟩
    obtain ⟨r, s₁, hfrom', hcont, _, _, hat₁⟩ :=
      Effect.readFrom_cursor hw hstream hfinite hmark hread hafter
    cases hfrom.symm.trans hfrom'
    have hreach := Reader.read_reaches s.config.maxDepth c
    rw [hread] at hreach
    obtain ⟨e, hreach', hat', hw', hconfig⟩ := ih hcont.wellFormed hat₁
    exact ⟨e, hreach.trans hreach', hat', hw', hconfig.trans hcont.config⟩

end Source

/-- The rest is the end of the text, and begins on the line: on the first one, or as much lower down
as there are line ends before it. -/
def Bytes.BeginsOn (text rest : Bytes) (line : Nat) : Prop :=
  ∃ before, text = before ++ rest ∧ line = 1 + lineBreaks before

/-- Lines are told right. After any readings from a source, failed ones too, the reader tells the
line of the character it looks at; the text stands behind the blank that a reader begins with. If
the next reading gives a form, that is the line of the form's last byte. If it fails, it is blamed
on the line of the quote mark of a string that is not closed, of the parenthesis of the innermost
list that is not closed, or of the first token that opens more than the limit allows. -/
theorem Source.reads_tell_lines {source source' : Source} {mark : Bookmark} {s s' : Interp}
    {text : Bytes} {readings : List Reading} (hs : s.store.WellFormed)
    (hsource : source.Holds s text) (hreads : source.Reads .start s readings source' mark s') :
    ∃ left, source'.Holds s' left ∧
      Bytes.BeginsOn (Byte.space :: text) (mark.ahead left) mark.line ∧
      ∃ r mark' source₁ s₁, Effect.readFrom source' mark s' = some ((r, mark', source₁), s₁) ∧
        (∀ v, r = .value v → ∃ f lead init last rest, s₁.Stored f v ∧ Layout lead ∧
          Spelling s.config.maxDepth f (init ++ [last]) rest ∧
          mark.ahead left = lead ++ (init ++ last :: rest) ∧
          Bytes.BeginsOn (Byte.space :: text) (last :: rest) mark'.line) ∧
        ∀ e, r = .failed e →
          (e.fault = .unclosed .string →
            ∃ body line, Reader.UnclosedString ⟨mark.ahead left, mark.line⟩ body ∧
            Bytes.BeginsOn (Byte.space :: text) (Byte.doubleQuote :: body) line ∧
            e.line = some (line : Int)) ∧
          (e.fault = .unclosed .list → ∃ rest line,
            Reader.UnclosedList s.config.maxDepth ⟨mark.ahead left, mark.line⟩ rest ∧
            Bytes.BeginsOn (Byte.space :: text) (Byte.openParen :: rest) line ∧
            e.line = some (line : Int)) ∧
          (e.fault = .tooDeep → ∃ t written rest line,
            Reader.BeyondLimit s.config.maxDepth ⟨mark.ahead left, mark.line⟩ t rest ∧
            t.Written written ∧
            Bytes.BeginsOn (Byte.space :: text) (written ++ rest) line ∧
            e.line = some (line : Int)) := by
  obtain ⟨stream₀, hstream₀, hfinite₀, rfl⟩ := hsource
  have hat₀ : source.At s .start ⟨Byte.space :: stream₀.pending s.disk, 1⟩ :=
    ⟨stream₀, hstream₀, hfinite₀, rfl⟩
  obtain ⟨c, hreach, hat, hw, hconfig⟩ := hreads.reaches hs hat₀
  obtain ⟨stream, hstream, hfinite, hmark⟩ := hat
  have hahead := Bookmark.ahead_ofCursor c
  have hline := Bookmark.line_ofCursor c
  rw [hmark] at hahead hline
  refine ⟨stream.pending s'.disk, ⟨stream, hstream, hfinite, rfl⟩, ?_, ?_⟩
  · rw [hahead, hline]
    exact hreach
  rcases hread : Reader.read s'.config.maxDepth c with ⟨reading, d⟩
  rcases hafter : Bookmark.ofCursor d with ⟨mark', left⟩
  obtain ⟨r, s₁, hfrom, _, hr, _, _⟩ := Effect.readFrom_cursor hw hstream hfinite hmark hread hafter
  rw [hconfig] at hread
  rw [hahead, hline]
  refine ⟨r, mark', _, s₁, hfrom, ?_, ?_⟩
  · rintro v rfl
    cases hr with
    | @value f _ hv =>
      obtain ⟨lead, init, last, hlead, hspelling, htext, hplace⟩ := Reader.read_form_reaches hread
      have hline' := Bookmark.line_ofCursor d
      rw [hafter] at hline'
      rw [hline']
      exact ⟨f, lead, init, last, d.text, hv, hlead, hspelling, htext, hreach.trans hplace⟩
  · rintro e rfl
    cases hr with
    | failed _ complete =>
      have hblames := Reader.read_failed hread
      refine ⟨fun hfault => ?_, fun hfault => ?_, fun hfault => ?_⟩
      · obtain ⟨body, line, hstring, hplace, heq⟩ := hblames.unclosedString hfault
        exact ⟨body, line, hstring, hreach.trans hplace, heq⟩
      · obtain ⟨rest, line, hlist, hplace, heq⟩ := hblames.unclosedList hfault
        exact ⟨rest, line, hlist, hreach.trans hplace, heq⟩
      · obtain ⟨t, written, rest, line, hdeep, hwritten, hplace, heq⟩ := hblames.beyondLimit hfault
        exact ⟨t, written, rest, line, hdeep, hwritten, hreach.trans hplace, heq⟩

/-- After a name, a list that begins on the second line and is not closed is blamed on the line of
its parenthesis. -/
theorem Source.reads_tell_lines_list :
    let s := Interp.bare ⟨3, 65536, false⟩ .empty 0
    let text := Bytes.ofString "a\n(b"
    ∃ source' s' e mark' source₁ s₁,
      Source.Reads (.own (.memory text)) .start s [.form (.sym [97])] source'
        ⟨.byte Byte.newline, 1⟩ s' ∧
      Effect.readFrom source' ⟨.byte Byte.newline, 1⟩ s' = some ((.failed e, mark', source₁), s₁) ∧
      ∃ rest line, Reader.UnclosedList 3 ⟨Bytes.ofString "\n(b", 1⟩ rest ∧
        Bytes.BeginsOn (Byte.space :: text) (Byte.openParen :: rest) line ∧
        e.line = some (line : Int) := by
  intro s text
  have hw : s.store.WellFormed := Store.WellFormed.empty.insert _
  have hown : (Source.own (.memory text)).stream? s = some (.memory text) := rfl
  have hsource : (Source.own (.memory text)).Holds s text := ⟨_, hown, trivial, rfl⟩
  have hname : Token.IsAtom [97] := ⟨by decide, by decide +kernel, by decide +kernel⟩
  have hspelling : Spelling 3 (.sym [97]) [97] [10, 40, 98] := .sym hname (by decide) (.cons rfl _)
  have hread : Reader.read 3 ⟨Byte.space :: text, 1⟩ = (.form (.sym [97]), ⟨[10, 40, 98], 1⟩) :=
    Reader.read_eq_form_iff_spelling.mpr ⟨[32], [97], .blank rfl .nil, hspelling,
      by decide +kernel, by decide +kernel⟩
  have hmark : Bookmark.ofCursor ⟨Byte.space :: text, 1⟩ =
      (.start, InputStream.pending s.disk (.memory text)) :=
    rfl
  obtain ⟨r, s', hfrom, hcont, hr, hstream, _⟩ :=
    Effect.readFrom_cursor hw hown trivial hmark hread rfl
  have hreads : Source.Reads (.own (.memory text)) .start s [.form (.sym [97])] _
      ⟨.byte 10, 1⟩ s' :=
    .cons hfrom hr (.nil _ _ _)
  have hfailed : Reader.read 3 ⟨[10, 40, 98], 1⟩ =
      (.failed ((ReadError.of (.unclosed .list)).atLine 2) [.sym [98]], ⟨[], 2⟩) := by
    have hopen : Token.next ⟨[10, 40, 98], 1⟩ = .token .opening ⟨[98], 2⟩ := by decide +kernel
    have hb : Token.next ⟨[98], 2⟩ = .token (.sym [98]) ⟨[], 2⟩ := by decide +kernel
    have hend : Token.next ⟨[], 2⟩ = .ended ⟨[], 2⟩ := by decide +kernel
    rw [Reader.read, hopen, Reader.parse_of_entered rfl (by decide), hb, Reader.parse_of_placed rfl]
    show Reader.parse 3 (.of [.list 2 [.sym [98]]]) (Token.next ⟨[], 2⟩) = _
    rw [hend, Reader.parse]
    rfl
  have hlimit : s'.config.maxDepth = 3 := congrArg Config.maxDepth hcont.config
  rw [← hlimit] at hfailed
  obtain ⟨r', s₁, hfrom', _, hr', _⟩ :=
    Effect.readFrom_cursor hcont.wellFormed hstream trivial rfl hfailed rfl
  obtain ⟨left, ⟨stream, hsome, _, hleft⟩, _, _, mark', source₁, _, hnext, _, herror⟩ :=
    Source.reads_tell_lines hw hsource hreads
  cases hsome
  cases hleft
  cases hfrom'.symm.trans hnext
  cases hr' with
  | failed e complete => exact ⟨_, s', _, _, _, s₁, hreads, hfrom', (herror _ rfl).2.1 rfl⟩

end HeapLisp
