import HeapLisp.Proofs.Reader.Grammar
import HeapLisp.Proofs.Reader.Layout

namespace HeapLisp

mutual

/-- The text spells the form where `rest` follows it, with at most `room` lists and marks inside
each other. -/
inductive Spelling : (room : Nat) → Form → (text rest : Bytes) → Prop where
  | num {room : Nat} {k : Int64} {text rest : Bytes} (h : Numeral.Denotes text k.toInt)
    (hr : Token.Stops rest) :
    Spelling room (.num k) text rest
  | str {room : Nat} {body rest : Bytes} (h : Byte.doubleQuote ∉ body) :
    Spelling room (.str body) (Byte.doubleQuote :: (body ++ [Byte.doubleQuote])) rest
  | sym {room : Nat} {name rest : Bytes} (h : Token.IsAtom name)
    (hn : Numeral.looksNumeric name = false)
    (hr : Token.Stops rest) : Spelling room (.sym name) name rest
  | list {room : Nat} {fs : List Form} {text rest : Bytes} (h : SpellingAll room fs text rest) :
    Spelling (room + 1) (.list fs) (Byte.openParen :: text) rest
  | mark {room : Nat} (m : Mark) {f : Form} {lead text rest : Bytes} (hl : Layout lead)
    (hm : m = .unquote → (lead ++ text).head? ≠ some Byte.atSign) (h : Spelling room f text rest) :
    Spelling (room + 1) (m.wrap f) (m.text ++ (lead ++ text)) rest

/-- The text spells the remaining items of a list and its end where `rest` follows it. -/
inductive SpellingAll : (room : Nat) → List Form → (text rest : Bytes) → Prop where
  | nil {room : Nat} {lead rest : Bytes} (hl : Layout lead) :
    SpellingAll room [] (lead ++ [Byte.closeParen]) rest
  | cons {room : Nat} {f : Form} {fs : List Form} {lead text others rest : Bytes} (hl : Layout lead)
    (h : Spelling room f text (others ++ rest)) (hs : SpellingAll room fs others rest) :
    SpellingAll room (f :: fs) (lead ++ (text ++ others)) rest

end

variable {room : Nat} {f : Form} {fs : List Form} {text rest : Bytes} {c d : Cursor}
  {ts : List Token}

theorem Spelling.ne_nil (h : Spelling room f text rest) : text ≠ [] := by
  cases h with
  | num h => exact (Token.isAtom_of_denotes h).ne_nil
  | sym h => exact h.ne_nil
  | str | list => simp
  | mark m => cases m <;> simp [Mark.text]

theorem Token.lexes_layout {lead : Bytes} {line : Nat} (hl : Layout lead) (hts : ts ≠ [])
    (h : Lexes ⟨text, line + Bytes.lineBreaks lead⟩ ts d) : Lexes ⟨lead ++ text, line⟩ ts d := by
  cases h with
  | nil => contradiction
  | cons hn hs =>
    rw [← next_layout hl] at hn
    exact .cons hn hs

theorem Token.Written.lexes {t : Token} (h : t.Written text) (hr : t.EndsBefore rest) (line : Nat) :
    Lexes ⟨text ++ rest, line⟩ [t] ⟨rest, line + Bytes.lineBreaks text⟩ :=
  .cons (h.next hr line) (.nil _)

theorem SpellingAll.lexes
    (ih : ∀ f text rest line, Spelling room f text rest → ∃ ts, Spells room f ts ∧
      Token.Lexes ⟨text ++ rest, line⟩ ts ⟨rest, line + Bytes.lineBreaks text⟩)
    (h : SpellingAll room fs text rest) (line : Nat) :
    ∃ ts, SpellsAll room fs ts ∧
      Token.Lexes ⟨text ++ rest, line⟩ (ts ++ [.closing]) ⟨rest, line + Bytes.lineBreaks text⟩ := by
  induction fs generalizing text line with
  | nil =>
    cases h with
    | @nil _ lead _ hl =>
      have hends : Token.EndsBefore .closing rest := trivial
      have hclose := Token.Written.closing.lexes hends (line + Bytes.lineBreaks lead)
      refine ⟨[], .nil, ?_⟩
      rw [List.append_assoc, Bytes.lineBreaks_append, ← Nat.add_assoc]
      exact Token.lexes_layout hl (by simp) hclose
  | cons f fs ihs =>
    cases h with
    | @cons _ _ _ lead text others _ hl h hs =>
      obtain ⟨ts, hts, hfirst⟩ := ih f text (others ++ rest) (line + Bytes.lineBreaks lead) h
      obtain ⟨us, hus, hothers⟩ := ihs hs (line + Bytes.lineBreaks lead + Bytes.lineBreaks text)
      refine ⟨ts ++ us, .cons hts hus, ?_⟩
      have hall := hfirst.append hothers
      rw [← List.append_assoc] at hall
      simp only [List.append_assoc, Bytes.lineBreaks_append, ← Nat.add_assoc]
      simp only [List.append_assoc] at hall
      exact Token.lexes_layout hl (by simp) hall

/-- A spelling of a form is read as tokens that spell it, and they end where the rest begins. -/
theorem Spelling.lexes (h : Spelling room f text rest) (line : Nat) :
    ∃ ts, Spells room f ts ∧
      Token.Lexes ⟨text ++ rest, line⟩ ts ⟨rest, line + Bytes.lineBreaks text⟩ := by
  induction room using Nat.strong_induction_on generalizing f text rest line with
  | _ room ih =>
    cases h with
    | num h hr => exact ⟨_, .num _, (Token.Written.num h).lexes hr line⟩
    | str h => exact ⟨_, .str _, (Token.Written.str h).lexes trivial line⟩
    | sym h hn hr => exact ⟨_, .sym _, (Token.Written.sym h hn).lexes hr line⟩
    | @list room' fs text _ h =>
      have hends : Token.EndsBefore .opening (text ++ rest) := trivial
      have hopen := Token.Written.opening.lexes hends line
      obtain ⟨ts, hts, hl⟩ := h.lexes (fun f text rest line h => ih room' (by omega) h line)
        (line + Bytes.lineBreaks [Byte.openParen])
      refine ⟨_, .list hts, ?_⟩
      have hall := hopen.append hl
      rw [Nat.add_assoc, ← Bytes.lineBreaks_append] at hall
      exact hall
    | @mark room' m f lead text _ hl hm h =>
      have hends : Token.EndsBefore (.mark m) (lead ++ text ++ rest) := by
        cases m with
        | quote | template | splice => trivial
        | unquote =>
          have hhead : (lead ++ text ++ rest).head? = (lead ++ text).head? :=
            List.head?_append_of_ne_nil _ (by simp [h.ne_nil])
          intro hat
          exact hm rfl (hhead ▸ hat)
      have hmark := (Token.Written.mark m).lexes hends line
      obtain ⟨ts, hts, hl'⟩ :=
        ih room' (by omega) h (line + Bytes.lineBreaks m.text + Bytes.lineBreaks lead)
      refine ⟨_, .mark m hts, ?_⟩
      have hinner := Token.lexes_layout hl hts.ne_nil hl'
      have hall := hmark.append (List.append_assoc lead text rest ▸ hinner)
      simp only [List.append_assoc, Bytes.lineBreaks_append, ← Nat.add_assoc] at hall ⊢
      exact hall

/-- Tokens that spell the items of a list are read from a text that spells them. -/
theorem SpellsAll.spelling
    (ih : ∀ f ts c d, Spells room f ts → Token.Lexes c ts d → ∃ lead text, Layout lead ∧
      Spelling room f text d.text ∧
      c.text = lead ++ (text ++ d.text) ∧ d.line = c.line + Bytes.lineBreaks (lead ++ text))
    (h : SpellsAll room fs ts) (hl : Token.Lexes c (ts ++ [.closing]) d) :
    ∃ text, SpellingAll room fs text d.text ∧ c.text = text ++ d.text ∧
      d.line = c.line + Bytes.lineBreaks text := by
  induction fs generalizing ts c with
  | nil =>
    cases h
    cases hl with
    | cons hn hs =>
      cases hs
      obtain ⟨lead, text, hlead, hw, _, htext, hline⟩ := Token.next_eq_token_iff.mp hn
      cases hw
      exact ⟨_, .nil hlead, htext, hline⟩
  | cons f fs ihs =>
    cases h with
    | cons hf hfs =>
      rw [List.append_assoc] at hl
      obtain ⟨c', hts, hrest⟩ := hl.split
      obtain ⟨others, hothers, htext', hline'⟩ := ihs hfs hrest
      obtain ⟨lead, text, hlead, hspell, htext, hline⟩ := ih f _ c c' hf hts
      rw [htext'] at hspell htext
      refine ⟨_, .cons hlead hspell hothers, by simp [htext], ?_⟩
      rw [hline', hline]
      simp only [Bytes.lineBreaks_append]
      omega

theorem Spells.spelling (h : Spells room f ts) (hl : Token.Lexes c ts d) :
    ∃ lead text, Layout lead ∧ Spelling room f text d.text ∧ c.text = lead ++ (text ++ d.text) ∧
      d.line = c.line + Bytes.lineBreaks (lead ++ text) := by
  induction room using Nat.strong_induction_on generalizing f ts c d with
  | _ room ih =>
    have atom {t : Token}
      (hf : ∀ {text}, t.Written text → t.EndsBefore d.text → Spelling room f text d.text)
        (hl : Token.Lexes c [t] d) : ∃ lead text, Layout lead ∧ Spelling room f text d.text ∧
          c.text = lead ++ (text ++ d.text) ∧
          d.line = c.line + Bytes.lineBreaks (lead ++ text) := by
      cases hl with
      | cons hn hs =>
        cases hs
        obtain ⟨lead, text, hlead, hw, he, htext, hline⟩ := Token.next_eq_token_iff.mp hn
        rw [List.append_assoc] at htext
        exact ⟨lead, text, hlead, hf hw he, htext, hline⟩
    cases h with
    | num k =>
      refine atom (fun hw he => ?_) hl
      cases hw with
      | num h => exact .num h he
    | str bytes =>
      refine atom (fun hw he => ?_) hl
      cases hw with
      | str h => exact .str h
    | sym name =>
      refine atom (fun hw he => ?_) hl
      cases hw with
      | sym h hn => exact .sym h hn he
    | @list room' fs ts h =>
      cases hl with
      | cons hn hs =>
        obtain ⟨lead, text, hlead, hw, _, htext, hline⟩ := Token.next_eq_token_iff.mp hn
        cases hw
        obtain ⟨items, hitems, htext', hline'⟩ :=
          h.spelling (fun f ts c d h hl => ih room' (by omega) h hl) hs
        refine ⟨lead, _, hlead, .list hitems, by simp [htext, htext'], ?_⟩
        have hbreaks : Bytes.lineBreaks (Byte.openParen :: items) = _ :=
          Bytes.lineBreaks_append [Byte.openParen] items
        rw [hline', hline, Bytes.lineBreaks_append, Bytes.lineBreaks_append, hbreaks]
        omega
    | @mark room' m f ts h =>
      cases hl with
      | cons hn hs =>
        obtain ⟨lead, text, hlead, hw, he, htext, hline⟩ := Token.next_eq_token_iff.mp hn
        cases hw
        obtain ⟨gap, inner, hgap, hinner, htext', hline'⟩ := ih room' (by omega) h hs
        refine ⟨lead, _, hlead, .mark m hgap ?_ hinner, by simp [htext, htext'], ?_⟩
        · rintro rfl hat
          refine he ?_
          rw [htext', ← List.append_assoc, List.head?_append_of_ne_nil _ (by simp [hinner.ne_nil])]
          exact hat
        · rw [hline', hline]
          simp only [Bytes.lineBreaks_append]
          omega

end HeapLisp
