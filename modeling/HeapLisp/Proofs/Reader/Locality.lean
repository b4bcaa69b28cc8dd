import HeapLisp.Reader.Bookmark
import Mathlib.Data.List.Infix

namespace HeapLisp

/-- The same place with more text at the end. -/
def Cursor.extend (c : Cursor) (more : Bytes) : Cursor := ⟨c.text ++ more, c.line⟩

namespace Lexeme

/-- The place after a lexeme. -/
def place : Lexeme → Cursor
  | ended after | token _ after | failed _ after => after

/-- The same lexeme with more text at the end. -/
def extend (l : Lexeme) (more : Bytes) : Lexeme :=
  match l with
  | ended after => ended (after.extend more)
  | token t after => token t (after.extend more)
  | failed e after => failed e (after.extend more)

end Lexeme

namespace Token

variable {b : UInt8} {text rest : Bytes} {line : Nat} {c : Cursor}

theorem skipBlanks_suffix (comment : Bool) (text : Bytes) (line : Nat) :
    (skipBlanks comment text line).text <:+ text := by
  fun_induction skipBlanks comment text line with
  | case1 | case6 => exact List.suffix_rfl
  | case2 _ _ _ _ _ ih | case3 _ _ _ _ ih | case4 _ _ _ _ _ _ _ ih | case5 _ _ _ _ _ _ _ _ ih =>
    exact ih.trans (List.suffix_cons _ _)

theorem skipBlanks_append {comment : Bool} (h : (skipBlanks comment text line).text ≠ [])
    (more : Bytes) :
    skipBlanks comment (text ++ more) line = (skipBlanks comment text line).extend more := by
  induction text generalizing comment line with
  | nil => contradiction
  | cons b rest ih =>
    rw [List.cons_append]
    unfold skipBlanks at h ⊢
    split_ifs at h ⊢ with hnewline hcomment hblank hsemi
    · exact ih h
    · exact ih h
    · exact ih h
    · exact ih h
    · rfl

theorem ofAtom_place (name : Bytes) (c : Cursor) : (ofAtom name c).place = c := by
  unfold ofAtom
  split_ifs
  · split <;> rfl
  · rfl

theorem ofAtom_extend (name : Bytes) (c : Cursor) (more : Bytes) :
    ofAtom name (c.extend more) = (ofAtom name c).extend more := by
  unfold ofAtom
  split_ifs
  · split <;> rfl
  · rfl

theorem start_suffix (b : UInt8) (rest : Bytes) (line : Nat) :
    (start b rest line).place.text <:+ rest := by
  unfold start
  split_ifs
  · exact List.suffix_rfl
  · exact List.suffix_rfl
  · exact List.suffix_rfl
  · exact List.suffix_rfl
  · split
    · exact List.suffix_cons _ _
    · exact List.suffix_rfl
  · have hdrop := rest.dropWhile_suffix (· != Byte.doubleQuote)
    split
    · exact List.nil_suffix
    · rename_i heq
      rw [heq] at hdrop
      exact (List.suffix_cons _ _).trans hdrop
  · rw [atom, ofAtom_place]
    exact rest.dropWhile_suffix _

/-- Where a test stops before the end of a text, it stops there when more text follows. -/
theorem dropWhile_append_of_ne_nil {p : UInt8 → Bool} (h : rest.dropWhile p ≠ []) (more : Bytes) :
    (rest ++ more).dropWhile p = rest.dropWhile p ++ more ∧
    (rest ++ more).takeWhile p = rest.takeWhile p := by
  induction rest with
  | nil => contradiction
  | cons b rest ih =>
    by_cases hb : p b = true
    · simp only [List.dropWhile_cons, hb, if_true] at h
      simp [hb, ih h]
    · simp [hb]

theorem start_append (h : (start b rest line).place.text ≠ []) (more : Bytes) :
    start b (rest ++ more) line = (start b rest line).extend more := by
  unfold start at h ⊢
  split_ifs at h ⊢
  · rfl
  · rfl
  · rfl
  · rfl
  · cases rest with
    | nil => contradiction
    | cons a rest =>
      rw [List.cons_append]
      split <;> split <;> simp_all [Lexeme.extend, Cursor.extend]
  · cases hdrop : rest.dropWhile (· != Byte.doubleQuote) with
    | nil => simp [hdrop, Lexeme.place] at h
    | cons a after =>
      have hne : rest.dropWhile (· != Byte.doubleQuote) ≠ [] := by simp [hdrop]
      obtain ⟨hd, ht⟩ := dropWhile_append_of_ne_nil hne more
      simp [hd, ht, hdrop, Lexeme.extend, Cursor.extend]
  · rw [atom, ofAtom_place] at h
    obtain ⟨hd, ht⟩ := dropWhile_append_of_ne_nil h more
    rw [atom, atom, hd, ht]
    exact ofAtom_extend _ ⟨_, line⟩ more

theorem next_suffix (c : Cursor) : (next c).place.text <:+ c.text := by
  have hskip := skipBlanks_suffix false c.text c.line
  unfold next
  split
  · exact List.nil_suffix
  · rename_i heq
    rw [heq] at hskip
    exact (start_suffix _ _ _).trans ((List.suffix_cons _ _).trans hskip)

theorem next_append (h : (next c).place.text ≠ []) (more : Bytes) :
    next (c.extend more) = (next c).extend more := by
  have hne : (skipBlanks false c.text c.line).text ≠ [] := by
    intro hnil
    unfold next at h
    split at h
    · contradiction
    · rename_i heq
      rw [heq] at hnil
      cases hnil
  have hskip := skipBlanks_append hne more
  unfold next at h ⊢
  rw [Cursor.extend, hskip]
  generalize skipBlanks false c.text c.line = after at h hne ⊢
  obtain ⟨text, line⟩ := after
  cases text with
  | nil => contradiction
  | cons b rest => exact start_append h more

end Token

theorem ne_nil_of_suffix {x y : Bytes} (h : x <:+ y) (hx : x ≠ []) : y ≠ [] := by
  rintro rfl
  exact hx (List.suffix_nil.mp h)

namespace Reader

variable {limit lists : Nat} {n : Nesting} {c : Cursor}

/-- A result of reading with more text at the end. -/
def extended {α : Type} (more : Bytes) (r : α × Cursor) : α × Cursor := (r.1, r.2.extend more)

theorem skipLists_suffix (lists : Nat) (c : Cursor) : (skipLists lists c).2.text <:+ c.text := by
  fun_induction skipLists lists c with
  | case1 => exact List.suffix_rfl
  | case2 c n after h | case3 c n e after h =>
    have hnext := Token.next_suffix c
    rw [h] at hnext
    exact hnext
  | case4 c n after h ih | case5 c n after h ih | case6 c n t after _ _ h ih =>
    have hnext := Token.next_suffix c
    rw [h] at hnext
    exact ih.trans hnext

theorem skipLists_append (h : (skipLists lists c).2.text ≠ []) (more : Bytes) :
    skipLists lists (c.extend more) = extended more (skipLists lists c) := by
  fun_induction skipLists lists c with
  | case1 c =>
    rw [skipLists]
    rfl
  | case2 c n after hn | case3 c n e after hn =>
    have hnext := Token.next_append (c := c) (by rw [hn]; exact h) more
    rw [hn] at hnext
    rw [skipLists, hnext]
    rfl
  | case4 c n after hn ih | case5 c n after hn ih | case6 c n t after _ _ hn ih =>
    have hne := ne_nil_of_suffix (skipLists_suffix _ _) h
    have hnext := Token.next_append (c := c) (by rw [hn]; exact hne) more
    rw [hn] at hnext
    rw [skipLists, hnext]
    simpa [Lexeme.extend] using ih h

theorem skipMarked_suffix (lists : Nat) (c : Cursor) : (skipMarked lists c).2.text <:+ c.text := by
  fun_induction skipMarked lists c with
  | case1 c after h | case2 c e after h =>
    have hnext := Token.next_suffix c
    rw [h] at hnext
    exact hnext
  | case3 c m after h ih =>
    have hnext := Token.next_suffix c
    rw [h] at hnext
    exact ih.trans hnext
  | case4 c after h | case5 c t after _ _ h =>
    have hnext := Token.next_suffix c
    rw [h] at hnext
    exact (skipLists_suffix _ _).trans hnext

theorem skipMarked_append (h : (skipMarked lists c).2.text ≠ []) (more : Bytes) :
    skipMarked lists (c.extend more) = extended more (skipMarked lists c) := by
  fun_induction skipMarked lists c with
  | case1 c after hn | case2 c e after hn =>
    have hnext := Token.next_append (c := c) (by rw [hn]; exact h) more
    rw [hn] at hnext
    rw [skipMarked, hnext]
    rfl
  | case3 c m after hn ih =>
    have hne := ne_nil_of_suffix (skipMarked_suffix _ _) h
    have hnext := Token.next_append (c := c) (by rw [hn]; exact hne) more
    rw [hn] at hnext
    rw [skipMarked, hnext]
    exact ih h
  | case4 c after hn | case5 c t after _ _ hn =>
    have hne := ne_nil_of_suffix (skipLists_suffix _ _) h
    have hnext := Token.next_append (c := c) (by rw [hn]; exact hne) more
    rw [hn] at hnext
    rw [skipMarked, hnext]
    simpa [Lexeme.extend] using skipLists_append h more

theorem failAfter_place (e : ReadError) (complete : List Form)
    (r : Except ReadError Unit × Cursor) :
    (failAfter e complete r).2 = r.2 := by
  obtain ⟨_ | _, after⟩ := r <;> rfl

theorem failAfter_extended (e : ReadError) (complete : List Form)
    (r : Except ReadError Unit × Cursor) (more : Bytes) :
    failAfter e complete (extended more r) = extended more (failAfter e complete r) := by
  obtain ⟨_ | _, after⟩ := r <;> rfl

theorem passOver_suffix (t : Token) (opens : List Open) (c : Cursor) :
    (passOver t opens c).2.text <:+ c.text := by
  unfold passOver
  split
  · exact skipLists_suffix _ c
  · exact skipMarked_suffix _ c

theorem passOver_append {t : Token} {opens : List Open} (h : (passOver t opens c).2.text ≠ [])
    (more : Bytes) :
    passOver t opens (c.extend more) = extended more (passOver t opens c) := by
  unfold passOver at h ⊢
  split at h
  · exact skipLists_append h more
  · exact skipMarked_append h more

theorem parse_suffix (limit : Nat) (n : Nesting) (l : Lexeme) :
    (parse limit n l).2.text <:+ l.place.text := by
  fun_induction parse limit n l with
  | case1 | case2 | case3 => exact List.suffix_rfl
  | case4 n t after n' hstep ih => exact ih.trans (Token.next_suffix after)
  | case5 | case6 => exact List.suffix_rfl
  | case7 n t after hstep =>
    rw [skipDeep, failAfter_place]
    exact passOver_suffix t n.opens after

theorem parse_append {l : Lexeme} (h : (parse limit n l).2.text ≠ []) (more : Bytes) :
    parse limit n (l.extend more) = extended more (parse limit n l) := by
  have hline (c : Cursor) : (c.extend more).line = c.line := rfl
  fun_induction parse limit n l with
  | case1 n after hin | case2 n after e hin =>
    rw [Lexeme.extend, parse, hline, hin]
    rfl
  | case3 n e after =>
    rw [Lexeme.extend, parse]
    rfl
  | case4 n t after n' hstep ih =>
    have hne := ne_nil_of_suffix (parse_suffix _ _ _) h
    rw [Lexeme.extend, parse, hline, hstep]
    dsimp only
    rw [Token.next_append hne]
    exact ih h
  | case5 n t after f hstep =>
    rw [Lexeme.extend, parse, hline, hstep]
    rfl
  | case6 n t after hstep =>
    rw [Lexeme.extend, parse, hline, hstep]
    rfl
  | case7 n t after hstep =>
    rw [skipDeep, failAfter_place] at h
    rw [Lexeme.extend, parse, hline, hstep]
    dsimp only
    rw [skipDeep, passOver_append h, failAfter_extended]
    rfl

theorem ofCursor_append {c : Cursor} {mark : Bookmark} {left : Bytes}
    (h : Bookmark.ofCursor c = (mark, left)) (hne : left ≠ []) (more : Bytes) :
    c.text ≠ [] ∧ Bookmark.ofCursor (c.extend more) = (mark, left ++ more) := by
  obtain ⟨text, line⟩ := c
  cases text with
  | nil =>
    cases h
    contradiction
  | cons b rest =>
    cases h
    exact ⟨List.cons_ne_nil b left, rfl⟩

theorem ofCursor_suffix (c : Cursor) : (Bookmark.ofCursor c).2 <:+ c.text.tail := by
  obtain ⟨text, line⟩ := c
  cases text <;> exact List.suffix_rfl

/-- Reading leaves the end of the text. -/
theorem readAt_suffix (limit : Nat) (mark : Bookmark) (text : Bytes) :
    (readAt limit mark text).2.2 <:+ text := by
  obtain ⟨peek, line⟩ := mark
  cases peek with
  | ended => exact List.suffix_rfl
  | byte b =>
    have hparse := parse_suffix limit .none (Token.next ⟨b :: text, line⟩)
    have htail : (read limit ⟨b :: text, line⟩).2.text.tail <:+ text := by
      rcases List.suffix_cons_iff.mp (hparse.trans (Token.next_suffix ⟨b :: text, line⟩))
        with hall | hrest
      · rw [read, hall]
        exact List.suffix_rfl
      · exact (List.tail_suffix _).trans hrest
    exact (ofCursor_suffix _).trans htail
  | other code =>
    unfold readAt
    dsimp only
    split_ifs
    · exact List.suffix_rfl
    · have hparse := parse_suffix limit .none (Token.start (lowByte code) text line)
      have hall := hparse.trans (Token.start_suffix (lowByte code) text line)
      exact (ofCursor_suffix _).trans ((List.tail_suffix _).trans hall)

/-- The result of a reading as it is handed on, with a bookmark. -/
def marked (r : Reading × Cursor) : Reading × Bookmark × Bytes := (r.1, Bookmark.ofCursor r.2)

theorem marked_parse_append {l : Lexeme} {mark : Bookmark} {left : Bytes} {reading : Reading}
    (h : marked (parse limit n l) = (reading, mark, left)) (hne : left ≠ []) (more : Bytes) :
    l.place.text ≠ [] ∧ marked (parse limit n (l.extend more)) = (reading, mark, left ++ more) := by
  obtain ⟨rfl, hc⟩ := Prod.mk.inj h
  obtain ⟨htext, hext⟩ := ofCursor_append hc hne more
  refine ⟨ne_nil_of_suffix (parse_suffix limit n l) htext, ?_⟩
  rw [parse_append htext, marked]
  exact congrArg (Prod.mk _) hext

/-- A reading that leaves something of a text is the same when more text follows. -/
theorem readAt_append {mark mark' : Bookmark} {text left : Bytes} {reading : Reading}
    (h : readAt limit mark text = (reading, mark', left)) (hne : left ≠ []) (more : Bytes) :
    readAt limit mark (text ++ more) = (reading, mark', left ++ more) := by
  obtain ⟨peek, line⟩ := mark
  cases peek with
  | ended =>
    cases h
    rfl
  | byte b =>
    obtain ⟨hnext, hmore⟩ := marked_parse_append h hne more
    rw [← Token.next_append hnext] at hmore
    exact hmore
  | other code =>
    unfold readAt at h ⊢
    dsimp only at h ⊢
    split_ifs at h ⊢
    · cases h
      rfl
    · obtain ⟨hstart, hmore⟩ := marked_parse_append h hne more
      rw [← Token.start_append hstart] at hmore
      exact hmore

end Reader

end HeapLisp
