import HeapLisp.Proofs.Reader.Radix
import HeapLisp.Proofs.Reader.Tokens
import Mathlib.Data.List.TakeWhile

namespace HeapLisp

@[simp] theorem Bytes.lineBreaks_cons (b : UInt8) (text : Bytes) :
    lineBreaks (b :: text) = lineBreaks text + if b = Byte.newline then 1 else 0 := by
  simp [lineBreaks, List.count_cons]

@[simp] theorem Bytes.lineBreaks_append (x y : Bytes) :
    lineBreaks (x ++ y) = lineBreaks x + lineBreaks y := by
  simp [lineBreaks]

theorem Bytes.lineBreaks_of_not_mem {text : Bytes} (h : Byte.newline ∉ text) :
    lineBreaks text = 0 := by
  simpa [lineBreaks, List.count_eq_zero] using h

/-- Blanks, and comments up to the ends of their lines. -/
inductive Layout : Bytes → Prop where
  | nil : Layout []
  | blank {b : UInt8} {rest : Bytes} (hb : Byte.isBlank b = true) (h : Layout rest) :
    Layout (b :: rest)
  | comment {body rest : Bytes} (hb : Byte.newline ∉ body) (h : Layout rest) :
    Layout (Byte.semicolon :: (body ++ Byte.newline :: rest))

namespace Token

variable {b : UInt8} {lead text rest : Bytes} {line : Nat} {t : Token} {c d : Cursor}

theorem skipBlanks_comment {body : Bytes} (h : Byte.newline ∉ body) (rest : Bytes) (line : Nat) :
    skipBlanks true (body ++ Byte.newline :: rest) line = skipBlanks false rest (line + 1) := by
  induction body with
  | nil => rfl
  | cons b body ih =>
    simp only [List.mem_cons, not_or] at h
    have hb : (b == Byte.newline) = false := by simpa using Ne.symm h.1
    rw [List.cons_append, skipBlanks, hb]
    simpa using ih h.2

theorem skipBlanks_layout (h : Layout lead) (rest : Bytes) (line : Nat) :
    skipBlanks false (lead ++ rest) line = skipBlanks false rest
      (line + Bytes.lineBreaks lead) := by
  induction h generalizing line with
  | nil => rfl
  | @blank b lead hb _ ih =>
    rw [List.cons_append, skipBlanks, Bytes.lineBreaks_cons]
    by_cases hn : b = Byte.newline
    · simp only [hn, beq_self_eq_true, if_true, ih]
      congr 1
      omega
    · simp [hn, hb, ih]
  | @comment body lead hb _ ih =>
    have hskip : skipBlanks false (Byte.semicolon :: (body ++ Byte.newline :: lead) ++ rest) line =
        skipBlanks true (body ++ Byte.newline :: (lead ++ rest)) line := by
      rw [List.cons_append, List.append_assoc, List.cons_append, skipBlanks]
      rfl
    have hbreaks : Bytes.lineBreaks (Byte.semicolon :: (body ++ Byte.newline :: lead)) =
        Bytes.lineBreaks lead + 1 := by
      simp [Bytes.lineBreaks_of_not_mem hb, Byte.semicolon, Byte.newline]
    rw [hskip, skipBlanks_comment hb, ih, hbreaks]
    congr 1
    omega

theorem next_layout (h : Layout lead) (text : Bytes) (line : Nat) :
    next ⟨lead ++ text, line⟩ = next ⟨text, line + Bytes.lineBreaks lead⟩ := by
  simp only [next, skipBlanks_layout h]

/-- What is passed over before a token is layout. Inside a comment the semicolon that began it is
missing. -/
theorem exists_layout {comment : Bool} {line' : Nat}
    (h : skipBlanks comment text line = ⟨b :: rest, line'⟩) :
    Byte.isBlank b = false ∧ b ≠ Byte.semicolon ∧ ∃ lead, text = lead ++ b :: rest ∧
    line' = line + Bytes.lineBreaks lead ∧
      Layout (if comment then Byte.semicolon :: lead else lead) := by
  fun_induction skipBlanks comment text line with
  | case1 => cases h
  | case2 comment b' text line hb ih =>
    obtain ⟨hblank, hsemi, lead, rfl, rfl, hl⟩ := ih h
    obtain rfl : b' = Byte.newline := by simpa using hb
    refine ⟨hblank, hsemi, Byte.newline :: lead, rfl, ?_, ?_⟩
    · simp only [Bytes.lineBreaks_cons, if_true]
      omega
    · cases comment with
      | true =>
        rw [if_pos rfl, ← List.nil_append (Byte.newline :: lead)]
        exact .comment List.not_mem_nil hl
      | false => exact .blank rfl hl
  | case3 b' text line hb ih =>
    obtain ⟨hblank, hsemi, lead, rfl, rfl, hl⟩ := ih h
    have hne : b' ≠ Byte.newline := by simpa using hb
    refine ⟨hblank, hsemi, b' :: lead, rfl, by simp [hne], ?_⟩
    cases hl with
    | blank hs => cases hs
    | @comment body lead hbody hl =>
      rw [if_pos rfl, ← List.cons_append]
      exact .comment (by simp [hbody, Ne.symm hne]) hl
  | case4 comment b' text line hb hc hblank' ih =>
    obtain ⟨hblank, hsemi, lead, rfl, rfl, hl⟩ := ih h
    have hne : b' ≠ Byte.newline := by simpa using hb
    refine ⟨hblank, hsemi, b' :: lead, rfl, by simp [hne], ?_⟩
    rw [if_neg hc]
    exact .blank hblank' hl
  | case5 comment b' text line hb hc _ hsemi' ih =>
    obtain ⟨hblank, hsemi, lead, rfl, rfl, hl⟩ := ih h
    obtain rfl : b' = Byte.semicolon := by simpa using hsemi'
    refine ⟨hblank, hsemi, Byte.semicolon :: lead, rfl, ?_, ?_⟩
    · simp [Byte.semicolon, Byte.newline]
    · rw [if_neg hc]
      exact hl
  | case6 comment b' text line hb hc hblank hsemi =>
    cases h
    refine ⟨by simpa using hblank, by simpa using hsemi, [], rfl, rfl, ?_⟩
    rw [if_neg hc]
    exact .nil

theorem IsAtom.lineBreaks (h : IsAtom text) : Bytes.lineBreaks text = 0 := by
  apply Bytes.lineBreaks_of_not_mem
  intro hm
  cases h.plain _ hm

theorem endsAtom_of_digit {n : Nat} (h : Numeral.digit b = some n) : endsAtom b = false := by
  have hrange : 48 ≤ b.toNat ∧ b.toNat ≤ 57 ∨ 65 ≤ b.toNat ∧ b.toNat ≤ 90 ∨ 97 ≤ b.toNat ∧
      b.toNat ≤ 122 := by
    unfold Numeral.digit at h
    split_ifs at h with h₁ h₂ h₃
    all_goals simp only [Bool.and_eq_true, decide_eq_true_eq, UInt8.le_iff_toNat_le,
      UInt8.toNat_ofNat] at *
    all_goals omega
  simp only [endsAtom, Byte.isBlank, Bool.or_eq_false_iff, Bool.and_eq_false_iff,
    decide_eq_false_iff_not, beq_eq_false_iff_ne, ne_eq, UInt8.le_iff_toNat_le, ← UInt8.toNat_inj]
  simp only [Byte.space, Byte.openParen, Byte.closeParen, Byte.doubleQuote, Byte.semicolon,
    UInt8.toNat_ofNat]
  omega

theorem isAtom_of_denotes {i : Int} (h : Numeral.Denotes text i) : IsAtom text := by
  have hdigits {radix : Nat} {digits : Bytes} {ds : List Nat}
      (hd : Numeral.IsDigits radix digits ds) :
      ∀ b ∈ digits, endsAtom b = false := by
    intro b hb
    induction hd with
    | nil => cases hb
    | cons h _ ih =>
      cases hb with
      | head => exact endsAtom_of_digit h.1
      | tail _ hb => exact ih hb
  have hcounts {text : Bytes} {n : Nat} (hc : Numeral.Counts text n) :
      ∀ b ∈ text, endsAtom b = false := by
    intro b hb
    cases hc with
    | intro hm _ hd =>
      rcases List.mem_append.mp hb with hb | hb
      · cases hm <;> simp at hb <;> rcases hb with rfl | rfl <;> rfl
      · exact hdigits hd b hb
  cases h with
  | plain hc =>
    obtain ⟨b, rest, rfl, hb⟩ := hc.exists_eq_cons
    refine ⟨List.cons_ne_nil _ _, hcounts hc, ?_⟩
    intro b' hb'
    cases hb'
    refine ⟨?_, ?_, ?_⟩ <;> (rintro rfl; cases hb)
  | negative hc =>
    refine ⟨List.cons_ne_nil _ _, ?_, ?_⟩
    · intro b hb
      cases hb with
      | head => rfl
      | tail _ hb => exact hcounts hc b hb
    · intro b hb
      cases hb
      decide

end Token

/-- The text of a mark. -/
def Mark.text : Mark → Bytes
  | quote => [Byte.quote]
  | template => [Byte.backquote]
  | unquote => [Byte.comma]
  | splice => [Byte.comma, Byte.atSign]

namespace Token

/-- The texts of a token. A number may be written with any numeral of it. -/
inductive Written : Token → Bytes → Prop where
  | opening : Written .opening [Byte.openParen]
  | closing : Written .closing [Byte.closeParen]
  | mark (m : Mark) : Written (.mark m) m.text
  | str {body : Bytes} (h : Byte.doubleQuote ∉ body) :
    Written (.str body) (Byte.doubleQuote :: (body ++ [Byte.doubleQuote]))
  | num {text : Bytes} {k : Int64} (h : Numeral.Denotes text k.toInt) : Written (.num k) text
  | sym {name : Bytes} (h : IsAtom name) (hn : Numeral.looksNumeric name = false) :
    Written (.sym name) name

/-- Whether a token's text ends where the rest begins: an atom would take in bytes that do not end
it, and a comma an at sign. -/
def EndsBefore : Token → Bytes → Prop
  | .num _, rest | .sym _, rest => Stops rest
  | .mark .unquote, rest => rest.head? ≠ some Byte.atSign
  | _, _ => True

variable {b : UInt8} {lead text rest : Bytes} {line : Nat} {t : Token} {c d : Cursor}

theorem start_comma (rest : Bytes) (line : Nat) :
    start Byte.comma rest line = match rest with
      | 64 :: rest => .token (.mark .splice) ⟨rest, line⟩
      | _ => .token (.mark .unquote) ⟨rest, line⟩ := rfl

theorem next_mark (m : Mark) (h : EndsBefore (.mark m) rest) (line : Nat) :
    next ⟨m.text ++ rest, line⟩ = .token (.mark m) ⟨rest, line⟩ := by
  cases m with
  | quote | template | splice => rfl
  | unquote =>
    cases rest with
    | nil => rfl
    | cons b rest =>
      have hb : b ≠ Byte.atSign := fun hat => h (congrArg some hat)
      rw [Mark.text, List.singleton_append, next_of_not_blank rfl (by decide), start_comma]
      split
      · rename_i heq
        cases heq
        contradiction
      · rfl

/-- The text of a token is read as the token. -/
theorem Written.next (h : Written t text) (hr : t.EndsBefore rest) (line : Nat) :
    Token.next ⟨text ++ rest, line⟩ = .token t ⟨rest, line + Bytes.lineBreaks text⟩ := by
  cases h with
  | opening => rfl
  | closing => rfl
  | mark m =>
    rw [next_mark m hr]
    cases m <;> rfl
  | @str body h =>
    have hbreaks : Bytes.lineBreaks (Byte.doubleQuote :: (body ++ [Byte.doubleQuote])) =
        Bytes.lineBreaks body := by
      simp [Bytes.lineBreaks, Byte.doubleQuote, Byte.newline]
    rw [hbreaks, List.cons_append, List.append_assoc]
    exact next_string h rest line
  | @num _ k h =>
    rw [(isAtom_of_denotes h).next hr, (isAtom_of_denotes h).lineBreaks, ofAtom,
      if_pos h.looksNumeric, Numeral.parse_eq_some_iff.mpr h]
    rfl
  | sym h hn =>
    rw [next_name h hn hr, h.lineBreaks]
    rfl

theorem exists_written_string (h : start Byte.doubleQuote rest line = .token t d) :
    ∃ body, Byte.doubleQuote ∉ body ∧ t = .str body ∧ rest = body ++ Byte.doubleQuote :: d.text ∧
      d.line = line + Bytes.lineBreaks body := by
  have hsplit := rest.takeWhile_append_dropWhile (p := (· != Byte.doubleQuote))
  have hbody : Byte.doubleQuote ∉ rest.takeWhile (· != Byte.doubleQuote) := by
    intro hm
    have hne := List.mem_takeWhile_imp hm
    simp at hne
  have hb := rest.head?_dropWhile_not (· != Byte.doubleQuote)
  unfold start at h
  rw [if_neg (by decide), if_neg (by decide), if_neg (by decide), if_neg (by decide),
    if_neg (by decide), if_pos (beq_self_eq_true _)] at h
  cases hdrop : rest.dropWhile (· != Byte.doubleQuote) with
  | nil =>
    rw [hdrop] at h
    cases h
  | cons b after =>
    rw [hdrop] at h hsplit hb
    cases h
    obtain rfl : b = Byte.doubleQuote := by simpa using hb
    exact ⟨_, hbody, rfl, hsplit.symm, rfl⟩

theorem stops_dropWhile (rest : Bytes) : Stops (rest.dropWhile (!endsAtom ·)) := by
  intro b hb
  have hd := rest.head?_dropWhile_not (!endsAtom ·)
  rw [Option.mem_def.mp hb] at hd
  simpa using hd

/-- What is read as an atom is a numeral or a name. -/
theorem exists_written_atom {name : Bytes} (hn : IsAtom name) (hr : Stops c.text)
    (h : ofAtom name c = .token t d) :
    Written t name ∧ t.EndsBefore d.text ∧ d = c := by
  unfold ofAtom at h
  split_ifs at h with hnum
  · split at h
    · cases h
      exact ⟨.num (Numeral.parse_eq_some_iff.mp ‹_›), hr, rfl⟩
    · cases h
  · cases h
    exact ⟨.sym hn (by simpa using hnum), hr, rfl⟩

/-- What is read as a token is a text of the token, and ends where the rest begins. -/
theorem exists_written (hblank : Byte.isBlank b = false) (hsemi : b ≠ Byte.semicolon)
    (h : start b rest line = .token t d) :
    ∃ text, Written t text ∧ t.EndsBefore d.text ∧ b :: rest = text ++ d.text ∧
      d.line = line + Bytes.lineBreaks text := by
  by_cases hdouble : b = Byte.doubleQuote
  · subst hdouble
    obtain ⟨body, hbody, rfl, rfl, hline⟩ := exists_written_string h
    refine ⟨_, .str hbody, trivial, by simp, ?_⟩
    simpa [Bytes.lineBreaks, Byte.doubleQuote, Byte.newline] using hline
  by_cases hcomma : b = Byte.comma
  · subst hcomma
    rw [start_comma] at h
    split at h
    · cases h
      exact ⟨_, .mark .splice, trivial, rfl, rfl⟩
    · rename_i hnot
      cases h
      refine ⟨_, .mark .unquote, ?_, rfl, rfl⟩
      intro hat
      obtain ⟨tail, htail⟩ := List.head?_eq_some_iff.mp hat
      exact hnot tail htail
  unfold start at h
  split_ifs at h with hopen hclose hquote hback hcomma' hdouble'
  · cases h
    obtain rfl : b = Byte.openParen := by simpa using hopen
    exact ⟨_, .opening, trivial, rfl, rfl⟩
  · cases h
    obtain rfl : b = Byte.closeParen := by simpa using hclose
    exact ⟨_, .closing, trivial, rfl, rfl⟩
  · cases h
    obtain rfl : b = Byte.quote := by simpa using hquote
    exact ⟨_, .mark .quote, trivial, rfl, rfl⟩
  · cases h
    obtain rfl : b = Byte.backquote := by simpa using hback
    exact ⟨_, .mark .template, trivial, rfl, rfl⟩
  · simp [hcomma] at hcomma'
  · simp [hdouble] at hdouble'
  · simp only [beq_iff_eq] at hopen hclose hquote hback
    have hatom : IsAtom (b :: rest.takeWhile (!endsAtom ·)) := by
      refine ⟨List.cons_ne_nil _ _, ?_, ?_⟩
      · intro b' hb'
        cases hb' with
        | head => exact endsAtom_eq_false_iff.mpr ⟨hblank, hopen, hclose, hdouble, hsemi⟩
        | tail _ hb' => simpa using List.mem_takeWhile_imp hb'
      · intro b' hb'
        cases hb'
        exact ⟨hquote, hback, hcomma⟩
    obtain ⟨hw, he, rfl⟩ := exists_written_atom hatom (stops_dropWhile rest) h
    refine ⟨_, hw, he, ?_, ?_⟩
    · simp
    · rw [hatom.lineBreaks]
      rfl

/-- A token comes next exactly if it is written after some layout and ends where the rest begins. -/
theorem next_eq_token_iff : next c = .token t d ↔
    ∃ lead text, Layout lead ∧ Written t text ∧ t.EndsBefore d.text ∧
      c.text = lead ++ text ++ d.text ∧
      d.line = c.line + Bytes.lineBreaks (lead ++ text) := by
  obtain ⟨whole, line⟩ := c
  constructor
  · intro h
    unfold next at h
    split at h
    · cases h
    · rename_i b rest line' hskip
      obtain ⟨hblank, hsemi, lead, rfl, rfl, hl⟩ := exists_layout hskip
      obtain ⟨text, hw, he, heq, hline⟩ := exists_written hblank hsemi h
      refine ⟨lead, text, hl, hw, he, by simp [heq], ?_⟩
      rw [hline, Bytes.lineBreaks_append]
      omega
  · rintro ⟨lead, text, hl, hw, he, hwhole, hline⟩
    obtain ⟨rest, line'⟩ := d
    dsimp only at he hwhole hline
    subst hwhole hline
    rw [List.append_assoc, next_layout hl, hw.next he, Bytes.lineBreaks_append, Nat.add_assoc]

end Token

end HeapLisp
