import HeapLisp.Proofs.Reader.Grammar

namespace HeapLisp

theorem Token.Lexes.length_le {c d : Cursor} {ts : List Token} (h : Lexes c ts d) :
    d.text.length + ts.length ≤ c.text.length := by
  induction h with
  | nil => simp
  | cons hn _ ih =>
    have hlt := Token.length_next_lt hn
    simp only [List.length_cons]
    omega

namespace Reader

variable {limit room : Nat} {n : Nesting} {c d e : Cursor} {f g : Form}

theorem skipDeep_ne_form (t : Token) (opens : List Open) (c : Cursor) :
    skipDeep t opens c ≠ (.form g, e) := by
  rw [skipDeep]
  obtain ⟨_ | _, after⟩ := passOver t opens c <;> exact fun h => by cases h

theorem parse_ended_ne_form (n : Nesting) (c : Cursor) :
    parse limit n (.ended c) ≠ (.form g, e) := by
  intro h
  rw [parse] at h
  split at h <;> cases h

theorem parse_failed_ne_form (n : Nesting) (err : ReadError) (c : Cursor) :
    parse limit n (.failed err c) ≠ (.form g, e) := by
  intro h
  rw [parse] at h
  cases h

/-- Where a form is read in the end, a token that opens something had room for it. -/
theorem depth_lt_of_entered {t : Token} {o : Open} (hstep : step limit c.line n t = enter limit o n)
    (h : parse limit n (.token t c) = (.form g, e)) : n.depth < limit := by
  by_contra hnot
  rw [parse, hstep, enter, if_neg hnot] at h
  exact skipDeep_ne_form t n.opens c h

/-- In texts of at most `length` bytes the next tokens spell a form wherever `g` is read in the end
and no list is closed. -/
def SpelledWithin (limit room length : Nat) (g : Form) (e : Cursor) : Prop :=
  ∀ c (n : Nesting), c.text.length ≤ length → n.depth + room = limit →
    parse limit n (Token.next c) = (.form g, e) →
    (∀ d, Token.next c ≠ .token .closing d) → ∃ f ts d, Spells room f ts ∧ Token.Lexes c ts d

/-- Where a form is read in the end, the tokens of an open list spell its remaining items, up to its
end. -/
theorem exists_spellsAll {line : Nat} {items : List Form} {outer : List Open}
    (ih : SpelledWithin limit room c.text.length g e) (hroom : outer.length + 1 + room = limit)
    (h : parse limit (.of (.list line items :: outer)) (Token.next c) = (.form g, e)) :
    ∃ fs ts d, SpellsAll room fs ts ∧ Token.Lexes c (ts ++ [.closing]) d := by
  induction hlen : c.text.length using Nat.strong_induction_on generalizing c items with
  | _ length ihl =>
    by_cases hclosing : ∃ d, Token.next c = .token .closing d
    · obtain ⟨d, hd⟩ := hclosing
      exact ⟨[], [], d, .nil, .cons hd (.nil d)⟩
    · have hnot : ∀ d, Token.next c ≠ .token .closing d := by simpa using hclosing
      obtain ⟨f, ts, d, hf, hl⟩ := ih c _ (Nat.le_refl _) hroom h hnot
      have hd := hl.length_le
      have hts := List.length_pos_iff.mpr hf.ne_nil
      have hrest : parse limit (.of (.list line (f :: items) :: outer)) (Token.next d) =
          (.form g, e) := by
        rw [← h, parse_spells hf (Nat.le_of_eq hroom) hl]
        rfl
      have ih' : SpelledWithin limit room d.text.length g e := fun c' n hle => ih c' n (by omega)
      obtain ⟨fs, us, e', hfs, hus⟩ := ihl d.text.length (by omega) ih' hrest rfl
      refine ⟨f :: fs, ts ++ us, e', .cons hf hfs, ?_⟩
      rw [List.append_assoc]
      exact hl.append hus

/-- Where a form is read in the end, the next tokens spell a form, unless they close the innermost
list. -/
theorem exists_spells (hroom : n.depth + room = limit)
    (h : parse limit n (Token.next c) = (.form g, e))
    (hclosing : ∀ d, Token.next c = .token .closing d →
      ∀ line items outer, n.opens ≠ .list line items :: outer) :
    ∃ f ts d, Spells room f ts ∧ Token.Lexes c ts d := by
  induction hlen : c.text.length using Nat.strong_induction_on generalizing c n room with
  | _ length ih =>
    cases hnext : Token.next c with
    | ended d =>
      rw [hnext] at h
      exact absurd h (parse_ended_ne_form n d)
    | failed err d =>
      rw [hnext] at h
      exact absurd h (parse_failed_ne_form n err d)
    | token t d =>
      rw [hnext] at h
      have hlt := Token.length_next_lt hnext
      cases t with
      | num k => exact ⟨_, _, d, .num k, .cons hnext (.nil d)⟩
      | str bytes => exact ⟨_, _, d, .str bytes, .cons hnext (.nil d)⟩
      | sym name => exact ⟨_, _, d, .sym name, .cons hnext (.nil d)⟩
      | closing =>
        obtain ⟨opens, depth, hdepth⟩ := n
        cases opens with
        | nil =>
          rw [parse] at h
          cases h
        | cons o outer =>
          cases o with
          | list line items => exact absurd rfl (hclosing d hnext line items outer)
          | mark m =>
            rw [parse] at h
            cases h
      | opening =>
        have hdepth := depth_lt_of_entered rfl h
        obtain ⟨room', rfl⟩ : ∃ room', room = room' + 1 := ⟨room - 1, by omega⟩
        rw [parse_of_entered rfl hdepth] at h
        have hroom' : n.opens.length + 1 + room' = limit := by
          rw [← n.depth_eq]
          omega
        have ih' : SpelledWithin limit room' d.text.length g e := by
          intro c' n hle hroom h hnot
          exact ih c'.text.length (by omega) hroom h (fun d hd => absurd hd (hnot d)) rfl
        obtain ⟨fs, ts, e', hfs, hl⟩ := exists_spellsAll ih' hroom' h
        exact ⟨_, _, e', .list hfs, .cons hnext hl⟩
      | mark m =>
        have hdepth := depth_lt_of_entered rfl h
        obtain ⟨room', rfl⟩ : ∃ room', room = room' + 1 := ⟨room - 1, by omega⟩
        rw [parse_of_entered rfl hdepth] at h
        have hroom' : (Nesting.of (.mark m :: n.opens)).depth + room' = limit := by
          have hn := n.depth_eq
          simp only [Nesting.of, List.length_cons]
          omega
        have hmark : ∀ d', Token.next d = .token .closing d' → ∀ line items outer,
            (Nesting.of (.mark m :: n.opens)).opens ≠ .list line items :: outer := by
          intro d' _ line items outer heq
          cases heq
        obtain ⟨f, ts, e', hf, hl⟩ := ih d.text.length (by omega) hroom' h hmark rfl
        exact ⟨_, _, e', .mark m hf, .cons hnext hl⟩

theorem read_eq_form_iff : read limit c = (.form f, d) ↔ ∃ ts, Spells limit f ts ∧
    Token.Lexes c ts d := by
  constructor
  · intro h
    have hnone : (Nesting.none).depth + limit = limit := Nat.zero_add limit
    obtain ⟨g, ts, e, hg, hl⟩ := exists_spells hnone h (fun _ _ _ _ _ heq => by cases heq)
    rw [read_spells hg hl] at h
    cases h
    exact ⟨ts, hg, hl⟩
  · rintro ⟨ts, hs, hl⟩
    exact read_spells hs hl

end Reader

end HeapLisp
