import HeapLisp.Proofs.Reader.Acceptance
import HeapLisp.Proofs.Reader.Locality

namespace HeapLisp

theorem SpellsAll.append_one {room : Nat} {fs : List Form} {f : Form} {ts us : List Token}
    (hs : SpellsAll room fs ts) (h : Spells room f us) : SpellsAll room (fs ++ [f]) (ts ++ us) := by
  induction fs generalizing ts with
  | nil =>
    cases hs
    have hone : SpellsAll room [f] (us ++ []) := .cons h .nil
    rwa [List.append_nil] at hone
  | cons g fs ih =>
    cases hs with
    | cons hg hgs =>
      rw [List.append_assoc]
      exact .cons hg (ih hgs)

/-- Whether a token opens a list or a mark. -/
def Token.Opens (t : Token) : Prop := t = .opening ∨ ∃ m, t = .mark m

namespace Reader

/-- From the first place to the second, these lists and marks are opened and not closed, innermost
first and no more of them than the limit allows; what else is opened is closed again. -/
inductive Inside (limit : Nat) (c : Cursor) : List Open → Cursor → Prop where
  | nil : Inside limit c [] c
  | list {outer : List Open} {b d e : Cursor} {items : List Form} {ts : List Token}
    (h : Inside limit c outer b)
    (hroom : outer.length < limit) (hopen : Token.next b = .token .opening d)
    (hitems : SpellsAll (limit - (outer.length + 1)) items.reverse ts) (hl : Token.Lexes d ts e) :
    Inside limit c (.list d.line items :: outer) e
  | mark {outer : List Open} {b d : Cursor} {m : Mark} (h : Inside limit c outer b)
    (hroom : outer.length < limit)
    (hmark : Token.next b = .token (.mark m) d) : Inside limit c (.mark m :: outer) d

variable {limit : Nat} {c b d : Cursor} {n n' : Nesting} {f : Form} {t : Token} {ts : List Token}
  {opens : List Open} {e : ReadError}

namespace Inside

theorem length_le (h : Inside limit c opens d) : opens.length ≤ limit := by
  cases h with
  | nil => exact Nat.zero_le limit
  | list _ hroom | mark _ hroom => exact hroom

theorem exists_lexes (h : Inside limit c opens d) : ∃ ts, Token.Lexes c ts d := by
  induction h with
  | nil => exact ⟨[], .nil c⟩
  | list _ _ hopen _ hl ih =>
    obtain ⟨ts, hts⟩ := ih
    exact ⟨_, hts.append (.cons hopen hl)⟩
  | mark _ _ hmark ih =>
    obtain ⟨ts, hts⟩ := ih
    exact ⟨_, hts.append (.cons hmark (.nil _))⟩

theorem place {depth : Nat} {hdepth : depth = opens.length} (h : Inside limit c opens b)
    (hf : Spells (limit - opens.length) f ts) (hl : Token.Lexes b ts d)
    (hplace : placeIn f opens depth hdepth = .more n') :
    Inside limit c n'.opens d := by
  induction h generalizing f depth ts with
  | nil => cases hplace
  | list h hroom hopen hitems hus _ =>
    cases hplace
    have hall := hitems.append_one hf
    rw [← List.reverse_cons] at hall
    exact .list h hroom hopen hall (hus.append hl)
  | @mark outer _ _ m h hroom hmark ih =>
    have hleft : limit - outer.length = limit - (outer.length + 1) + 1 := by omega
    have hwrapped : Spells (limit - outer.length) (m.wrap f) (.mark m :: ts) := by
      rw [hleft]
      exact .mark m hf
    exact ih hwrapped (.cons hmark hl) hplace

/-- Where a token makes room for more, what is open behind it is what the reader has open. -/
theorem step (h : Inside limit c n.opens b) (hnext : Token.next b = .token t d)
    (hstep : step limit d.line n t = .more n') :
    Inside limit c n'.opens d := by
  have hone : Token.Lexes b [t] d := .cons hnext (.nil d)
  have hdepth := n.depth_eq
  cases t with
  | opening =>
    simp only [Reader.step, enter] at hstep
    split_ifs at hstep with hroom
    cases hstep
    rw [hdepth] at hroom
    exact .list h hroom hnext .nil (.nil d)
  | mark m =>
    simp only [Reader.step, enter] at hstep
    split_ifs at hstep with hroom
    cases hstep
    rw [hdepth] at hroom
    exact .mark h hroom hnext
  | num k => exact h.place (.num k) hone hstep
  | str bytes => exact h.place (.str bytes) hone hstep
  | sym name => exact h.place (.sym name) hone hstep
  | closing =>
    obtain ⟨opens, depth, rfl⟩ := n
    cases h with
    | nil => cases hstep
    | mark => cases hstep
    | @list outer _ _ _ items us h hroom hopen hitems hus =>
      have hleft : limit - outer.length = limit - (outer.length + 1) + 1 := by omega
      have hlist : Spells (limit - outer.length) (.list items.reverse)
          (.opening :: (us ++ [.closing])) := by
        rw [hleft]
        exact .list hitems
      exact h.place hlist (.cons hopen (hus.append hone)) hstep

end Inside

theorem skipLists_error {lists : Nat} (h : skipLists lists c = (.error e, d)) :
    ∃ ts b after, Token.Lexes c ts b ∧ Token.next b = .failed e after := by
  fun_induction skipLists lists c with
  | case1 c => cases h
  | case2 c n after hn => cases h
  | case3 c n e' after hn =>
    cases h
    exact ⟨[], c, _, .nil c, hn⟩
  | case4 c n after hn ih | case5 c n after hn ih | case6 c n t after _ _ hn ih =>
    obtain ⟨ts, b, after, hts, hfailed⟩ := ih h
    exact ⟨_, b, after, .cons hn hts, hfailed⟩

theorem skipMarked_error {lists : Nat} (h : skipMarked lists c = (.error e, d)) :
    ∃ ts b after, Token.Lexes c ts b ∧ Token.next b = .failed e after := by
  fun_induction skipMarked lists c with
  | case1 c after hn => cases h
  | case2 c e' after hn =>
    cases h
    exact ⟨[], c, _, .nil c, hn⟩
  | case3 c m after hn ih =>
    obtain ⟨ts, b, after, hts, hfailed⟩ := ih h
    exact ⟨_, b, after, .cons hn hts, hfailed⟩
  | case4 c after hn | case5 c t after _ _ hn =>
    obtain ⟨ts, b, after, hts, hfailed⟩ := skipLists_error h
    exact ⟨_, b, after, .cons hn hts, hfailed⟩

/-- Why a reading from a place fails. -/
inductive Blames (limit : Nat) (c : Cursor) : ReadError → Prop where
  /-- A token is ill-formed. -/
  | token {ts : List Token} {b after : Cursor} {e e' : ReadError} (hts : Token.Lexes c ts b)
    (hnext : Token.next b = .failed e after)
    (hfault : e'.fault = e.fault) (hline : e'.line = e.line) : Blames limit c e'
  /-- The text ends inside a list. -/
  | list {line : Nat} {items : List Form} {outer : List Open} {b after : Cursor}
    (h : Inside limit c (.list line items :: outer) b) (hnext : Token.next b = .ended after) :
    Blames limit c ((ReadError.of (.unclosed .list)).atLine line)
  /-- The text ends after a mark. -/
  | mark {line : Nat} :
    Blames limit c (((ReadError.of .unexpectedEnd).whileReading .quotedForm).atLine line)
  /-- There is no list to close. -/
  | stray {line : Nat} : Blames limit c ((ReadError.of (.unexpected ')')).atLine line)
  /-- A token opens a list or a mark that there is no room for. -/
  | tooDeep {opens : List Open} {b after : Cursor} {t : Token} (h : Inside limit c opens b)
    (hfull : opens.length = limit)
    (hnext : Token.next b = .token t after) (ht : t.Opens) :
    Blames limit c ((ReadError.of .tooDeep).atLine after.line)

theorem of_step_tooDeep {line : Nat} (h : step limit line n t = .tooDeep) :
    t.Opens ∧ limit ≤ n.opens.length := by
  have hplace (f : Form) (opens : List Open) (depth : Nat) (hd : depth = opens.length) :
      placeIn f opens depth hd ≠ .tooDeep := by
    induction opens generalizing f depth with
    | nil => exact Step.noConfusion
    | cons o outer ih =>
      cases o with
      | list => exact Step.noConfusion
      | mark m => exact ih _ _ _
  have henter {o : Open} (h : enter limit o n = .tooDeep) : limit ≤ n.opens.length := by
    unfold enter at h
    split_ifs at h with hroom
    rw [← n.depth_eq]
    omega
  cases t with
  | opening => exact ⟨.inl rfl, henter h⟩
  | mark m => exact ⟨.inr ⟨m, rfl⟩, henter h⟩
  | num | str | sym => exact absurd h (hplace _ _ _ _)
  | closing =>
    obtain ⟨opens, depth, hd⟩ := n
    cases opens with
    | nil => cases h
    | cons o outer =>
      cases o with
      | list => exact absurd h (hplace _ _ _ _)
      | mark => cases h

/-- From wherever a reading stands inside a form, it fails for one of these causes. -/
theorem parse_failed {complete : List Form} {l : Lexeme}
    (h : parse limit n l = (.failed e complete, d)) (hin : Inside limit c n.opens b)
    (hl : Token.next b = l) : Blames limit c e := by
  fun_induction parse limit n l generalizing b with
  | case1 n after hnone => cases h
  | case2 n after e' hend =>
    obtain ⟨opens, depth, rfl⟩ := n
    cases h
    cases opens with
    | nil => cases hend
    | cons o outer =>
      cases o with
      | list line items =>
        cases hend
        exact .list hin hl
      | mark m =>
        cases hend
        exact .mark
  | case3 n e' after =>
    cases h
    obtain ⟨ts, hts⟩ := hin.exists_lexes
    refine .token hts hl ?_ ?_
    · rcases n.opens with _ | ⟨_ | _, _⟩ <;> rfl
    · rcases n.opens with _ | ⟨_ | _, _⟩ <;> rfl
  | case4 n t after n' hstep ih => exact ih h (hin.step hl hstep) rfl
  | case5 n t after f hstep => cases h
  | case6 n t after hstep =>
    cases h
    exact .stray
  | case7 n t after hstep =>
    obtain ⟨ht, hfull⟩ := of_step_tooDeep hstep
    rw [skipDeep] at h
    rcases hpass : passOver t n.opens after with ⟨_ | _, place⟩
    · rw [hpass] at h
      cases h
      have hfailed : ∃ ts b' after', Token.Lexes after ts b' ∧
          Token.next b' = .failed e after' := by
        unfold passOver at hpass
        split at hpass
        · exact skipLists_error hpass
        · exact skipMarked_error hpass
      obtain ⟨ts, b', after', hts, hnext⟩ := hfailed
      obtain ⟨us, hus⟩ := hin.exists_lexes
      exact .token (hus.append (.cons hl hts)) hnext rfl rfl
    · rw [hpass] at h
      cases h
      exact .tooDeep hin (Nat.le_antisymm hin.length_le hfull) hl ht

theorem read_failed {complete : List Form} (h : read limit c = (.failed e complete, d)) :
    Blames limit c e :=
  parse_failed h .nil rfl

end Reader

end HeapLisp
