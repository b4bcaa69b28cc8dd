import HeapLisp.Proofs.Reader.Tokens
import HeapLisp.Reader.Parse

namespace HeapLisp

mutual

/-- The tokens spell the form, with at most `room` lists and marks inside each other. -/
inductive Spells : (room : Nat) → Form → List Token → Prop where
  | num {room : Nat} (k : Int64) : Spells room (.num k) [.num k]
  | str {room : Nat} (bytes : Bytes) : Spells room (.str bytes) [.str bytes]
  | sym {room : Nat} (name : Bytes) : Spells room (.sym name) [.sym name]
  | list {room : Nat} {fs : List Form} {ts : List Token} (h : SpellsAll room fs ts) :
    Spells (room + 1) (.list fs) (.opening :: (ts ++ [.closing]))
  | mark {room : Nat} (m : Mark) {f : Form} {ts : List Token} (h : Spells room f ts) :
    Spells (room + 1) (m.wrap f) (.mark m :: ts)

/-- The tokens spell the forms one after the other. -/
inductive SpellsAll : (room : Nat) → List Form → List Token → Prop where
  | nil {room : Nat} : SpellsAll room [] []
  | cons {room : Nat} {f : Form} {fs : List Form} {ts us : List Token} (h : Spells room f ts)
    (hs : SpellsAll room fs us) :
    SpellsAll room (f :: fs) (ts ++ us)

end

theorem Spells.ne_nil {room : Nat} {f : Form} {ts : List Token} (h : Spells room f ts) :
    ts ≠ [] := by
  cases h <;> simp

theorem Token.Lexes.split {c e : Cursor} {ts us : List Token} (h : Lexes c (ts ++ us) e) :
    ∃ d, Lexes c ts d ∧ Lexes d us e := by
  induction ts generalizing c with
  | nil => exact ⟨c, .nil c, h⟩
  | cons t ts ih =>
    cases h with
    | cons hn hs =>
      obtain ⟨d, hd, he⟩ := ih hs
      exact ⟨d, .cons hn hd, he⟩

/-- The nesting with these lists and marks open. -/
def Nesting.of (opens : List Open) : Nesting := ⟨opens, opens.length, rfl⟩

theorem Nesting.eq_of (n : Nesting) : n = .of n.opens := by
  obtain ⟨opens, depth, rfl⟩ := n
  rfl

namespace Reader

/-- Where a reading goes on when a form is complete: it closes the marks before it, and joins the
innermost open list or is the result. -/
def complete (limit : Nat) (c : Cursor) (f : Form) : (opens : List Open) → Reading × Cursor
  | [] => (.form f, c)
  | .list line items :: outer => parse limit (.of (.list line (f :: items) :: outer)) (Token.next c)
  | .mark m :: outer => complete limit c (m.wrap f) outer

variable {limit room : Nat} {n : Nesting} {c d : Cursor} {f : Form}

theorem parse_of_placed {t : Token} {opens : List Open} {depth : Nat} {h : depth = opens.length}
    (hstep : step limit c.line n t = placeIn f opens depth h) :
    parse limit n (.token t c) = complete limit c f opens := by
  rw [parse, hstep]
  clear hstep
  induction opens generalizing f depth with
  | nil => rfl
  | cons o outer ih =>
    subst h
    cases o with
    | list line items => rfl
    | mark m => exact ih

theorem parse_atom {t : Token} (hstep : step limit d.line n t = place f n)
    (hl : Token.Lexes c [t] d) :
    parse limit n (Token.next c) = complete limit d f n.opens := by
  cases hl with
  | cons hn hs =>
    cases hs
    rw [hn]
    exact parse_of_placed hstep

theorem parse_of_entered {t : Token} {o : Open} (hstep : step limit c.line n t = enter limit o n)
    (h : n.depth < limit) :
    parse limit n (.token t c) = parse limit (.of (o :: n.opens)) (Token.next c) := by
  rw [parse, hstep, enter, if_pos h]
  exact congrArg (parse limit · (Token.next c)) (n.push o).eq_of

theorem parse_list {items fs : List Form} {line : Nat} {outer : List Open} {ts : List Token}
    (ih : ∀ f ts c d (n : Nesting), Spells room f ts → n.depth + room ≤ limit → Token.Lexes c ts d →
      parse limit n (Token.next c) = complete limit d f n.opens)
    (h : SpellsAll room fs ts) (hroom : outer.length + 1 + room ≤ limit)
    (hl : Token.Lexes c (ts ++ [.closing]) d) :
    parse limit (.of (.list line items :: outer)) (Token.next c) = complete limit d
      (.list (items.reverse ++ fs)) outer := by
  induction fs generalizing items ts c with
  | nil =>
    cases h
    cases hl with
    | cons hn hs =>
      cases hs
      rw [hn, List.append_nil]
      exact parse_of_placed rfl
  | cons f fs ihs =>
    cases h with
    | cons hf hfs =>
      rw [List.append_assoc] at hl
      obtain ⟨c', hts, hl⟩ := hl.split
      rw [ih f _ c c' _ hf hroom hts]
      have hrest : parse limit (.of (.list line (f :: items) :: outer)) (Token.next c') = _ :=
        ihs hfs hl
      rw [List.reverse_cons, List.append_assoc] at hrest
      exact hrest

theorem parse_spells {ts : List Token} (h : Spells room f ts) (hroom : n.depth + room ≤ limit)
    (hl : Token.Lexes c ts d) :
    parse limit n (Token.next c) = complete limit d f n.opens := by
  induction room using Nat.strong_induction_on generalizing n c d f ts with
  | _ room ih =>
    have hdepth := n.depth_eq
    cases h with
    | num | str | sym => exact parse_atom rfl hl
    | @list room' _ _ h =>
      cases hl with
      | cons hn hs =>
        have hroom' : n.opens.length + 1 + room' ≤ limit := by omega
        rw [hn, parse_of_entered rfl (by omega)]
        exact parse_list (fun f ts c d n h hroom hl => ih room' (by omega) h hroom hl) h hroom' hs
    | @mark room' m _ _ h =>
      cases hl with
      | cons hn hs =>
        have hroom' : n.opens.length + 1 + room' ≤ limit := by omega
        rw [hn, parse_of_entered rfl (by omega)]
        exact ih room' (by omega) h hroom' hs

/-- What spells a form within the limit is read as that form. -/
theorem read_spells {ts : List Token} (h : Spells limit f ts) (hl : Token.Lexes c ts d) :
    read limit c = (.form f, d) :=
  parse_spells h (Nat.le_of_eq (Nat.zero_add limit)) hl

end Reader

end HeapLisp
