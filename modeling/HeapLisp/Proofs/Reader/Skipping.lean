import HeapLisp.Proofs.Reader.Locality
import HeapLisp.Proofs.Reader.Sources

namespace HeapLisp

mutual

/-- The most lists inside each other. -/
def Form.depth : Form → Nat
  | .num _ | .str _ | .sym _ => 0
  | .list items => Form.depthAll items + 1

def Form.depthAll : List Form → Nat
  | [] => 0
  | f :: fs => max f.depth (Form.depthAll fs)

end

theorem Mark.depth_wrap (m : Mark) (f : Form) : (m.wrap f).depth = f.depth + 1 := by
  simp [wrap, Form.depth, Form.depthAll]

mutual

theorem Spells.depth_le : {room : Nat} → {f : Form} → {ts : List Token} → Spells room f ts →
    f.depth ≤ room
  | _, _, _, .num _ | _, _, _, .str _ | _, _, _, .sym _ => Nat.zero_le _
  | _, _, _, .list hs => Nat.succ_le_succ (SpellsAll.depth_le hs)
  | _, _, _, .mark m h => (m.depth_wrap _).trans_le (Nat.succ_le_succ (Spells.depth_le h))

theorem SpellsAll.depth_le :
    {room : Nat} → {fs : List Form} → {ts : List Token} → SpellsAll room fs ts →
    Form.depthAll fs ≤ room
  | _, _, _, .nil => Nat.zero_le _
  | _, _, _, .cons h hs => Nat.max_le.mpr ⟨Spells.depth_le h, SpellsAll.depth_le hs⟩

end

mutual

theorem Spells.within : {room : Nat} → {f : Form} → {ts : List Token} → Spells room f ts →
    ∀ {limit : Nat}, f.depth ≤ limit →
    Spells limit f ts
  | _, _, _, .num k, _, _ => .num k
  | _, _, _, .str bytes, _, _ => .str bytes
  | _, _, _, .sym name, _, _ => .sym name
  | _, _, _, .list hs, limit + 1, hd => .list (SpellsAll.within hs (Nat.le_of_succ_le_succ hd))
  | _, _, _, .mark m h, 0, hd => by
    rw [m.depth_wrap] at hd
    omega
  | _, _, _, .mark m h, limit + 1, hd => by
    rw [m.depth_wrap] at hd
    exact .mark m (Spells.within h (by omega))

theorem SpellsAll.within : {room : Nat} → {fs : List Form} → {ts : List Token} →
    SpellsAll room fs ts → ∀ {limit : Nat},
    Form.depthAll fs ≤ limit → SpellsAll limit fs ts
  | _, _, _, .nil, _, _ => .nil
  | _, _, _, .cons h hs, _, hd =>
    .cons (Spells.within h (Nat.max_le.mp hd).1) (SpellsAll.within hs (Nat.max_le.mp hd).2)

end

namespace Reader

variable {room limit lists : Nat} {f : Form} {fs : List Form} {ts : List Token} {c d : Cursor}
  {n : Nesting}

mutual

/-- Passing over tokens that spell a form closes no list around it. -/
theorem skipLists_spells : {room : Nat} → {f : Form} → {ts : List Token} → Spells room f ts →
    ∀ {lists : Nat} {c d : Cursor},
    Token.Lexes c ts d → skipLists (lists + 1) c = skipLists (lists + 1) d
  | _, _, _, .num _, lists, c, d, .cons hn (.nil _) => by rw [skipLists, hn]
  | _, _, _, .str _, lists, c, d, .cons hn (.nil _) => by rw [skipLists, hn]
  | _, _, _, .sym _, lists, c, d, .cons hn (.nil _) => by rw [skipLists, hn]
  | _, _, _, .list hs, lists, c, d, .cons hn hl => by
    rw [skipLists, hn]
    exact skipLists_spellsAll hs hl
  | _, _, _, .mark m h, lists, c, d, .cons hn hl => by
    rw [skipLists, hn]
    exact skipLists_spells h hl

theorem skipLists_spellsAll : {room : Nat} → {fs : List Form} → {ts : List Token} →
    SpellsAll room fs ts →
    ∀ {lists : Nat} {c d : Cursor}, Token.Lexes c (ts ++ [.closing]) d →
      skipLists (lists + 1) c = skipLists lists d
  | _, _, _, .nil, lists, c, d, .cons hn (.nil _) => by rw [skipLists, hn]
  | _, _, _, .cons h hs, lists, c, d, hl => by
    rw [List.append_assoc] at hl
    obtain ⟨e, hfirst, hothers⟩ := hl.split
    rw [skipLists_spells h hfirst]
    exact skipLists_spellsAll hs hothers

end

/-- Passing over the form of a mark leaves the lists around it open. -/
theorem skipMarked_spells (h : Spells room f ts) (hl : Token.Lexes c ts d) :
    skipMarked lists c = skipLists lists d := by
  induction room using Nat.strong_induction_on generalizing f ts c with
  | _ room ih =>
    cases hl with
    | nil => exact absurd rfl h.ne_nil
    | cons hn hl =>
      rw [skipMarked, hn]
      cases h with
      | num | str | sym =>
        cases hl
        rfl
      | list hs => exact skipLists_spellsAll hs hl
      | @mark room' m f ts h => exact ih room' (by omega) h hl

/-- The failure that a form is too deep, once the form and the lists around it are passed over. -/
def TooDeep (opens : List Open) (d : Cursor) (r : Reading × Cursor) : Prop :=
  ∃ (line : Nat) (complete : List Form),
    r = failAfter ((ReadError.of .tooDeep).atLine line) complete (skipLists (openLists opens) d)

theorem parse_of_refused {t : Token} {o : Open} (hstep : step limit c.line n t = enter limit o n)
    (h : ¬ n.depth < limit) (hpass : passOver t n.opens c = skipLists (openLists n.opens) d) :
    TooDeep n.opens d (parse limit n (.token t c)) := by
  refine ⟨c.line, completeForms n.opens, ?_⟩
  rw [parse, hstep, enter, if_neg h]
  dsimp only
  rw [skipDeep, hpass]

/-- An item that is too deep is passed over together with the items after it and the end of the
list. -/
theorem parse_list_tooDeep {room' line : Nat} {items : List Form} {outer : List Open}
    (ih : ∀ f ts c d (n : Nesting), Spells room' f ts → n.depth + room = limit → room < f.depth →
      Token.Lexes c ts d →
      TooDeep n.opens d (parse limit n (Token.next c)))
    (h : SpellsAll room' fs ts) (hroom : outer.length + 1 + room = limit)
    (hdeep : room < Form.depthAll fs) (hl : Token.Lexes c (ts ++ [.closing]) d) :
    TooDeep outer d (parse limit (.of (.list line items :: outer)) (Token.next c)) := by
  induction fs generalizing items ts c with
  | nil => exact absurd hdeep (Nat.not_lt_zero room)
  | cons f fs ihs =>
    cases h with
    | cons hf hfs =>
      rw [List.append_assoc] at hl
      obtain ⟨e, hfirst, hothers⟩ := hl.split
      -- items before the first one that is too deep are read as usual
      by_cases hfit : f.depth ≤ room
      · have hrest : room < Form.depthAll fs := by
          rw [Form.depthAll] at hdeep
          omega
        rw [parse_spells (hf.within hfit) (Nat.le_of_eq hroom) hfirst]
        exact ihs hfs hrest hothers
      · obtain ⟨line', complete, hparse⟩ :=
          ih f _ c e (.of (.list line items :: outer)) hf hroom (by omega) hfirst
        refine ⟨line', complete, ?_⟩
        rw [hparse, ← skipLists_spellsAll hfs hothers]
        rfl

/-- A form that nests deeper than the limit is passed over as a whole, with the lists around it. -/
theorem parse_tooDeep {room' : Nat} (h : Spells room' f ts) (hroom : n.depth + room = limit)
    (hdeep : room < f.depth) (hl : Token.Lexes c ts d) :
    TooDeep n.opens d (parse limit n (Token.next c)) := by
  induction room' using Nat.strong_induction_on generalizing n c d f ts room with
  | _ room' ih =>
    have hdepth := n.depth_eq
    cases h with
    | num | str | sym => exact absurd hdeep (Nat.not_lt_zero room)
    | @list inner fs us h =>
      cases hl with
      | cons hn hl =>
        rw [hn]
        -- without room the list is refused itself; otherwise one of its items is too deep
        cases room with
        | zero => exact parse_of_refused rfl (by omega) (skipLists_spellsAll h hl)
        | succ room =>
          have hroom' : n.opens.length + 1 + room = limit := by omega
          rw [parse_of_entered rfl (by omega)]
          exact parse_list_tooDeep (fun f ts c d n h hroom hdeep hl =>
            ih inner (by omega) h hroom hdeep hl) h hroom'
            (Nat.lt_of_succ_lt_succ hdeep) hl
    | @mark inner m f us h =>
      rw [m.depth_wrap] at hdeep
      cases hl with
      | cons hn hl =>
        rw [hn]
        cases room with
        | zero => exact parse_of_refused rfl (by omega) (skipMarked_spells h hl)
        | succ room =>
          have hroom' : n.opens.length + 1 + room = limit := by omega
          rw [parse_of_entered rfl (by omega)]
          exact ih inner (by omega) h hroom' (by omega) hl

theorem read_of_spells (limit : Nat) {room' : Nat} (h : Spells room' f ts)
    (hl : Token.Lexes c ts d) :
    f.depth ≤ limit ∧ read limit c = (.form f, d) ∨
      limit < f.depth ∧ ∃ (line : Nat) (complete : List Form),
        read limit c = (.failed ((ReadError.of .tooDeep).atLine line) complete, d) := by
  by_cases hfit : f.depth ≤ limit
  · exact .inl ⟨hfit, read_spells (h.within hfit) hl⟩
  · have hdeep : limit < f.depth := by omega
    obtain ⟨line, complete, hparse⟩ := parse_tooDeep (n := .none) h (Nat.zero_add limit) hdeep hl
    refine .inr ⟨hdeep, line, complete, ?_⟩
    rw [read, hparse, Nesting.none, openLists, skipLists]
    rfl

/-- Inside a list or a mark a step stays inside one, unless it completes the form or fails. -/
theorem placeIn_opens {opens : List Open} {depth : Nat} {h : depth = opens.length} {n' : Nesting}
    (hplace : placeIn f opens depth h = .more n') : n'.opens ≠ [] := by
  induction opens generalizing f depth with
  | nil => cases hplace
  | cons o outer ih =>
    cases o with
    | list line items =>
      cases hplace
      exact List.cons_ne_nil _ _
    | mark m => exact ih hplace

theorem step_opens {line : Nat} {t : Token} {n' : Nesting} (h : step limit line n t = .more n') :
    n'.opens ≠ [] := by
  have hentered {o : Open} (h : enter limit o n = .more n') : n'.opens ≠ [] := by
    unfold enter at h
    split_ifs at h
    cases h
    exact List.cons_ne_nil _ _
  cases t with
  | opening => exact hentered h
  | mark m => exact hentered h
  | num | str | sym => exact placeIn_opens h
  | closing =>
    obtain ⟨opens, depth, hdepth⟩ := n
    match opens with
    | [] => cases h
    | .mark m :: outer => cases h
    | .list line items :: outer => exact placeIn_opens h

theorem skipDeep_ne_ended (t : Token) (opens : List Open) (c : Cursor) :
    (skipDeep t opens c).1 ≠ .ended := by
  rw [skipDeep]
  rcases passOver t opens c with ⟨_ | _, after⟩ <;> exact Reading.noConfusion

theorem parse_ne_ended {l : Lexeme} (h : n.opens ≠ []) : (parse limit n l).1 ≠ .ended := by
  fun_induction parse limit n l with
  | case1 n after hin =>
    cases hopens : n.opens with
    | nil => contradiction
    | cons o outer => cases o <;> simp [hopens, endedInside] at hin
  | case2 | case3 => exact Reading.noConfusion
  | case4 n t after n' hstep ih => exact ih (step_opens hstep)
  | case5 | case6 => exact Reading.noConfusion
  | case7 n t after => exact skipDeep_ne_ended t n.opens after

theorem read_eq_ended_iff : read limit c = (.ended, d) ↔ Token.next c = .ended d := by
  constructor
  · intro h
    rw [read] at h
    cases hnext : Token.next c with
    | ended after =>
      rw [hnext, parse] at h
      cases h
      rfl
    | failed e after =>
      rw [hnext, parse] at h
      cases h
    | token t after =>
      rw [hnext, parse] at h
      split at h
      · rename_i hstep
        exact absurd (congrArg Prod.fst h) (parse_ne_ended (step_opens hstep))
      · cases h
      · cases h
      · exact absurd (congrArg Prod.fst h) (skipDeep_ne_ended t _ after)
  · intro h
    rw [read, h, parse]
    rfl

end Reader

/-- The interpreter with another limit. -/
def Interp.limited (limit : Nat) (s : Interp) : Interp :=
  { s with config := { s.config with maxDepth := limit } }

/-- Under another limit reading ends at the same place, with the same form, or with a failure if the
form is too deep. -/
theorem readFrom_limited {s s' : Interp} (hw : s.store.WellFormed) {source source' : Source}
    {mark mark' : Bookmark} {c : Cursor} (hat : source.At s mark c) {r : Readout}
    (h : Effect.readFrom source mark s = some ((r, mark', source'), s')) (hr : ∀ e, r ≠ .failed e)
    (limit : Nat) :
    ∃ r₁ s₁, Effect.readFrom source mark (s.limited limit) = some ((r₁, mark', source'), s₁) ∧
      source'.stream? s₁ = source'.stream? s' ∧
      (r = .ended ∧ r₁ = .ended ∨
        ∃ f v, r = .value v ∧ s'.Stored f v ∧
          (f.depth ≤ limit ∧ (∃ w, r₁ = .value w ∧ s₁.Stored f w) ∨
            limit < f.depth ∧ ∃ e, r₁ = .failed e ∧ e.fault = .tooDeep)) := by
  obtain ⟨stream, hstream, hfinite, hmark⟩ := hat
  rcases hread : Reader.read s.config.maxDepth c with ⟨reading, d⟩
  rcases hafter : Bookmark.ofCursor d with ⟨mark₀, left⟩
  obtain ⟨r₀, s₀, hfrom, _, hreads, hstream₀, _⟩ :=
    Effect.readFrom_cursor hw hstream hfinite hmark hread hafter
  cases hfrom.symm.trans h
  have hstream₁ : source.stream? (s.limited limit) = some stream := hstream
  have hlower {reading : Reading} (hlow : Reader.read limit c = (reading, d)) :=
    Effect.readFrom_cursor (s := s.limited limit) hw hstream₁ hfinite hmark hlow hafter
  cases hreads with
  | failed e complete => exact absurd rfl (hr e)
  | ended =>
    obtain ⟨r₁, s₁, hfrom₁, _, hreads₁, hstream₁, _⟩ :=
      hlower (Reader.read_eq_ended_iff.mpr (Reader.read_eq_ended_iff.mp hread))
    cases hreads₁
    exact ⟨.ended, s₁, hfrom₁, hstream₁.trans hstream₀.symm, .inl ⟨rfl, rfl⟩⟩
  | @value f v hv =>
    obtain ⟨ts, hs, hl⟩ := Reader.read_eq_form_iff.mp hread
    rcases Reader.read_of_spells limit hs hl with ⟨hfit, hlow⟩ | ⟨hdeep, line, complete, hlow⟩
    · obtain ⟨r₁, s₁, hfrom₁, _, hreads₁, hstream₁, _⟩ := hlower hlow
      cases hreads₁ with
      | @value _ w hw =>
        exact ⟨_, s₁, hfrom₁, hstream₁.trans hstream₀.symm,
          .inr ⟨f, v, rfl, hv, .inl ⟨hfit, w, rfl, hw⟩⟩⟩
    · obtain ⟨r₁, s₁, hfrom₁, _, hreads₁, hstream₁, _⟩ := hlower hlow
      cases hreads₁
      exact ⟨_, s₁, hfrom₁, hstream₁.trans hstream₀.symm,
        .inr ⟨f, v, rfl, hv, .inr ⟨hdeep, _, rfl, rfl⟩⟩⟩

/-- A quoted list inside a list: two around its items are too many for a limit of one. -/
theorem readFrom_limited_quoted :
    let s := Interp.bare ⟨2, 65536, false⟩ .empty 0
    let source := Source.own (.memory (Bytes.ofString "(a 'b) c"))
    ∃ v mark' source' s', Effect.readFrom source .start s = some ((.value v, mark', source'), s') ∧
      ∃ e s₁, Effect.readFrom source .start (s.limited 1) = some ((.failed e, mark', source'), s₁) ∧
        e.fault = .tooDeep ∧
        source'.stream? s₁ = source'.stream? s' := by
  intro s source
  have hw : s.store.WellFormed := Store.WellFormed.empty.insert _
  have hstream : source.stream? s = some (.memory (Bytes.ofString "(a 'b) c")) := rfl
  have hmark : Bookmark.ofCursor ⟨Byte.space :: Bytes.ofString "(a 'b) c", 1⟩ =
      (.start, Bytes.ofString "(a 'b) c") :=
    rfl
  have hs : Spells 2 (.list [.sym [97], Mark.quote.wrap (.sym [98])])
      (.opening :: ([.sym [97], .mark .quote, .sym [98]] ++ [.closing])) :=
    .list (.cons (.sym _) (.cons (.mark .quote (.sym _)) .nil))
  have hl : Token.Lexes ⟨Byte.space :: Bytes.ofString "(a 'b) c", 1⟩
      (.opening :: ([.sym [97], .mark .quote, .sym [98]] ++ [.closing])) ⟨Bytes.ofString " c", 1⟩ :=
    .cons rfl (.cons rfl (.cons rfl (.cons rfl (.cons rfl (.nil _)))))
  obtain ⟨r, s', hfrom, _, hreads, _⟩ :=
    Effect.readFrom_cursor hw hstream trivial hmark (Reader.read_spells hs hl) rfl
  cases hreads with
  | @value _ v hv =>
    refine ⟨v, _, _, s', hfrom, ?_⟩
    obtain ⟨r₁, s₁, hfrom₁, hsame, hcases⟩ :=
      readFrom_limited hw ⟨_, hstream, trivial, hmark⟩ hfrom (by simp) 1
    rcases hcases with ⟨hended, _⟩ | ⟨f, w, hvalue, hw, hcases⟩
    · cases hended
    · cases hvalue
      obtain rfl := hw.unique hv
      rcases hcases with ⟨hfit, _⟩ | ⟨_, e, rfl, hfault⟩
      · exact absurd hfit (by decide)
      · exact ⟨e, s₁, hfrom₁, hfault, hsame⟩

end HeapLisp
