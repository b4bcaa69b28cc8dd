import HeapLisp.Proofs.Bytes.Utf8
import HeapLisp.Proofs.Reader.RoundTrip
import HeapLisp.Proofs.Reader.Skipping

namespace HeapLisp

/-- Names that are read back, and strings that are printed as they are. -/
inductive Form.Readable : Form → Prop where
  | num (k : Int64) : Readable (.num k)
  | str {bytes : Bytes} (hv : Utf8.isValid bytes = true) (hq : Byte.doubleQuote ∉ bytes) :
    Readable (.str bytes)
  | sym {name : Bytes} (h : ReadableName name) : Readable (.sym name)
  | list {fs : List Form} (h : ∀ f ∈ fs, Readable f) : Readable (.list fs)

mutual

/-- The form as it is printed with room for `room` objects inside each other. -/
def Form.cut : (room : Nat) → Form → Form
  | _, .num k => .num k
  | _, .sym name => .sym name
  | 0, .str _ | 0, .list _ => .sym Printer.dots
  | _ + 1, .str bytes => .str bytes
  | room + 1, .list items => .list (Form.cutAll room items)

def Form.cutAll : (room : Nat) → List Form → List Form
  | _, [] => []
  | room, f :: fs => f.cut room :: Form.cutAll room fs

end

mutual

/-- The most lists and strings inside each other. -/
def Form.height : Form → Nat
  | .num _ | .sym _ => 0
  | .str _ => 1
  | .list items => Form.heightAll items + 1

def Form.heightAll : List Form → Nat
  | [] => 0
  | f :: fs => max f.height (Form.heightAll fs)

end

mutual

/-- A form is printed in full exactly if there is room for its height. -/
theorem Form.cut_eq_self_iff : (f : Form) → ∀ {room : Nat}, f.cut room = f ↔ f.height ≤ room
  | .num _, _ => by simp [cut, height]
  | .sym _, _ => by simp [cut, height]
  | .str _, 0 => by simp [cut, height]
  | .str _, room + 1 => by simp [cut, height]
  | .list _, 0 => by simp [cut, height]
  | .list items, room + 1 => by simp [cut, height, cutAll_eq_self_iff items]

theorem Form.cutAll_eq_self_iff : (fs : List Form) → ∀ {room : Nat}, Form.cutAll room fs = fs ↔
    Form.heightAll fs ≤ room
  | [], _ => by simp [cutAll, heightAll]
  | f :: fs, room => by simp [cutAll, heightAll, cut_eq_self_iff f, cutAll_eq_self_iff fs]

end

namespace Utf8

variable {lead text rest name : Bytes}

theorem lt_of_endsAtom {b : UInt8} (h : Token.endsAtom b = true) : b < 0x80 := by
  simp only [Token.endsAtom, Byte.isBlank, Bool.or_eq_true, Bool.and_eq_true, decide_eq_true_eq,
    beq_iff_eq] at h
  rcases h with ((((⟨_, hle⟩ | rfl) | rfl) | rfl) | rfl) | rfl
  · exact UInt8.lt_of_le_of_lt hle (by decide)
  all_goals decide

/-- Well-formed text may be cut where an atom ends. -/
theorem isValid_append_stops (hr : Token.Stops rest) (h : isValid (name ++ rest) = true) :
    isValid name = true ∧ isValid rest = true := by
  cases rest with
  | nil => exact ⟨by simpa using h, by simp [isValid]⟩
  | cons b rest =>
    have hb : b < 0x80 := lt_of_endsAtom (hr b rfl)
    obtain ⟨hname, hrest⟩ := isValid_append_ascii hb h
    exact ⟨hname, (isValid_cons_of_ascii hb rest).trans hrest⟩

theorem isValid_of_layout (hl : Layout lead) (h : isValid (lead ++ text) = true) :
    isValid text = true := by
  induction hl with
  | nil => exact h
  | @blank b lead hb _ ih =>
    have hascii : b < 0x80 := lt_of_endsAtom (by simp [Token.endsAtom, hb])
    rw [List.cons_append, isValid_cons_of_ascii hascii] at h
    exact ih h
  | @comment body lead _ _ ih =>
    rw [List.cons_append, isValid_cons_of_ascii (by decide), List.append_assoc,
      List.cons_append] at h
    exact ih (isValid_append_ascii (by decide) h).2

end Utf8

theorem Mark.readableName (m : Mark) : ReadableName m.name := by
  cases m <;>
    exact ⟨⟨by decide +kernel, by decide +kernel, by decide +kernel⟩,
      by decide +kernel, by decide +kernel⟩

theorem Mark.isValid_text (m : Mark) {text : Bytes} (h : Utf8.isValid (m.text ++ text) = true) :
    Utf8.isValid text = true := by
  have hquote (b : UInt8) (hb : b < 0x80) {text : Bytes} (h : Utf8.isValid (b :: text) = true) :
      Utf8.isValid text = true := by
    rwa [Utf8.isValid_cons_of_ascii hb] at h
  cases m with
  | quote | template | unquote => exact hquote _ (by decide) h
  | splice => exact hquote _ (by decide) (hquote _ (by decide) h)

mutual

/-- A form that well-formed text spells is readable. -/
theorem Spelling.readable : {room : Nat} → {f : Form} → {text rest : Bytes} →
    Spelling room f text rest →
    Utf8.isValid (text ++ rest) = true → f.Readable ∧ Utf8.isValid rest = true
  | _, _, _, _, .num _ hr, hv => ⟨.num _, (Utf8.isValid_append_stops hr hv).2⟩
  | _, _, _, _, .sym h hn hr, hv => by
    obtain ⟨hname, hrest⟩ := Utf8.isValid_append_stops hr hv
    exact ⟨.sym ⟨h, hname, hn⟩, hrest⟩
  | _, _, _, _, .str hq, hv => by
    rw [List.cons_append, Utf8.isValid_cons_of_ascii (by decide), List.append_assoc] at hv
    obtain ⟨hbody, hrest⟩ := Utf8.isValid_append_ascii (by decide) hv
    exact ⟨.str hbody hq, hrest⟩
  | _, _, _, _, .list hs, hv => by
    rw [List.cons_append, Utf8.isValid_cons_of_ascii (by decide)] at hv
    obtain ⟨hfs, hrest⟩ := SpellingAll.readable hs hv
    exact ⟨.list hfs, hrest⟩
  | _, _, _, _, .mark m hl _ h, hv => by
    rw [List.append_assoc, List.append_assoc] at hv
    obtain ⟨hf, hrest⟩ := Spelling.readable h (Utf8.isValid_of_layout hl (m.isValid_text hv))
    refine ⟨.list ?_, hrest⟩
    intro g hg
    rcases List.mem_pair.mp hg with rfl | rfl
    · exact .sym m.readableName
    · exact hf

theorem SpellingAll.readable : {room : Nat} → {fs : List Form} → {text rest : Bytes} →
    SpellingAll room fs text rest →
    Utf8.isValid (text ++ rest) = true → (∀ f ∈ fs, f.Readable) ∧ Utf8.isValid rest = true
  | _, _, _, _, .nil hl, hv => by
    rw [List.append_assoc] at hv
    have hrest := Utf8.isValid_of_layout hl hv
    rw [List.singleton_append, Utf8.isValid_cons_of_ascii (by decide)] at hrest
    exact ⟨by simp, hrest⟩
  | _, _, _, _, .cons hl h hs, hv => by
    rw [List.append_assoc, List.append_assoc] at hv
    obtain ⟨hf, hothers⟩ := Spelling.readable h (Utf8.isValid_of_layout hl hv)
    obtain ⟨hfs, hrest⟩ := SpellingAll.readable hs hothers
    exact ⟨by simpa using ⟨hf, hfs⟩, hrest⟩

end

theorem Interp.StoredAll.exists_of_mem {s : Interp} : {fs : List Form} → {vs : List Value} →
    s.StoredAll fs vs → ∀ {w : Value},
    w ∈ vs → ∃ g ∈ fs, s.Stored g w
  | _, _, .cons h hs, w, hw => by
    rcases List.mem_cons.mp hw with rfl | hw
    · exact ⟨_, .head _, h⟩
    · obtain ⟨g, hg, hstored⟩ := hs.exists_of_mem hw
      exact ⟨g, .tail _ hg, hstored⟩

theorem Form.depth_le_depthAll {g : Form} {fs : List Form} (h : g ∈ fs) :
    g.depth ≤ Form.depthAll fs := by
  induction fs with
  | nil => cases h
  | cons f fs ih =>
    rw [Form.depthAll]
    rcases List.mem_cons.mp h with rfl | h
    · exact Nat.le_max_left _ _
    · exact (ih h).trans (Nat.le_max_right _ _)

namespace Interp.Stored

variable {s : Interp} {f : Form} {v w : Value}

/-- What is nested in a stored form is a form with fewer lists in it. -/
theorem nested {depth : Nat} (h : s.Stored f v) (hw : s.store.Nested v depth w) :
    ∃ g, s.Stored g w ∧ g.depth + depth ≤ f.depth := by
  induction hw with
  | self => exact ⟨f, h, Nat.le_refl _⟩
  | item _ ha hw ih =>
    obtain ⟨g, hg, hle⟩ := ih
    cases hg with
    | str ha' => cases ha.symm.trans ha'
    | list ha' hs =>
      cases ha.symm.trans ha'
      obtain ⟨g', hmem, hg'⟩ := hs.exists_of_mem hw
      have hdepth := Form.depth_le_depthAll hmem
      rw [Form.depth] at hle
      exact ⟨g', hg', by omega⟩

/-- A stored form has no cycle. -/
theorem not_on_path {a : Addr} {path : Std.TreeSet Nat} (h : s.Stored f (.ref a))
    (hp : LeadsTo s.store path (.ref a)) :
    path.contains a.index = false := by
  rw [Bool.eq_false_iff]
  intro ha
  -- an object on its own path would be the same form at two depths
  obtain ⟨depth, hd⟩ := hp _ ha
  obtain ⟨g, hg, hle⟩ := h.nested hd
  obtain rfl := hg.unique h
  omega

end Interp.Stored

theorem Printer.next_dots {rest : Bytes} (hr : Token.Stops rest) (line : Nat) :
    Token.next ⟨dots ++ rest, line⟩ = .token (.sym dots) ⟨rest, line⟩ :=
  Token.next_name ⟨by decide +kernel, by decide +kernel, by decide +kernel⟩
    (by decide +kernel) hr line

namespace Interp

variable {s : Interp} {f : Form} {v : Value} {fs : List Form} {vs : List Value} {room : Nat}
  {path : Std.TreeSet Nat}

theorem prints_dots (v : Value) (hv : v.addr?.isSome) :
    Prints s 0 path v (.sym Printer.dots) := by
  intro rest hr
  cases v with
  | num | sym => cases hv
  | ref a =>
    exact ⟨_, rfl, fun line => ⟨_, line, .sym _, .cons (Printer.next_dots hr line) (.nil _)⟩⟩

theorem StoredAll.prints
    (ih : ∀ v f, s.Stored f v → f.Readable → LeadsTo s.store path v →
      Prints s room path v (f.cut room))
    (h : s.StoredAll fs vs) (hfs : ∀ f ∈ fs, f.Readable) (hp : ∀ v ∈ vs, LeadsTo s.store path v) :
    List.Forall₂ (Prints s room path) vs (Form.cutAll room fs) := by
  induction vs generalizing fs with
  | nil =>
    cases h
    exact .nil
  | cons v vs ihs =>
    cases h with
    | cons h hs =>
      refine .cons (ih v _ h (hfs _ (.head _)) (hp v (.head _))) ?_
      exact ihs hs (fun f hf => hfs f (.tail _ hf)) fun w hw => hp w (.tail _ hw)

/-- A stored form is printed as what there is room for. -/
theorem Stored.prints (h : s.Stored f v) (hf : f.Readable) (hp : LeadsTo s.store path v) :
    Prints s room path v (f.cut room) := by
  induction room using Nat.strong_induction_on generalizing f v path with
  | _ room ih =>
    have hpath {a : Addr} (ha : v = .ref a) : path.contains a.index = false := by
      subst ha
      exact h.not_on_path hp
    cases h with
    | num k =>
      rw [Form.cut]
      exact .num k
    | @sym name x hx =>
      cases hf with
      | sym hn =>
        rw [← Bytes.ofPacked_toByteArray name] at hn ⊢
        rw [Form.cut]
        exact .sym hx hn
    | @str bytes a ha =>
      cases room with
      | zero => exact prints_dots _ rfl
      | succ room =>
        cases hf with
        | str hv hq =>
          rw [← Bytes.ofPacked_toByteArray bytes] at hv hq ⊢
          exact .str (hpath rfl) ha hv hq
    | @list fs a items ha hs =>
      cases room with
      | zero => exact prints_dots _ rfl
      | succ room =>
        cases hf with
        | list hfs =>
          have hitems := hs.prints (fun _ _ h hf hp => ih room (by omega) h hf hp) hfs
            fun _ hw => hp.item ha hw
          exact .list (hpath rfl) ha hitems

mutual

theorem Stored.sameData {s s' : Interp} (hcont : s.Continues s') :
    {f : Form} → {v w : Value} → s.Stored f v → s'.Stored f w →
    SameData s.store s'.store v w
  | _, _, _, .num k, .num _ => .num k
  | _, _, _, .str ha, .str hb => .str ha hb
  | _, _, _, @Stored.sym _ _ x hx, @Stored.sym _ _ y hy => by
    have hsame := (SymbolTable.find?_ofPacked (hcont.named.spelled hx)).symm.trans
      (SymbolTable.find?_ofPacked hy)
    rw [Option.some.inj hsame]
    exact .sym y
  | _, _, _, .list ha hs, .list hb ht => .list ha hb (StoredAll.sameData hcont hs ht)

theorem StoredAll.sameData {s s' : Interp} (hcont : s.Continues s') :
    {fs : List Form} → {vs ws : List Value} →
    s.StoredAll fs vs → s'.StoredAll fs ws → List.Forall₂ (SameData s.store s'.store) vs ws
  | _, _, _, .nil, .nil => .nil
  | _, _, _, .cons h hs, .cons h' hs' =>
    .cons (Stored.sameData hcont h h') (StoredAll.sameData hcont hs hs')

end

mutual

/-- The same data is the same form. -/
theorem Stored.of_sameData {s s' : Interp} (hcont : s.Continues s') :
    {f : Form} → {v w : Value} → s.Stored f v →
    SameData s.store s'.store v w → s'.Stored f w
  | _, _, _, .num k, hsame => by
    cases hsame
    exact .num k
  | _, _, _, .sym hx, hsame => by
    cases hsame
    exact .sym (hcont.named.spelled hx)
  | _, _, _, .str ha, hsame => by
    cases hsame with
    | str ha' hb =>
      cases ha.symm.trans ha'
      exact .str hb
    | list ha' => cases ha.symm.trans ha'
  | _, _, _, .list ha hs, hsame => by
    cases hsame with
    | str ha' => cases ha.symm.trans ha'
    | list ha' hb hsame =>
      cases ha.symm.trans ha'
      exact .list hb (StoredAll.of_sameData hcont hs hsame)

theorem StoredAll.of_sameData {s s' : Interp} (hcont : s.Continues s') :
    {fs : List Form} → {vs ws : List Value} →
    s.StoredAll fs vs → List.Forall₂ (SameData s.store s'.store) vs ws → s'.StoredAll fs ws
  | _, _, _, .nil, .nil => .nil
  | _, _, _, .cons h hs, .cons hv hvs =>
    .cons (Stored.of_sameData hcont h hv) (StoredAll.of_sameData hcont hs hvs)

end

/-- Stored forms are the same data exactly if they are the same form. -/
theorem Stored.sameData_iff {s s' : Interp} {f g : Form} {v w : Value} (hcont : s.Continues s')
    (h : s.Stored f v) (h' : s'.Stored g w) : SameData s.store s'.store v w ↔ f = g := by
  constructor
  · intro hsame
    exact (h.of_sameData hcont hsame).unique h'
  · intro heq
    subst heq
    exact h.sameData hcont h'

end Interp

/-- What is printed of a readable form is read back. -/
theorem readFrom_render {s : Interp} (hw : s.store.WellFormed) {f : Form} {v : Value}
    (h : s.Stored f v) (hf : f.Readable) :
    ∃ text w s' line, s.render? .canonical v = some text ∧
      Effect.readFrom (.own (.memory text)) .start s =
        some ((.value w, ⟨.ended, line⟩, .own (.memory [])), s') ∧
      s.Continues s' ∧ s'.Stored (f.cut s.config.maxDepth) w := by
  obtain ⟨text, htext, line, hread⟩ := (h.prints hf .empty).read
  have hstream : (Source.own (.memory text)).stream? s = some (.memory text) := rfl
  obtain ⟨r, s', hfrom, hcont, hreads, _⟩ :=
    Effect.readFrom_cursor hw hstream trivial rfl hread rfl
  cases hreads with
  | value hstored => exact ⟨text, _, s', line, htext, hfrom, hcont, hstored⟩

/-- A form that was read from well-formed text is read back from its text, but for the strings with
as many lists around them as the limit allows: the data is the same exactly if no string is so
deep. -/
theorem readFrom_render_cut {s s' : Interp} (hw : s.store.WellFormed) {source source' : Source}
    {mark mark' : Bookmark} {c : Cursor} (hat : source.At s mark c)
    (hutf : Utf8.isValid c.text = true) {v : Value}
    (h : Effect.readFrom source mark s = some ((.value v, mark', source'), s')) :
    ∃ f text w s'' line, s'.Stored f v ∧ f.depth ≤ s.config.maxDepth ∧
      s'.render? .canonical v = some text ∧
      Effect.readFrom (.own (.memory text)) .start s' =
        some ((.value w, ⟨.ended, line⟩, .own (.memory [])), s'') ∧
      s''.Stored (f.cut s.config.maxDepth) w ∧
      (SameData s'.store s''.store v w ↔ f.height ≤ s.config.maxDepth) := by
  obtain ⟨stream, hstream, hfinite, hmark⟩ := hat
  rcases hread : Reader.read s.config.maxDepth c with ⟨reading, d⟩
  rcases hafter : Bookmark.ofCursor d with ⟨mark₀, left⟩
  obtain ⟨r, s₀, hfrom, hcont, hreads, _⟩ :=
    Effect.readFrom_cursor hw hstream hfinite hmark hread hafter
  cases hfrom.symm.trans h
  cases hreads with
  | @value f _ hv =>
    obtain ⟨ts, hts, _⟩ := Reader.read_eq_form_iff.mp hread
    obtain ⟨lead, text, hlead, hs, htext, _⟩ := Reader.read_eq_form_iff_spelling.mp hread
    rw [htext] at hutf
    have hf : f.Readable := (hs.readable (Utf8.isValid_of_layout hlead hutf)).1
    obtain ⟨shown, w, s'', line, hshown, hagain, hcont', hw'⟩ :=
      readFrom_render hcont.wellFormed hv hf
    rw [hcont.config] at hw'
    refine ⟨f, shown, w, s'', line, hv, hts.depth_le, hshown, hagain, hw', ?_⟩
    rw [hv.sameData_iff hcont' hw', eq_comm, f.cut_eq_self_iff]

/-- A list in a list with a string that is not ASCII: the limit has room for all of it. -/
theorem readFrom_render_cut_deep :
    let s := Interp.bare ⟨2, 65536, false⟩ .empty 0
    let text := Bytes.ofString "('b \"é\")"
    ∃ v s' shown w s'' line, Effect.readFrom (.own (.memory text)) .start s =
        some ((.value v, ⟨.ended, 1⟩, .own (.memory [])), s') ∧
      s'.render? .canonical v = some shown ∧
      Effect.readFrom (.own (.memory shown)) .start s' =
        some ((.value w, ⟨.ended, line⟩, .own (.memory [])), s'') ∧
      SameData s'.store s''.store v w := by
  intro s text
  have hw : s.store.WellFormed := Store.WellFormed.empty.insert _
  have hstream : (Source.own (.memory text)).stream? s = some (.memory text) := rfl
  have hmark : Bookmark.ofCursor ⟨Byte.space :: text, 1⟩ = (.start, text) := rfl
  have hs : Spells 2 (.list [Mark.quote.wrap (.sym [98]), .str [195, 169]])
      (.opening :: ([.mark .quote, .sym [98], .str [195, 169]] ++ [.closing])) :=
    .list (.cons (.mark .quote (.sym _)) (.cons (.str _) .nil))
  have hl :
      Token.Lexes ⟨Byte.space :: text, 1⟩
          (.opening :: ([.mark .quote, .sym [98], .str [195, 169]] ++ [.closing])) ⟨[], 1⟩ :=
    .cons rfl (.cons rfl (.cons rfl (.cons rfl (.cons rfl (.nil _)))))
  obtain ⟨r, s', hfrom, _, hreads, _⟩ :=
    Effect.readFrom_cursor hw hstream trivial hmark (Reader.read_spells hs hl) rfl
  cases hreads with
  | @value _ v hv =>
    obtain ⟨f, shown, w, s'', line, hf, _, hshown, hagain, _, hsame⟩ :=
      readFrom_render_cut hw ⟨_, hstream, trivial, hmark⟩ (by decide +kernel) hfrom
    obtain rfl := hf.unique hv
    exact ⟨v, s', shown, w, s'', line, hfrom, hshown, hagain, hsame.mpr (by decide)⟩

/-- A string in a list, with room for one object: the string is printed as dots, and something else
is read back. -/
theorem string_at_limit_not_read_back :
    let s := Interp.bare ⟨1, 65536, false⟩ .empty 0
    let text := Bytes.ofString "(\"a\")"
    ∃ v s', Effect.readFrom (.own (.memory text)) .start s =
      some ((.value v, ⟨.ended, 1⟩, .own (.memory [])), s') ∧
      s'.render? .canonical v = some (Bytes.ofString "(...)") ∧
      ∃ w s'' line, Effect.readFrom (.own (.memory (Bytes.ofString "(...)"))) .start s' =
          some ((.value w, ⟨.ended, line⟩, .own (.memory [])), s'') ∧
        ¬ SameData s'.store s''.store v w := by
  intro s text
  have hw : s.store.WellFormed := Store.WellFormed.empty.insert _
  have hs : Spells 1 (.list [.str [97]]) (.opening :: ([.str [97]] ++ [.closing])) :=
    .list (.cons (.str _) .nil)
  have hl : Token.Lexes ⟨Byte.space :: text, 1⟩ (.opening :: ([.str [97]] ++ [.closing])) ⟨[], 1⟩ :=
    .cons rfl (.cons rfl (.cons rfl (.nil _)))
  have hread := Reader.read_spells hs hl
  obtain ⟨hgrows, hv⟩ := Interp.build_stored (.list [.str [97]]) hw
  have hf : Form.Readable (.list [.str [97]]) :=
    .list (by simpa using .str (by decide +kernel) (by decide))
  obtain ⟨shown, w, s'', line, hshown, hagain, hcont, hw'⟩ :=
    readFrom_render hgrows.wellFormed hv hf
  have htext : (s.build (.list [.str [97]])).2.render? .canonical (s.build (.list [.str [97]])).1 =
      some (Bytes.ofString "(...)") := by decide +kernel
  cases hshown.symm.trans htext
  refine ⟨_, _, ?_, htext, w, s'', line, hagain, ?_⟩
  · simp only [Effect.readFrom, InputStream.readForm, Reader.readAt, Bookmark.start]
    rw [show s.config.maxDepth = 1 from rfl, hread]
    rfl
  · rw [hv.sameData_iff hcont hw', eq_comm, Form.cut_eq_self_iff]
    decide

end HeapLisp
