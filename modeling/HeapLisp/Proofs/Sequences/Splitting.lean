import HeapLisp.Proofs.Bytes.Runs
import HeapLisp.Proofs.Sequences.Ordering
import HeapLisp.Proofs.Sequences.Slicing

namespace HeapLisp

variable {s s₁ s' : Interp} {v x y : Value} {text separators : Bytes} {texts : List Bytes}
  {values : List Value}

namespace Interp

/-- The value is a new string with the bytes. -/
def NewString (s s' : Interp) (v : Value) (text : Bytes) : Prop :=
  ∃ a, v = .ref a ∧ s.store.get? a = none ∧ s'.contents? v = some (.bytes text)

/-- Splitting one text at the bytes of another one makes a new list of new strings, and nothing else
changes. -/
def SplitsInto (s : Interp) (scope : Addr) (x y : Value) (texts : List Bytes) : Prop :=
  ∃ values a s', s.Makes (Eval.runPrimitive scope .split [x, y]) (.items values) a s' ∧
    List.Forall₂ (s.NewString s') values texts

/-- What is new after objects were added was not there before. -/
theorem Gains.get?_eq_none {a : Addr} (h : s.Gains s') (ha : s'.store.get? a = none) :
    s.store.get? a = none := by
  cases hget : s.store.get? a with
  | none => rfl
  | some o => cases ha.symm.trans (h.changed hget)

theorem NewString.later {v : Value} (hs : s.Gains s₁) (h : s₁.NewString s' v text) :
    s.NewString s' v text := by
  obtain ⟨a, hv, hnew, htext⟩ := h
  exact ⟨a, hv, hs.get?_eq_none hnew, htext⟩

theorem NewString.gains {s₂ : Interp} (h : s.NewString s₁ v text) (hs : s₁.Gains s₂) :
    s.NewString s₂ v text := by
  obtain ⟨a, hv, hnew, htext⟩ := h
  exact ⟨a, hv, hnew, hs.contents? htext⟩

theorem NewString.live (h : s.NewString s' v text) : v.Live s'.store := by
  obtain ⟨a, _, _, htext⟩ := h
  exact (owns_of_contents? htext).live

end Interp

namespace Eval

theorem finds_bytesArg (scope : Addr) (h : s.contents? v = some (.bytes text)) :
    Finds s (bytesArg scope v) text := by
  obtain ⟨packed, rfl, hpacked⟩ := exists_finds_stringArg scope h
  exact hpacked.andThen (.pure s _)

theorem exists_splitOnto (hs : s.store.Intact) (texts : List Bytes) (before : List Value) :
    ∃ values s₁, s.Gains s₁ ∧ List.Forall₂ (s.NewString s₁) values texts ∧
      ∀ {r s'}, (newList (before.reverse ++ values)).Ends s₁ r s' →
        (splitOnto before texts).Ends s r s' := by
  induction texts generalizing s before with
  | nil => exact ⟨[], s, .refl hs, .nil, fun h => by rwa [List.append_nil] at h⟩
  | cons text texts ih =>
    have hnew : s.store.get? s.store.next = none := hs.get?_next
    have hgains : s.Gains (s.alloc (.str text.toByteArray)).2 := .alloc hs (List.forall_mem_nil _)
    have hstr : s.NewString (s.alloc (.str text.toByteArray)).2 (.ref s.store.next) text :=
      ⟨_, rfl, hnew, Interp.contents?_object (c := .bytes text) (hs.get?_insert_next _)⟩
    obtain ⟨values, s₁, hgains₁, hvalues, hends⟩ := ih hgains.intact (.ref s.store.next :: before)
    refine ⟨.ref s.store.next :: values, s₁, hgains.trans hgains₁, .cons (hstr.gains hgains₁) ?_,
      fun h => ?_⟩
    · exact hvalues.imp fun v text h => h.later hgains
    · rw [← List.singleton_append, ← List.append_assoc, ← List.reverse_cons] at h
      exact .effect rfl (hends h)

end Eval

namespace Interp

theorem live_of_newStrings (h : List.Forall₂ (s.NewString s') values texts) :
    ∀ v ∈ values, v.Live s'.store := by
  have hboth := h.imp fun v text hv => And.intro hv.live hv
  exact ((List.forall₂_and_left _ _).mp hboth).1

theorem splitsInto_runs (hs : s.store.Intact) (hx : s.contents? x = some (.bytes text))
    (hy : s.contents? y = some (.bytes separators)) (scope : Addr) :
    s.SplitsInto scope x y (Bytes.runs separators.contains text) := by
  obtain ⟨values, s₁, hgains, hvalues, hends⟩ :=
    Eval.exists_splitOnto hs (Bytes.runs separators.contains text) []
  have hmakes : s₁.Makes (Eval.newList values) (.items values) s₁.store.next
      (s₁.alloc (.list values.toArray)).2 :=
    makes_of_ends hgains.intact (live_of_newStrings hvalues) (.effect rfl (.done _ _))
  have hsplit : (Eval.runPrimitive scope .split [x, y]).Ends s (.ok (.ref s₁.store.next))
      (s₁.alloc (.list values.toArray)).2 := by
    refine (Eval.finds_bytesArg scope hx).bind.mpr ((Eval.finds_bytesArg scope hy).bind.mpr ?_)
    exact hends (run_finished_iff.mp hmakes.run)
  refine ⟨values, s₁.store.next, _, ?_, hvalues.imp fun v text hv => hv.gains hmakes.gains⟩
  exact ⟨run_finished_iff.mpr hsplit, hgains.get?_eq_none hmakes.new, hmakes.contents,
    hgains.trans hmakes.gains⟩

/-- Splitting gives the maximal runs of a text between separators: none is empty or has a separator,
together they hold all other bytes of the text, and the text is made of them with separators around
them, at least one between two runs. No other runs are like that. If they are joined by one of the
separators, they are found again, whichever string or name holds the joined text. -/
theorem split_gives_maximal_runs (hs : s.store.Intact) (hx : s.contents? x = some (.bytes text))
    (hy : s.contents? y = some (.bytes separators)) (scope : Addr) :
    ∃ found, s.SplitsInto scope x y found ∧ (∀ run ∈ found, run ≠ [] ∧ ∀ b ∈ run, b ∉ separators) ∧
      found.flatten = text.filter (· ∉ separators) ∧
      Bytes.Interleaves separators.contains found text ∧
      (∀ other, Bytes.Interleaves separators.contains other text → other = found) ∧
      ∀ c ∈ separators, ∀ (s' : Interp) (scope' : Addr) (x' y' : Value), s'.store.Intact →
        s'.contents? x' = some (.bytes ([c].intercalate found)) →
        s'.contents? y' = some (.bytes separators) →
        s'.SplitsInto scope' x' y' found := by
  have hwhole := Bytes.interleaves_runs separators.contains text
  refine ⟨_, splitsInto_runs hs hx hy scope, ?_, ?_, hwhole, fun other h => h.eq_runs, ?_⟩
  · intro run hrun
    obtain ⟨hne, hclean⟩ := hwhole.of_mem run hrun
    exact ⟨hne, fun b hb => by simpa using hclean b hb⟩
  · rw [hwhole.flatten_eq]
    congr 1
    funext b
    simp
  · intro c hc s' scope' x' y' hs' hx' hy'
    have hagain := splitsInto_runs hs' hx' hy' scope'
    rwa [Bytes.runs_intercalate (by simpa using hc)] at hagain

/-- A comma before the first run, and a comma and a space between two of them; then the same runs
with only a space between them. -/
theorem split_gives_maximal_runs_again :
    let s₁ :=
      ((bare ⟨1, 65536, false⟩ .empty 0).alloc (.str (Bytes.ofString ",a, bc").toByteArray)).2
    let s₂ := (s₁.alloc (.str (Bytes.ofString ", ").toByteArray)).2
    let s := (s₂.alloc (.str (Bytes.ofString "a bc").toByteArray)).2
    s.SplitsInto ⟨0⟩ (.ref ⟨1⟩) (.ref ⟨2⟩) [[97], [98, 99]] ∧
    s.SplitsInto ⟨0⟩ (.ref ⟨3⟩) (.ref ⟨2⟩) [[97], [98, 99]] := by
  intro s₁ s₂ s
  have hs : s.store.Intact := by
    refine (((bare_sound ⟨1, 65536, false⟩ .empty 0).intact.insert ?_).insert ?_).insert ?_
    all_goals exact List.forall_mem_nil _
  have hseparators : s.contents? (.ref ⟨2⟩) = some (.bytes [44, 32]) := by decide +kernel
  have htext :
      s.contents? (.ref ⟨1⟩) =
          some (.bytes ([44] ++ ([97] ++ ([44, 32] ++ ([98, 99] ++ []))))) := by
    decide +kernel
  have hruns : Bytes.Interleaves (List.contains [44, 32]) [[97], [98, 99]]
      ([44] ++ ([97] ++ ([44, 32] ++ ([98, 99] ++ [])))) := by
    refine .cons (by simp) (by simp) (by simp) (fun _ => ⟨44, rfl, rfl⟩) ?_
    exact .cons (by simp) (by simp) (by simp) (absurd rfl) (.nil (by simp))
  obtain ⟨found, hsplits, _, _, _, hunique, hagain⟩ :=
    split_gives_maximal_runs hs htext hseparators ⟨0⟩
  obtain rfl := hunique _ hruns
  have hjoined : s.contents? (.ref ⟨3⟩) = some (.bytes ([32].intercalate [[97], [98, 99]])) := by
    decide +kernel
  exact ⟨hsplits, hagain 32 (by simp) s ⟨0⟩ (.ref ⟨3⟩) (.ref ⟨2⟩) hs hjoined hseparators⟩

end Interp

end HeapLisp
