import HeapLisp.Proofs.Parameters.Rebinding
import HeapLisp.Proofs.Sequences.Partition

namespace HeapLisp

namespace Sequence

variable {a b i length : Nat} {n : Int}

theorem within?_eq_some (h : 0 ≤ n ∧ n ≤ length) : within? length n = some n.toNat := if_pos h

theorem within?_eq_none (h : ¬(0 ≤ n ∧ n ≤ length)) : within? length n = none := if_neg h

/-- For a length of 63 bits, counting back from behind the end does not leave the numbers of 64
bits. -/
theorem toInt_resolve {n : Int64} (hlength : length < 2 ^ 63) (hn : n < 0) :
    (Int64.ofNat length + n).toInt = length + n.toInt ∧
    (Int64.ofNat length + n + 1).toInt = resolve length n.toInt := by
  have hneg : n.toInt < 0 := Int64.lt_iff_toInt_lt.mp hn
  have hmin := n.le_toInt
  have hof : (Int64.ofNat length).toInt = length := Int64.toInt_ofNat_of_lt hlength
  -- The sum of a length and a negative number is less than the length, so there is room for one
  -- more.
  have hsum : (Int64.ofNat length + n).toInt = length + n.toInt := by
    rw [Int64.toInt_add, hof]
    exact Int.bmod_eq_of_le (by omega) (by omega)
  refine ⟨hsum, ?_⟩
  rw [resolve, if_pos hneg, Int64.toInt_add, hsum]
  exact Int.bmod_eq_of_le (by simp; omega) (by simp; omega)

/-- The indices between two bounds: upwards from the first one to the one before the second, or
downwards from the one before the first to the second. -/
structure Traverses (a b : Nat) (indices : List Nat) : Prop where
  upwards : a ≤ b → indices.length = b - a ∧ ∀ k < b - a, indices[k]? = some (a + k)
  downwards : b < a → indices.length = a - b ∧ ∀ k < a - b, indices[k]? = some (a - 1 - k)

theorem traverses_sweep (a b : Nat) : Traverses a b (sweep a b) where
  upwards h := by
    rw [sweep, if_pos h]
    refine ⟨List.length_range', ?_⟩
    intro k hk
    rw [List.getElem?_range' hk, Nat.one_mul]
  downwards h := by
    have hnot : ¬a ≤ b := by omega
    rw [sweep, if_neg hnot]
    refine ⟨by simp, ?_⟩
    intro k hk
    have hlast : a - b - 1 - k < a - b := by omega
    rw [List.getElem?_reverse (by simpa using hk), List.length_range', List.getElem?_range' hlast]
    congr 1
    omega

/-- Between the same bounds taken the other way round, the same indices are visited in reverse. -/
theorem sweep_swap (a b : Nat) : sweep b a = (sweep a b).reverse := by
  unfold sweep
  rcases Nat.lt_trichotomy a b with hlt | rfl | hlt
  · rw [if_neg (by omega), if_pos (by omega)]
  · simp
  · rw [if_pos (by omega), if_neg (by omega), List.reverse_reverse]

theorem lt_of_mem_sweep (ha : a ≤ length) (hb : b ≤ length) (h : i ∈ sweep a b) : i < length := by
  unfold sweep at h
  split_ifs at h
  · rw [List.mem_range'_1] at h
    omega
  · rw [List.mem_reverse, List.mem_range'_1] at h
    omega

end Sequence

namespace Interp

/-- The sequence that a value is: a list, a string, or a symbol by its name. -/
def seq? (s : Interp) : Value → Option SeqRef
  | .sym x => (s.symbols.spelling? x).map fun _ => .sym x
  | .ref a =>
    match s.store.get? a with
    | some (.list _) => some (.list a)
    | some (.str _) => some (.str a)
    | _ => none
  | .num _ => none

/-- The length of a sequence; one that is not there has none. -/
def seqLength (s : Interp) : SeqRef → Nat
  | .list a =>
    match s.store.get? a with
    | some (.list items) => items.size
    | _ => 0
  | .str a =>
    match s.store.get? a with
    | some (.str text) => text.size
    | _ => 0
  | .sym x =>
    match s.symbols.spelling? x with
    | some name => name.size
    | none => 0

/-- The least length of sequences, 0 if there are none. -/
def leastLength (s : Interp) (seqs : List SeqRef) : Nat := (seqs.map s.seqLength).min?.getD 0

theorem leastLength_le (s : Interp) {seqs : List SeqRef} {r : SeqRef} (h : r ∈ seqs) :
    s.leastLength seqs ≤ s.seqLength r := by
  have hmem : s.seqLength r ∈ seqs.map s.seqLength := List.mem_map_of_mem h
  unfold leastLength
  cases hmin : (seqs.map s.seqLength).min? with
  | none =>
    rw [List.min?_eq_none_iff] at hmin
    rw [hmin] at hmem
    cases hmem
  | some least => exact (List.min?_eq_some_iff.mp hmin).2 _ hmem

end Interp

namespace Eval

variable {α β : Type} {s s' : Interp} {scope b : Addr} {v : Value} {ref : SeqRef}
  {seqs : List SeqRef} {m n : Int64} {length : Nat}

namespace Finds

theorem listArg {items : Array Value} (h : s.store.get? b = some (.list items)) :
    Finds s (listArg scope (.ref b)) items.toList := by
  have hitems : Finds s (itemsOf (.ref b)) (some items.toList) := (fetch h).andThen (pure s _)
  exact hitems.andThen (pure s _)

theorem seqArg (h : s.seq? v = some ref) : Finds s (seqArg scope v) ref := by
  cases v with
  | num n => cases h
  | sym x =>
    obtain ⟨_, _, rfl⟩ := Option.map_eq_some_iff.mp h
    exact pure s _
  | ref a =>
    rw [Interp.seq?] at h
    split at h
    · cases h
      exact (fetch ‹_›).andThen (pure s _)
    · cases h
      exact (fetch ‹_›).andThen (pure s _)
    · cases h

theorem seqArgsOnto {values : List Value} (h : values.mapM s.seq? = some seqs)
    (before : List SeqRef) :
    Finds s (seqArgsOnto scope before values) (before.reverse ++ seqs) := by
  induction values generalizing before seqs with
  | nil =>
    rw [List.mapM_nil] at h
    cases h
    rw [List.append_nil]
    exact pure s _
  | cons v values ih =>
    rw [List.mapM_cons] at h
    obtain ⟨ref, href, h⟩ := Option.bind_eq_some_iff.mp h
    obtain ⟨refs, hrefs, h⟩ := Option.bind_eq_some_iff.mp h
    cases h
    have hrest := ih hrefs (ref :: before)
    rw [List.reverse_cons, List.append_assoc] at hrest
    exact (seqArg href).andThen hrest

theorem spelling {x : Symbol} {name : ByteArray} (hx : s.symbols.spelling? x = some name) :
    Finds s (seqText (.sym x)) name := by
  have hspelling : (Effect.spelling x).perform s = some (name, s) := by rw [Effect.perform, hx]
  exact perform hspelling

theorem seqLength (h : s.seq? v = some ref) : Finds s (seqLength ref) (s.seqLength ref) := by
  cases v with
  | num n => cases h
  | sym x =>
    obtain ⟨name, hx, rfl⟩ := Option.map_eq_some_iff.mp h
    rw [Interp.seqLength, hx]
    exact (spelling hx).andThen (pure s _)
  | ref a =>
    rw [Interp.seq?] at h
    split at h
    · rename_i items hget
      cases h
      rw [Interp.seqLength, hget]
      exact (itemsAt hget).andThen (pure s _)
    · rename_i text hget
      cases h
      rw [Interp.seqLength, hget]
      have htext : Finds s (seqText (.str a)) text := (fetch hget).andThen (pure s _)
      exact htext.andThen (pure s _)
    · cases h

theorem leastLength {values : List Value} (h : values.mapM s.seq? = some seqs)
    (least : Option Nat) :
    Finds s (leastLength least seqs) ((least.toList ++ seqs.map s.seqLength).min?.getD 0) := by
  induction values generalizing seqs least with
  | nil =>
    rw [List.mapM_nil] at h
    cases h
    cases least <;> exact pure s _
  | cons v values ih =>
    rw [List.mapM_cons] at h
    obtain ⟨ref, href, h⟩ := Option.bind_eq_some_iff.mp h
    obtain ⟨refs, hrefs, h⟩ := Option.bind_eq_some_iff.mp h
    cases h
    have hrest := ih hrefs (some (least.elim (s.seqLength ref) (min (s.seqLength ref))))
    have hmin :
      ((some (least.elim (s.seqLength ref) (min (s.seqLength ref)))).toList ++
        refs.map s.seqLength).min? =
        (least.toList ++ (ref :: refs).map s.seqLength).min? := by
      cases least with
      | none => rfl
      | some k =>
        rw [Option.elim_some, Nat.min_comm]
        rfl
    rw [hmin] at hrest
    exact (seqLength href).andThen hrest

end Finds

theorem exists_sweepArg_ends (hs : s.HasScope scope)
    (h : Sequence.within? length (Sequence.resolve length n.toInt) = none) :
    ∃ location, (sweepArg scope (.num n) length).Ends s (.error s.store.next)
      (s.alloc (.failure ⟨.outOfBounds, location, .num n⟩)).2 := by
  have harg : sweepArg scope (.num n) length = raise scope .outOfBounds (.num n) := by
    unfold sweepArg numArg
    dsimp only [Pure.pure, Bind.bind, Eval.bind]
    rw [h]
  rw [harg]
  exact exists_raise_ends hs.intact hs.live .outOfBounds (.num n)

section

variable {values : Array Value} (hlist : s.store.get? b = some (.list values))
  (hseqs : values.toList.mapM s.seq? = some seqs)

include hlist hseqs

/-- The sequences and their least length are found first, and then the bounds. -/
theorem ends_sweepArgs {r : Except Addr (List SeqRef × List Nat)} :
    (sweepArgs scope (.num m) (.num n) (.ref b)).Ends s r s' ↔
      (do
        let start ← sweepArg scope (.num m) (s.leastLength seqs)
        let finish ← sweepArg scope (.num n) (s.leastLength seqs)
        return (seqs, Sequence.sweep start finish)).Ends s r s' := by
  have hargs : Finds s (seqArgsOnto scope [] values.toList) seqs := Finds.seqArgsOnto hseqs []
  have hleast : Finds s (leastLength none seqs) (s.leastLength seqs) := Finds.leastLength hseqs none
  rw [sweepArgs, (Finds.listArg hlist).bind, hargs.bind, hleast.bind]

/-- Between the ends of the shortest sequence, the sequences and the indices are found. -/
theorem finds_sweepArgs {start finish : Nat}
    (hstart :
      Sequence.within? (s.leastLength seqs) (Sequence.resolve (s.leastLength seqs) m.toInt) =
        some start)
    (hfinish :
      Sequence.within? (s.leastLength seqs) (Sequence.resolve (s.leastLength seqs) n.toInt) =
        some finish) :
    Finds s (sweepArgs scope (.num m) (.num n) (.ref b)) (seqs, Sequence.sweep start finish) := by
  intro r s'
  rw [ends_sweepArgs hlist hseqs, (Finds.sweepArg hstart).bind, (Finds.sweepArg hfinish).bind]
  exact Finds.pure s _ r s'

/-- If the first bound is outside the shortest sequence, that is an error, and nothing else is
done. -/
theorem exists_sweepArgs_ends_start (hs : s.HasScope scope)
    (hm : Sequence.within? (s.leastLength seqs) (Sequence.resolve (s.leastLength seqs) m.toInt) =
      none) :
    ∃ location, (sweepArgs scope (.num m) (.num n) (.ref b)).Ends s (.error s.store.next)
      (s.alloc (.failure ⟨.outOfBounds, location, .num m⟩)).2 := by
  obtain ⟨location, hends⟩ := exists_sweepArg_ends hs hm
  refine ⟨location, (ends_sweepArgs hlist hseqs).mpr ?_⟩
  exact ends_bind.mpr (.inr ⟨_, hends, rfl⟩)

theorem exists_sweepArgs_ends_finish {start : Nat} (hs : s.HasScope scope)
    (hm : Sequence.within? (s.leastLength seqs) (Sequence.resolve (s.leastLength seqs) m.toInt) =
      some start)
    (hn : Sequence.within? (s.leastLength seqs) (Sequence.resolve (s.leastLength seqs) n.toInt) =
      none) :
    ∃ location, (sweepArgs scope (.num m) (.num n) (.ref b)).Ends s (.error s.store.next)
      (s.alloc (.failure ⟨.outOfBounds, location, .num n⟩)).2 := by
  obtain ⟨location, hends⟩ := exists_sweepArg_ends hs hn
  refine ⟨location, (ends_sweepArgs hlist hseqs).mpr ?_⟩
  rw [(Finds.sweepArg hm).bind]
  exact ends_bind.mpr (.inr ⟨_, hends, rfl⟩)

end

end Eval

end HeapLisp
