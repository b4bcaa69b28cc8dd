import HeapLisp.Proofs.Sequences.Joining

namespace HeapLisp.Interp

variable {s : Interp} {scope : Addr} {args : List Value} {c : Contents}

/-- The laws of slicing and taking elements, for a sequence and its contents. -/
structure SliceLaws (scope : Addr) (s : Interp) (x : Value) (c : Contents) : Prop where
  length : ∃ fuel, s.run fuel (Eval.runPrimitive scope .length [x]) =
    .finished (.ok (.ofNat c.length)) s
  /-- There are slices between bounds inside, and no others. -/
  slice_settles : ∀ j k : Int64, s.Settles (Eval.runPrimitive scope .slice [.num j, .num k, x])
    (0 ≤ j.toInt ∧ j.toInt ≤ k.toInt ∧ k.toInt ≤ c.length) .index
  /-- There are elements at indices inside, and no others. -/
  elem_settles : ∀ k : Int64, s.Settles (Eval.runPrimitive scope .elem [.num k, x]) (0 ≤ k.toInt ∧
    k.toInt < c.length) .index
  slice : ∀ j k : Int64, 0 ≤ j.toInt → j.toInt ≤ k.toInt → k.toInt ≤ c.length →
    ((c.part j.toInt.toNat k.toInt.toNat).length : Int) = k.toInt - j.toInt ∧
      ∃ a s', s.Makes (Eval.runPrimitive scope .slice [.num j, .num k, x])
        (c.part j.toInt.toNat k.toInt.toNat) a s'
  elem : ∀ k : Int64, 0 ≤ k.toInt → k.toInt < c.length →
    ∃ v s', s.Picks (Eval.runPrimitive scope .elem [.num k, x]) k.toInt.toNat c v s'
  /-- Cut anywhere and joined again, a sequence has its contents. -/
  cut : ∀ k n : Int64, 0 ≤ k.toInt → k.toInt ≤ n.toInt → n.toInt = c.length →
    ∃ first a s₁ last b s₂ d s₃,
      s.Makes (Eval.runPrimitive scope .slice [.num 0, .num k, x]) first a s₁ ∧
      s₁.Makes (Eval.runPrimitive scope .slice [.num k, .num n, x]) last b s₂ ∧
      s₂.Makes (Eval.runPrimitive scope .cat [.ref a, .ref b]) c d s₃
  /-- A slice of a slice is a slice. -/
  nested : ∀ j k p q : Int64, 0 ≤ j.toInt → k.toInt ≤ c.length → 0 ≤ p.toInt → p.toInt ≤ q.toInt →
    q.toInt ≤ k.toInt - j.toInt →
    ∃ outer a s₁ inner b s₂ d s₃,
      s.Makes (Eval.runPrimitive scope .slice [.num j, .num k, x]) outer a s₁ ∧
      s₁.Makes (Eval.runPrimitive scope .slice [.num p, .num q, .ref a]) inner b s₂ ∧
      s₂.Makes (Eval.runPrimitive scope .slice [.num (j + p), .num (j + q), x]) inner d s₃
  /-- The elements of a slice are equal to those of the sequence. -/
  inner_elem : ∀ j k i : Int64, 0 ≤ j.toInt → k.toInt ≤ c.length → 0 ≤ i.toInt →
    i.toInt < k.toInt - j.toInt →
    ∃ part a s₁ v s₂ w s₃, s.Makes (Eval.runPrimitive scope .slice [.num j, .num k, x]) part a s₁ ∧
      s₁.Picks (Eval.runPrimitive scope .elem [.num i, .ref a]) i.toInt.toNat part v s₂ ∧
      s₂.Picks (Eval.runPrimitive scope .elem [.num (j + i), x]) (j + i).toInt.toNat c w s₃ ∧
      ∃ fuel, s₃.run fuel (Eval.runPrimitive scope .eql [v, w]) = .finished (.ok .t) s₃

/-- The laws of joining, for several values. -/
structure CatLaws (scope : Addr) (s : Interp) (args : List Value) : Prop where
  refuses_iff : s.Refuses (Eval.runPrimitive scope .cat args) .type ↔ s.Mismatched args
  ok_iff : (∃ fuel v s', s.run fuel (Eval.runPrimitive scope .cat args) = .finished (.ok v) s') ↔
    ¬s.Mismatched args
  joins : ∀ cs c, args.map s.contents? = cs.map some → Contents.Join cs c →
    ∃ a s', s.Makes (Eval.runPrimitive scope .cat args) c a s'
  /-- Joining some of them first makes no difference, so that joining is associative. -/
  groups : ∀ us vs ws cs c, args = us ++ vs ++ ws → vs ≠ [] → args.map s.contents? = cs.map some →
    Contents.Join cs c →
    ∃ part a s₁ b s₂ d s₃, s.Makes (Eval.runPrimitive scope .cat vs) part a s₁ ∧
      s₁.Makes (Eval.runPrimitive scope .cat (us ++ .ref a :: ws)) c b s₂ ∧
      s₂.Makes (Eval.runPrimitive scope .cat args) c d s₃

theorem toInt_add_of_le {j k p : Int64} (hj : 0 ≤ j.toInt) (hp : 0 ≤ p.toInt)
    (h : j.toInt + p.toInt ≤ k.toInt) :
    (j + p).toInt = j.toInt + p.toInt := by
  have hk := k.toInt_lt
  rw [Int64.toInt_add]
  exact Int.bmod_eq_of_le (by omega) (by omega)

theorem sliceLaws (hs : s.HasScope scope) {x : Value} (hx : s.contents? x = some c) :
    s.SliceLaws scope x c where
  length := by
    obtain ⟨ref, _, hends⟩ := Eval.exists_seqArg scope hx
    exact run_finished_iff.mpr (hends.mpr (.done _ s))
  slice_settles j k := by
    refine .of_cases (fun hinside => ?_) (slice_refuses hs hx)
    obtain ⟨a, s', hmakes⟩ := exists_slice_makes hs hx hinside
    obtain ⟨fuel, hrun⟩ := hmakes.run
    exact ⟨fuel, _, s', hrun⟩
  elem_settles k := by
    refine .of_cases (fun hinside => ?_) (elem_refuses hs hx)
    obtain ⟨v, s', hpicks⟩ := exists_elem_picks hs hx hinside
    obtain ⟨fuel, hrun⟩ := hpicks.exists_run
    exact ⟨fuel, v, s', hrun⟩
  slice j k hj hjk hk := by
    refine ⟨?_, exists_slice_makes hs hx ⟨hj, hjk, hk⟩⟩
    rw [Contents.length_part (by omega)]
    omega
  elem k hk hlt := exists_elem_picks hs hx ⟨hk, hlt⟩
  cut k n hk hkn hn := by
    obtain ⟨a, s₁, hfirst⟩ := exists_slice_makes (j := 0) (k := k) hs hx ⟨by decide, hk, by omega⟩
    have hs₁ := hfirst.gains.hasScope hs
    obtain ⟨b, s₂, hlast⟩ := exists_slice_makes (j := k) (k := n) hs₁ (hfirst.gains.contents? hx)
      ⟨hk, hkn, by omega⟩
    have hs₂ := hlast.gains.hasScope hs₁
    have hlength : n.toInt.toNat = c.length := by omega
    have hparts : [Value.ref a, .ref b].map s₂.contents? =
        [c.part 0 k.toInt.toNat, c.part k.toInt.toNat c.length].map some := by
      simp only [List.map_cons, List.map_nil, hlast.gains.contents? hfirst.contents,
        hlast.contents, hlength]
      rfl
    obtain ⟨d, s₃, hcat⟩ := exists_cat_makes hs₂ (List.cons_ne_nil _ _) hparts (c.join_parts _)
    exact ⟨_, a, s₁, _, b, s₂, d, s₃, hfirst, hlast, hcat⟩
  nested j k p q hj hk hp hpq hq := by
    have hjp : (j + p).toInt = j.toInt + p.toInt := toInt_add_of_le (k := k) hj hp (by omega)
    have hjq : (j + q).toInt = j.toInt + q.toInt :=
      toInt_add_of_le (k := k) hj (by omega) (by omega)
    have hpart : (c.part j.toInt.toNat k.toInt.toNat).part p.toInt.toNat q.toInt.toNat =
        c.part (j + p).toInt.toNat (j + q).toInt.toNat := by
      rw [Contents.part_part (by omega), hjp, hjq, Int.toNat_add hj hp, Int.toNat_add hj (by omega)]
    have hlength :=
      Contents.length_part (c := c) (m := j.toInt.toNat) (n := k.toInt.toNat) (by omega)
    obtain ⟨a, s₁, houter⟩ := exists_slice_makes (j := j) (k := k) hs hx ⟨hj, by omega, hk⟩
    have hs₁ := houter.gains.hasScope hs
    obtain ⟨b, s₂, hinner⟩ :=
      exists_slice_makes (j := p) (k := q) hs₁ houter.contents ⟨hp, hpq, by omega⟩
    rw [hpart] at hinner
    have hx₂ := hinner.gains.contents? (houter.gains.contents? hx)
    obtain ⟨d, s₃, hdirect⟩ :=
      exists_slice_makes (j := j + p) (k := j + q) (hinner.gains.hasScope hs₁) hx₂ (by omega)
    exact ⟨_, a, s₁, _, b, s₂, d, s₃, houter, hinner, hdirect⟩
  inner_elem j k i hj hk hi hlt := by
    have hji : (j + i).toInt = j.toInt + i.toInt := toInt_add_of_le (k := k) hj hi (by omega)
    have hlength :=
      Contents.length_part (c := c) (m := j.toInt.toNat) (n := k.toInt.toNat) (by omega)
    obtain ⟨a, s₁, hpart⟩ := exists_slice_makes (j := j) (k := k) hs hx ⟨hj, by omega, hk⟩
    have hs₁ := hpart.gains.hasScope hs
    obtain ⟨v, s₂, hv⟩ := exists_elem_picks (k := i) hs₁ hpart.contents ⟨hi, by omega⟩
    have hgains := hv.gains hs₁.intact
    have hx₂ := hgains.contents? (hpart.gains.contents? hx)
    obtain ⟨w, s₃, hw⟩ := exists_elem_picks (k := j + i) (hgains.hasScope hs₁) hx₂ (by omega)
    have hindex : (j + i).toInt.toNat = j.toInt.toNat + i.toInt.toNat := by
      rw [hji, Int.toNat_add hj hi]
    have hw' := hw
    rw [hindex] at hw'
    exact ⟨_, a, s₁, v, s₂, w, s₃, hpart, hv, hw, hv.exists_eql hw' (by omega) scope⟩

theorem catLaws (hs : s.HasScope scope) (hne : args ≠ []) (howns : ∀ v ∈ args, s.Owns v) :
    s.CatLaws scope args where
  refuses_iff := (cat_settles hs hne howns).refuses_iff.trans not_not
  ok_iff := (cat_settles hs hne howns).ok_iff
  joins cs c hcs hjoin := exists_cat_makes hs hne hcs hjoin
  groups us vs ws cs c hargs hvs hcs hjoin := by
    subst hargs
    have hsplit := hcs
    rw [List.map_append, List.map_append] at hsplit
    obtain ⟨cs₁₂, cs₃, rfl, h₁₂, h₃⟩ := List.map_eq_append_iff.mp hsplit.symm
    obtain ⟨cs₁, cs₂, rfl, h₁, h₂⟩ := List.map_eq_append_iff.mp h₁₂
    obtain ⟨d, hpart, hwhole⟩ := hjoin.group
    obtain ⟨a, s₁, hinner⟩ := exists_cat_makes hs hvs h₂.symm hpart
    have hs₁ := hinner.gains.hasScope hs
    have houter : (us ++ .ref a :: ws).map s₁.contents? = (cs₁ ++ d :: cs₃).map some := by
      rw [List.map_append, List.map_cons, hinner.gains.contents_all h₁.symm, hinner.contents,
        hinner.gains.contents_all h₃.symm, List.map_append, List.map_cons]
    obtain ⟨b, s₂, hgrouped⟩ := exists_cat_makes hs₁ (by simp) houter hwhole
    have hcs₂ := hgrouped.gains.contents_all (hinner.gains.contents_all hcs)
    obtain ⟨e, s₃, hdirect⟩ := exists_cat_makes (hgrouped.gains.hasScope hs₁) hne hcs₂ hjoin
    exact ⟨d, a, s₁, b, s₂, e, s₃, hinner, hgrouped, hdirect⟩

/-- Lists, strings and names follow the same laws of slicing, taking elements and joining. There are
slices and elements inside a sequence only, and sequences of one kind only can be joined; everything
else is refused. Cutting, joining and slicing again give the contents that they should, always in a
new object. -/
theorem sequences_follow_one_algebra (hs : s.HasScope scope) :
    (∀ x c, s.contents? x = some c → s.SliceLaws scope x c) ∧
      ∀ args : List Value, args ≠ [] → (∀ v ∈ args, s.Owns v) → s.CatLaws scope args :=
  ⟨fun _ _ hx => sliceLaws hs hx, fun _ hne howns => catLaws hs hne howns⟩

/-- The name of `nil` can be sliced, and joined with a string, but a list cannot. -/
theorem sequences_follow_one_algebra_name :
    let s₁ := ((bare ⟨1, 65536, false⟩ .empty 0).alloc (.list #[.num 5, .t])).2
    let s := (s₁.alloc (.str [97, 98].toByteArray)).2
    (∃ a s', s.Makes (Eval.runPrimitive ⟨0⟩ .slice [.num 1, .num 3, .nil])
      (.bytes (Bytes.ofString "il")) a s') ∧
      (∃ a s', s.Makes (Eval.runPrimitive ⟨0⟩ .cat [.ref ⟨2⟩, .nil])
        (.bytes (Bytes.ofString "abnil")) a s') ∧
      s.Refuses (Eval.runPrimitive ⟨0⟩ .cat [.ref ⟨2⟩, .ref ⟨1⟩]) .type := by
  intro s₁ s
  have hintact : s.store.Intact := by
    refine ((bare_sound ⟨1, 65536, false⟩ .empty 0).intact.insert ?_).insert ?_
    · decide
    · decide
  have hscope : s.HasScope ⟨0⟩ := ⟨hintact, .inside none, rfl⟩
  have hlist : s.contents? (.ref ⟨1⟩) = some (.items [.num 5, .t]) := contents?_object rfl
  have hstr : s.contents? (.ref ⟨2⟩) = some (.bytes [97, 98]) := contents?_object rfl
  have hnil : s.contents? .nil = some (.bytes (Bytes.ofString "nil")) := by decide +kernel
  obtain ⟨hslices, hcats⟩ := sequences_follow_one_algebra hscope
  refine ⟨?_, ?_, ?_⟩
  · exact ((hslices .nil _ hnil).slice 1 3 (by decide) (by decide) (by decide +kernel)).2
  · have howns : ∀ v ∈ [.ref ⟨2⟩, Value.nil], s.Owns v := by
      simp [owns_of_contents? hstr, owns_of_contents? hnil]
    have hargs : [.ref ⟨2⟩, Value.nil].map s.contents? =
        [Contents.bytes [97, 98], .bytes (Bytes.ofString "nil")].map some := by
      simp [hstr, hnil]
    exact (hcats _ (List.cons_ne_nil _ _) howns).joins _ _ hargs
      (.bytes [[97, 98], Bytes.ofString "nil"])
  · have howns : ∀ v ∈ [Value.ref ⟨2⟩, .ref ⟨1⟩], s.Owns v := by
      simp [owns_of_contents? hstr, owns_of_contents? hlist]
    have hmixed : s.Mismatched [.ref ⟨2⟩, .ref ⟨1⟩] :=
      .inr ⟨⟨.ref ⟨1⟩, by simp, _, hlist⟩, .ref ⟨2⟩, by simp, _, hstr⟩
    exact (hcats _ (List.cons_ne_nil _ _) howns).refuses_iff.mpr hmixed

end HeapLisp.Interp
