import HeapLisp.Proofs.Numbers.Arithmetic

namespace HeapLisp

namespace Arithmetic

variable {r : Int64 → Int64 → Bool} {R : Int → Int → Prop}

theorem chained_iff_isChain (hr : ∀ a b, r a b = true ↔ R a.toInt b.toInt) (ns : List Int64) :
    chained r ns = true ↔ (ns.map Int64.toInt).IsChain R := by
  fun_induction chained r ns with
  | case1 a b rest ih =>
    rw [Bool.and_eq_true, hr, ih]
    exact List.isChain_cons_cons.symm
  | case2 ns hne =>
    cases ns with
    | nil => simp
    | cons a rest =>
      cases rest with
      | nil => simp
      | cons b rest => exact absurd rfl (hne a b rest)

/-- Neighbours are enough: a transitive relation between them holds between all pairs. -/
theorem chained_iff_pairwise (hr : ∀ a b, r a b = true ↔ R a.toInt b.toInt)
    (htrans : ∀ {a b c}, R a b → R b c → R a c) (ns : List Int64) :
    chained r ns = true ↔ (ns.map Int64.toInt).Pairwise R := by
  have htransitive : Trans R R R := ⟨htrans⟩
  rw [chained_iff_isChain hr, List.isChain_iff_pairwise]

theorem distinct_iff_pairwise (ns : List Int64) :
    distinct ns = true ↔ (ns.map Int64.toInt).Pairwise (· ≠ ·) := by
  rw [distinct_iff, List.pairwise_map]
  simp only [ne_eq, Int64.toInt_inj]
  exact Iff.rfl

end Arithmetic

/-- The relation that a comparison asks for. -/
def Primitive.relation? : Primitive → Option (Int → Int → Prop)
  | eq => .some (· = ·)
  | ne => .some (· ≠ ·)
  | lt => .some (· < ·)
  | gt => .some (· > ·)
  | le => .some (· ≤ ·)
  | ge => .some (· ≥ ·)
  | _ => none

namespace Eval

theorem mapM_asNum_of_not_num {args : List Value} (h : ∃ v ∈ args, ∀ n, v ≠ .num n) :
    ∃ v ∈ args, args.mapM Value.asNum = .error v := by
  induction args with
  | nil => simp at h
  | cons v args ih =>
    rw [List.mapM_cons]
    cases v with
    | sym x => exact ⟨_, .head _, rfl⟩
    | ref a => exact ⟨_, .head _, rfl⟩
    | num n =>
      have hrest : ∃ w ∈ args, ∀ n, w ≠ .num n := by simpa using h
      obtain ⟨w, hw, herror⟩ := ih hrest
      refine ⟨w, .tail _ hw, ?_⟩
      rw [herror]
      rfl

theorem exists_numArgs_eq_raise (scope : Addr) {args : List Value}
    (h : ∃ v ∈ args, ∀ n, v ≠ .num n) :
    ∃ v ∈ args, numArgs scope args = raise scope .notNumber v := by
  obtain ⟨v, hv, herror⟩ := mapM_asNum_of_not_num h
  exact ⟨v, hv, by rw [numArgs, herror]⟩

end Eval

namespace Interp

variable {s : Interp} {scope : Addr} {x y : Eval Value} {P Q : Prop} {R : Int → Int → Prop}
  {ms ns : List Int64}

/-- The evaluation tells whether something holds, and nothing changes. -/
def Decides (s : Interp) (x : Eval Value) (P : Prop) : Prop :=
  ∃ b, s.Answers x (.ofBool b) ∧ (b = true ↔ P)

theorem Decides.exists_answers (hx : s.Decides x P) (hy : s.Decides y Q) (h : P ↔ Q) :
    ∃ v, s.Answers x v ∧ s.Answers y v := by
  obtain ⟨b, hb, hP⟩ := hx
  obtain ⟨c, hc, hQ⟩ := hy
  have hbc : c = b := by
    rw [Bool.eq_iff_iff, hP, hQ, h]
  exact ⟨_, hb, hbc ▸ hc⟩

theorem compareNums_decides (s : Interp) (scope : Addr) (r : Int64 → Int64 → Bool)
    (hr : ∀ a b, r a b = true ↔ R a.toInt b.toInt) (htrans : ∀ {a b c}, R a b → R b c → R a c)
    (n : Int64) (ns : List Int64) :
    s.Decides (Eval.compareNums scope ((n :: ns).map .num) r)
      (((n :: ns).map Int64.toInt).Pairwise R) := by
  refine ⟨Arithmetic.chained r (n :: ns), answers_of_eq_done ?_,
    Arithmetic.chained_iff_pairwise hr htrans _⟩
  rw [Eval.compareNums, Eval.numArgs_nums]
  rfl

theorem ne_decides (s : Interp) (scope : Addr) (n : Int64) (ns : List Int64) :
    s.Decides (Eval.runPrimitive scope .ne ((n :: ns).map .num))
      (((n :: ns).map Int64.toInt).Pairwise (· ≠ ·)) := by
  have hnumbers : Eval.Finds s (Eval.numArgs scope ((n :: ns).map .num)) (n :: ns) := by
    rw [Eval.numArgs_nums]
    exact .pure s _
  exact ⟨_, run_finished_iff.mpr (hnumbers.bind.mpr (.done _ s)),
    Arithmetic.distinct_iff_pairwise (n :: ns)⟩

/-- A comparison of one or more numbers holds if all pairs are related. -/
theorem comparison_decides (s : Interp) (scope : Addr) {p : Primitive} (hp : p.relation? = some R)
    (hne : ns ≠ []) :
    s.Decides (Eval.runPrimitive scope p (ns.map .num)) ((ns.map Int64.toInt).Pairwise R) := by
  obtain ⟨n, ns, rfl⟩ := List.exists_cons_of_ne_nil hne
  cases p with
  | eq =>
    cases hp
    refine compareNums_decides (R := (· = ·)) s scope (· == ·) ?_ Eq.trans n ns
    simp [Int64.toInt_inj]
  | ne =>
    cases hp
    exact ne_decides s scope n ns
  | lt =>
    cases hp
    refine compareNums_decides (R := (· < ·)) s scope (· < ·) ?_ Int.lt_trans n ns
    simp [Int64.lt_iff_toInt_lt]
  | gt =>
    cases hp
    refine compareNums_decides (R := (· > ·)) s scope (· > ·) ?_
      (fun h h' => Int.lt_trans h' h) n ns
    simp [Int64.lt_iff_toInt_lt]
  | le =>
    cases hp
    refine compareNums_decides (R := (· ≤ ·)) s scope (· ≤ ·) ?_ Int.le_trans n ns
    simp [Int64.le_iff_toInt_le]
  | ge =>
    cases hp
    refine compareNums_decides (R := (· ≥ ·)) s scope (· ≥ ·) ?_
      (fun h h' => Int.le_trans h' h) n ns
    simp [Int64.le_iff_toInt_le]
  | _ => cases hp

/-- A symmetric relation does not depend on the order of the numbers. -/
theorem exists_answers_of_perm (s : Interp) (scope : Addr) {p : Primitive}
    (hp : p.relation? = some R) (hsymm : ∀ {a b}, R a b → R b a) (hne : ns ≠ [])
    (hms : ms.Perm ns) :
    ∃ v, s.Answers (Eval.runPrimitive scope p (ms.map .num)) v ∧
      s.Answers (Eval.runPrimitive scope p (ns.map .num)) v := by
  have hne' : ms ≠ [] := by
    rintro rfl
    exact hne hms.symm.eq_nil
  apply (comparison_decides s scope hp hne').exists_answers (comparison_decides s scope hp hne)
  exact (hms.map Int64.toInt).pairwise_iff hsymm

theorem exists_answers_of_reverse (s : Interp) (scope : Addr) (hne : ns ≠ []) :
    ∃ v, s.Answers (Eval.runPrimitive scope .lt (ns.map .num)) v ∧
      s.Answers (Eval.runPrimitive scope .gt (ns.reverse.map .num)) v := by
  have hlt := comparison_decides s scope (p := .lt) rfl hne
  have hgt := comparison_decides s scope (p := .gt) rfl (List.reverse_ne_nil_iff.mpr hne)
  apply hlt.exists_answers hgt
  rw [List.map_reverse, List.pairwise_reverse]

theorem comparison_refuses (hs : s.HasScope scope) {p : Primitive} (hp : p.relation? = some R)
    {args : List Value} (hlive : ∀ v ∈ args, v.Live s.store) (h : ∃ v ∈ args, ∀ n, v ≠ .num n) :
    s.Refuses (Eval.runPrimitive scope p args) .type := by
  obtain ⟨v, hv, hraise⟩ := Eval.exists_numArgs_eq_raise scope h
  have hends {f : List Int64 → Eval Value} {e : Addr} {s' : Interp}
      (hends : (Eval.raise scope .notNumber v : Eval (List Int64)).Ends s (.error e) s') :
      (Eval.numArgs scope args >>= f).Ends s (.error e) s' := by
    rw [hraise]
    exact Eval.ends_bind.mpr (.inr ⟨e, hends, rfl⟩)
  refine refuses_of_raise (α := List Int64) .notNumber (.refl hs.intact) hs (hlive v hv) ?_
  obtain ⟨first, rest, rfl⟩ := List.exists_cons_of_ne_nil (List.ne_nil_of_mem hv)
  cases p with
  | eq | ne | lt | gt | le | ge => exact hends
  | _ => cases hp

/-- Comparisons relate all pairs. For one or more numbers a comparison tells whether its relation
holds between each number and each later one; an argument that is no number is an error about the
type, wherever it stands. Whether all numbers are equal, or no two are, does not depend on their
order, and numbers increase if they decrease backwards. -/
theorem comparisons_relate_all_pairs (hs : s.HasScope scope) :
    (∀ p R, p.relation? = some R →
      (∀ ns : List Int64, ns ≠ [] →
        s.Decides (Eval.runPrimitive scope p (ns.map .num)) ((ns.map Int64.toInt).Pairwise R)) ∧
      ∀ args : List Value, (∀ v ∈ args, v.Live s.store) → (∃ v ∈ args, ∀ n, v ≠ .num n) →
        s.Refuses (Eval.runPrimitive scope p args) .type) ∧
    ∀ ns : List Int64, ns ≠ [] →
      (∀ ms : List Int64, ms.Perm ns → ∀ p ∈ [Primitive.eq, Primitive.ne],
        ∃ v, s.Answers (Eval.runPrimitive scope p (ms.map .num)) v ∧
          s.Answers (Eval.runPrimitive scope p (ns.map .num)) v) ∧
      ∃ v, s.Answers (Eval.runPrimitive scope .lt (ns.map .num)) v ∧
        s.Answers (Eval.runPrimitive scope .gt (ns.reverse.map .num)) v := by
  refine ⟨fun p R hp => ⟨fun ns hne => ?_, fun args hlive h => ?_⟩, fun ns hne =>
    ⟨fun ms hms p hp => ?_, ?_⟩⟩
  · exact comparison_decides s scope hp hne
  · exact comparison_refuses hs hp hlive h
  · simp only [List.mem_cons, List.not_mem_nil, or_false] at hp
    rcases hp with rfl | rfl
    · exact exists_answers_of_perm s scope rfl Eq.symm hne hms
    · exact exists_answers_of_perm s scope rfl Ne.symm hne hms
  · exact exists_answers_of_reverse s scope hne

/-- Of 2, 1 and 2 two are equal, which are no neighbours; and a string after a pair that does not
increase is still an error. -/
theorem comparisons_relate_all_pairs_apart :
    let s := ((bare ⟨1, 65536, false⟩ .empty 0).alloc (.str [97].toByteArray)).2
    s.Answers (Eval.runPrimitive ⟨0⟩ .ne [.num 2, .num 1, .num 2]) .nil ∧
      s.Refuses (Eval.runPrimitive ⟨0⟩ .lt [.num 2, .num 1, .ref ⟨1⟩]) .type := by
  intro s
  have hintact : s.store.Intact := (bare_sound ⟨1, 65536, false⟩ .empty 0).intact.insert (by decide)
  have hscope : s.HasScope ⟨0⟩ := ⟨hintact, .inside none, rfl⟩
  have hstr : s.contents? (.ref ⟨1⟩) = some (.bytes [97]) := contents?_object rfl
  obtain ⟨hlaws, _⟩ := comparisons_relate_all_pairs hscope
  constructor
  · obtain ⟨b, hb, hiff⟩ := (hlaws .ne _ rfl).1 [2, 1, 2] (by decide)
    have hfalse : b = false := by
      rw [← Bool.not_eq_true, hiff]
      decide
    rw [hfalse] at hb
    exact hb
  · refine (hlaws .lt _ rfl).2 [.num 2, .num 1, .ref ⟨1⟩] ?_ ⟨.ref ⟨1⟩, by simp, by simp⟩
    simp [Value.live_num, (owns_of_contents? hstr).live]

end Interp

end HeapLisp
