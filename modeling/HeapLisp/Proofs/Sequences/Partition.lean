import HeapLisp.Proofs.Host.Soundness
import HeapLisp.Proofs.Machine.Endings
import HeapLisp.Proofs.Sequences.Rearranging

namespace HeapLisp

open Sequence

variable {s s' : Interp} {scope a : Addr} {f pivot item : Value} {items now : Array Value}
  {start finish store i j : Nat} {m n : Int64} {Inv : Interp → Prop} {done : List (Value × Int64)}
    {below above : List Value}

/-- Exchanges two items of a list. -/
def Interp.exchange (s : Interp) (a : Addr) (i j : Nat) : Interp :=
  { s with store := s.store.modify a (Object.mapItems fun items => swap items i j) }

theorem Interp.get?_exchange (h : s.store.get? a = some (.list now)) (i j : Nat) :
    (s.exchange a i j).store.get? a = some (.list (swap now i j)) := by
  simp [exchange, h, Object.mapItems]

namespace Eval

variable {α β : Type}

theorem Finds.itemsAt (h : s.store.get? a = some (.list now)) : Finds s (itemsAt a) now :=
  (Finds.fetch h).andThen (.pure s now)

theorem ends_itemsAt_bind {g : Array Value → Eval β} {r : Except Addr β}
    (h : s.store.get? a = some (.list now)) :
    (itemsAt a >>= g).Ends s r s' ↔ (g now).Ends s r s' := (Finds.itemsAt h).bind

theorem ends_listRefArg_bind {g : Addr → Eval β} {r : Except Addr β}
    (h : s.store.get? a = some (.list now)) :
    (listRefArg scope (.ref a) >>= g).Ends s r s' ↔ (g a).Ends s r s' := by
  have harg : Finds s (listRefArg scope (.ref a)) a := (Finds.fetch h).andThen (.pure s a)
  exact harg.bind

theorem Finds.sweepArg {length : Nat} (h : within? length (resolve length n.toInt) = some i) :
    Finds s (sweepArg scope (.num n) length) i := by
  have harg : Eval.sweepArg scope (.num n) length = .done i := by
    unfold Eval.sweepArg numArg
    dsimp only [Pure.pure, Bind.bind, Eval.bind]
    rw [h]
  rw [harg]
  exact .pure s i

theorem ends_sweepArg_bind {g : Nat → Eval β} {length : Nat} {r : Except Addr β}
    (h : within? length (resolve length n.toInt) = some i) :
    (sweepArg scope (.num n) length >>= g).Ends s r s' ↔ (g i).Ends s r s' :=
  (Finds.sweepArg h).bind

theorem ends_swapItems_bind {g : Unit → Eval β} {r : Except Addr β}
    (h : s.store.get? a = some (.list now)) :
    (swapItems a i j >>= g).Ends s r s' ↔ (g ()).Ends (s.exchange a i j) r s' := by
  have hupdate : (Effect.updateItems a fun items => swap items i j).perform s =
      some ((), s.exchange a i j) := by
    rw [Effect.perform, if_pos (Store.contains_iff.mpr ⟨_, h⟩)]
    rfl
  constructor
  · intro hends
    cases hends with
    | effect he hg =>
      cases hupdate.symm.trans he
      exact hg
  · intro hg
    exact .effect hupdate hg

theorem ends_partitionFrom_cons {rest : List Nat} {r : Except Addr Nat}
    (h : s.store.get? a = some (.list now)) (hitem : now[i]? = some item) :
    (partitionFrom scope f a pivot store (i :: rest)).Ends s r s' ↔
      (apply scope f [item, pivot] >>= fun order => place scope a store i order >>= fun store =>
        partitionFrom scope f a pivot store rest).Ends s r s' := by
  rw [partitionFrom, ends_itemsAt_bind h, elem?, hitem]

theorem ends_place_num_bind {g : Nat → Eval β} {r : Except Addr β}
    (h : s.store.get? a = some (.list now)) :
    (place scope a store i (.num n) >>= g).Ends s r s' ↔
      if n < 0 then (g (store + 1)).Ends (s.exchange a (store + 1) i) r s'
      else (g store).Ends s r s' := by
  have hplace : place scope a store i (.num n) =
      if n < 0 then do
        swapItems a (store + 1) i
        return store + 1
      else return store := rfl
  rw [hplace]
  by_cases hn : n < 0
  · rw [if_pos hn, if_pos hn]
    exact ends_swapItems_bind h
  · rw [if_neg hn, if_neg hn]
    rfl

/-- What is no number is an error, and nothing else. -/
theorem Ends.of_numArg {v : Value} {r : Except Addr Int64} (h : (numArg scope v).Ends s r s') :
    (∃ n, v = .num n) ∨ ∃ e o, r = .error e ∧ s' = (s.alloc o).2 := by
  have hraise (h : (raise scope .notNumber v).Ends s r s') :
      ∃ e o, r = .error e ∧ s' = (s.alloc o).2 := by
    obtain ⟨location, hr, hs⟩ := h.of_raise
    exact ⟨_, _, hr, hs⟩
  cases v with
  | num n => exact .inl ⟨n, rfl⟩
  | sym | ref => exact .inr (hraise h)

theorem Ends.of_place {r : Except Addr Nat} {order : Value}
    (h : (place scope a store i order).Ends s r s') :
    (∃ n, order = .num n) ∨ ∃ e o, r = .error e ∧ s' = (s.alloc o).2 := by
  obtain ⟨n, s₁, hnum, _⟩ | ⟨e, hnum, rfl⟩ := ends_bind.mp h
  · obtain hn | ⟨e, o, hr, _⟩ := hnum.of_numArg
    · exact .inl hn
    · cases hr
  · obtain hn | ⟨_, o, _, hs⟩ := hnum.of_numArg
    · exact .inl hn
    · exact .inr ⟨e, o, rfl, hs⟩

theorem Ends.of_place_bind {g : Nat → Eval β} {r : Except Addr β} {order : Value}
    (h : (place scope a store i order >>= g).Ends s r s') :
    (∃ n, order = .num n) ∨ ∃ e o, r = .error e ∧ s' = (s.alloc o).2 := by
  obtain ⟨store', s₁, hplace, _⟩ | ⟨e, hplace, rfl⟩ := ends_bind.mp h
  · obtain hn | ⟨e, o, hr, _⟩ := hplace.of_place
    · exact .inl hn
    · cases hr
  · obtain hn | ⟨_, o, _, hs⟩ := hplace.of_place
    · exact .inl hn
    · exact .inr ⟨e, o, rfl, hs⟩

end Eval

/-- Calls of a comparison one after the other, each of which gives a number for an item and the
pivot, with exchanges in the list at `a` between them. -/
inductive Compares (scope : Addr) (f : Value) (a : Addr) (pivot : Value) :
    List (Value × Int64) → Interp → Interp → Prop where
  | nil (s : Interp) : Compares scope f a pivot [] s s
  | call {item : Value} {n : Int64} {results : List (Value × Int64)} {s s₁ s' : Interp}
    (h : (Eval.apply scope f [item, pivot]).Ends s (.ok (.num n)) s₁)
    (hrest : Compares scope f a pivot results s₁ s') :
    Compares scope f a pivot ((item, n) :: results) s s'
  | exchange {results : List (Value × Int64)} {s s' : Interp} (i j : Nat)
    (hrest : Compares scope f a pivot results (s.exchange a i j) s') :
    Compares scope f a pivot results s s'

theorem Compares.exchange_last {results : List (Value × Int64)}
    (h : Compares scope f a pivot results s s') (i j : Nat) :
    Compares scope f a pivot results s (s'.exchange a i j) := by
  induction h with
  | nil s => exact .exchange i j (.nil _)
  | call hcall _ ih => exact .call hcall ih
  | exchange i' j' _ ih => exact .exchange i' j' ih

/-- Where `Inv` holds, the comparison of an item leaves the list at `a` alone, however it ends; and
`Inv` holds again then, and after every exchange in the list. -/
structure Comparison (scope : Addr) (f : Value) (a : Addr) (pivot : Value) (items : List Value)
    (Inv : Interp → Prop) : Prop where
  wellFormed : ∀ {s}, Inv s → s.store.WellFormed
  call : ∀ {s item r s'}, Inv s → item ∈ items → (Eval.apply scope f [item, pivot]).Ends s r s' →
    Inv s' ∧ s'.store.get? a = s.store.get? a
  exchange : ∀ {s} (i j : Nat), Inv s → Inv (s.exchange a i j)

/-- A partition under way: `done` are the items compared so far with their orders, and the last of
those that are less is at `store`. -/
structure Underway (Inv : Interp → Prop) (a : Addr) (items : Array Value) (start : Nat)
    (done : List (Value × Int64)) (store : Nat) (s : Interp) : Prop where
  inv : Inv s
  divided : ∃ now below above, s.store.get? a = some (.list now) ∧
    Divides items start done below above now ∧
    store = start + below.length

namespace Underway

theorem start_eq (hs : Inv s) (h : s.store.get? a = some (.list items)) (start : Nat) :
    Underway Inv a items start [] start s where
  inv := hs
  divided := ⟨items, [], [], h, .zero items start, rfl⟩

theorem exists_list (h : Underway Inv a items start done store s)
    (hlen : start + 1 + done.length ≤ finish) (hsize : finish ≤ items.size) :
    ∃ now, s.store.get? a = some (.list now) ∧ Rearranged start finish items now := by
  obtain ⟨now, below, above, hlist, hdiv, _⟩ := h.divided
  exact ⟨now, hlist, (hdiv.rearranged (by omega)).widen (by omega) hlen⟩

/-- The next item is compared and put where its order says, and the partition goes on from there. -/
theorem step {compared : List Value} {s₁ : Interp} (h : Underway Inv a items start done store s)
    (hf : Comparison scope f a pivot compared Inv) (hmem : item ∈ compared)
    (hitem : items[start + 1 + done.length]? = some item)
    (hcall : (Eval.apply scope f [item, pivot]).Ends s (.ok (.num n)) s₁) :
    ∃ store₂ s₂, Underway Inv a items start (done ++ [(item, n)]) store₂ s₂ ∧
      (∀ results s', Compares scope f a pivot results s₂ s' →
        Compares scope f a pivot ((item, n) :: results) s s') ∧
      ∀ rest r s', (Eval.place scope a store (start + 1 + done.length) (.num n) >>= fun store =>
          Eval.partitionFrom scope f a pivot store rest).Ends s₁ r s' ↔
        (Eval.partitionFrom scope f a pivot store₂ rest).Ends s₂ r s' := by
  obtain ⟨now, below, above, hlist, hdiv, rfl⟩ := h.divided
  obtain ⟨hinv, hkept⟩ := hf.call h.inv hmem hcall
  rw [hlist] at hkept
  by_cases hn : n < 0
  · obtain ⟨above', hdiv'⟩ := hdiv.earlier hitem hn
    refine ⟨_, _, ⟨hf.exchange _ _ hinv, _, _, _, Interp.get?_exchange hkept _ _, hdiv',
      rfl⟩, ?_, ?_⟩
    · intro results s' hrest
      exact .call hcall (.exchange _ _ hrest)
    · intro rest r s'
      rw [Eval.ends_place_num_bind hkept, if_pos hn, List.length_append, List.length_singleton,
        Nat.add_assoc]
  · refine ⟨_, s₁, ⟨hinv, now, below, _, hkept, hdiv.later hitem hn, rfl⟩, ?_, ?_⟩
    · intro results s' hrest
      exact .call hcall hrest
    · intro rest r s'
      rw [Eval.ends_place_num_bind hkept, if_neg hn]

end Underway

namespace Comparison

variable {compared : List Value} {k : Nat}

/-- How a partition goes on to its end: an error leaves the items rearranged; otherwise all items
are compared, and nothing is done but that and exchanges. -/
theorem partitionFrom_ends {r : Except Addr Nat} (hf : Comparison scope f a pivot compared Inv)
    (hcompared : ∀ i item, start < i → i < finish → items[i]? = some item → item ∈ compared)
    (hlen : start + 1 + done.length + k = finish) (hsize : finish ≤ items.size)
    (h : Underway Inv a items start done store s)
    (hends : (Eval.partitionFrom scope f a pivot store
      (List.range' (start + 1 + done.length) k)).Ends s r s') :
    (∃ e now, r = .error e ∧ s'.store.get? a = some (.list now) ∧
      Rearranged start finish items now) ∨
    ∃ rest store', r = .ok store' ∧ rest.length = k ∧
      Underway Inv a items start (done ++ rest) store' s' ∧
      Compares scope f a pivot rest s s' := by
  induction k generalizing s done store with
  | zero =>
    cases hends
    exact .inr ⟨[], store, rfl, rfl, by rwa [List.append_nil], .nil _⟩
  | succ k ih =>
    obtain ⟨item, hitem⟩ : ∃ item, items[start + 1 + done.length]? = some item :=
      ⟨_, Array.getElem?_eq_getElem (by omega)⟩
    have hmem := hcompared _ item (by omega) (by omega) hitem
    obtain ⟨now, below, above, hlist, hdiv, _⟩ := h.divided
    obtain ⟨now', hlist', hrearranged⟩ := h.exists_list (by omega) hsize
    rw [List.range'_succ, Eval.ends_partitionFrom_cons hlist (hdiv.getElem?_next hitem)] at hends
    obtain ⟨order, s₁, hcall, hends⟩ | ⟨e, hcall, rfl⟩ := Eval.ends_bind.mp hends
    · obtain ⟨n, rfl⟩ | ⟨e, o, rfl, rfl⟩ := hends.of_place_bind
      · obtain ⟨store₂, s₂, hunder, hcompares, hplace⟩ := h.step hf hmem hitem hcall
        have hnext : start + 1 + (done ++ [(item, n)]).length = start + 1 + done.length + 1 := by
          rw [List.length_append, List.length_singleton]
          omega
        rw [hplace, ← hnext] at hends
        obtain herror | ⟨rest, store', rfl, hrest, hunder', hcompares'⟩ :=
          ih (by omega) hunder hends
        · exact .inl herror
        · rw [List.append_assoc] at hunder'
          exact .inr ⟨(item, n) :: rest, store', rfl,
            by rw [List.length_cons, hrest], hunder', hcompares _ _ hcompares'⟩
      · obtain ⟨hinv, hkept⟩ := hf.call h.inv hmem hcall
        have hget := (hf.wellFormed hinv).get?_insert_of_get? o (hkept.trans hlist')
        exact .inl ⟨e, now', rfl, hget, hrearranged⟩
    · obtain ⟨_, hkept⟩ := hf.call h.inv hmem hcall
      exact .inl ⟨e, now', rfl, hkept.trans hlist', hrearranged⟩

/-- If every comparison gives a number, a partition comes to its end. -/
theorem exists_partitionFrom_ends (hf : Comparison scope f a pivot compared Inv)
    (hnum : ∀ s item, Inv s → item ∈ compared →
      ∃ n s', (Eval.apply scope f [item, pivot]).Ends s (.ok (.num n)) s')
    (hcompared : ∀ i item, start < i → i < finish → items[i]? = some item → item ∈ compared)
    (hlen : start + 1 + done.length + k = finish) (hsize : finish ≤ items.size)
    (h : Underway Inv a items start done store s) :
    ∃ store' s',
      (Eval.partitionFrom scope f a pivot store (List.range' (start + 1 + done.length) k)).Ends s
        (.ok store') s' := by
  induction k generalizing s done store with
  | zero => exact ⟨store, s, .done _ _⟩
  | succ k ih =>
    obtain ⟨item, hitem⟩ : ∃ item, items[start + 1 + done.length]? = some item :=
      ⟨_, Array.getElem?_eq_getElem (by omega)⟩
    have hmem := hcompared _ item (by omega) (by omega) hitem
    obtain ⟨now, below, above, hlist, hdiv, _⟩ := h.divided
    obtain ⟨n, s₁, hcall⟩ := hnum s item h.inv hmem
    obtain ⟨store₂, s₂, hunder, _, hplace⟩ := h.step hf hmem hitem hcall
    have hnext : start + 1 + (done ++ [(item, n)]).length = start + 1 + done.length + 1 := by
      rw [List.length_append, List.length_singleton]
      omega
    obtain ⟨store', s', hends⟩ := ih (by omega) hunder
    refine ⟨store', s', ?_⟩
    rw [List.range'_succ, Eval.ends_partitionFrom_cons hlist (hdiv.getElem?_next hitem), ← hnext]
    exact Eval.ends_bind.mpr (.inl ⟨.num n, s₁, hcall, (hplace _ _ _).mpr hends⟩)

end Comparison

/-- What a partition does between bounds that name places in the list. -/
theorem Eval.ends_partition {r : Except Addr Value} (hlist : s.store.get? a = some (.list items))
    (hstart : within? items.size (resolve items.size m.toInt) = some start)
    (hfinish : within? items.size (resolve items.size n.toInt) = some finish)
    (hpivot : items[start]? = some pivot) (hlt : start < finish) :
    (runPrimitive scope .partition [f, .ref a, .num m, .num n]).Ends s r s' ↔
      (partitionFrom scope f a pivot start (List.range' (start + 1) (finish - (start + 1))) >>=
        fun store => do
        swapItems a start store
        return .ofNat store).Ends s r s' := by
  show (partition scope f (.ref a) (.num m) (.num n)).Ends s r s' ↔ _
  rw [partition, ends_listRefArg_bind hlist, ends_itemsAt_bind hlist, ends_sweepArg_bind hstart,
    ends_sweepArg_bind hfinish, if_pos hlt, hpivot]

/-- A partition partitions. However it ends, the list has the same items, and those outside the
bounds have kept their places. If it gives an index, the items between the bounds have been compared
with the first of them, each once and in their order, and are partitioned at that index. If every
comparison gives a number, it gives an index. -/
theorem Interp.partition_partitions (hlist : s.store.get? a = some (.list items))
    (hstart : within? items.size (resolve items.size m.toInt) = some start)
    (hfinish : within? items.size (resolve items.size n.toInt) = some finish) (hlt : start < finish)
    (hpivot : items[start]? = some pivot) (hs : Inv s)
    (hf : Comparison scope f a pivot (items.extract (start + 1) finish).toList Inv) :
    (∀ fuel r s', s.run fuel (Eval.runPrimitive scope .partition [f, .ref a, .num m, .num n]) =
      .finished r s' →
      ∃ new, s'.store.get? a = some (.list new) ∧ Rearranged start finish items new ∧
        ∀ v, r = .ok v → ∃ p results, v = .ofNat p ∧ Partitioned start finish items results p new ∧
          results.map Prod.fst = (items.extract (start + 1) finish).toList ∧
          Compares scope f a pivot results s s') ∧
    ((∀ s item, Inv s → item ∈ (items.extract (start + 1) finish).toList →
        ∃ n s', (Eval.apply scope f [item, pivot]).Ends s (.ok (.num n)) s') →
      ∃ fuel v s', s.run fuel (Eval.runPrimitive scope .partition [f, .ref a, .num m, .num n]) =
        .finished (.ok v) s') := by
  have hsize : finish ≤ items.size := by
    unfold within? at hfinish
    split_ifs at hfinish with hbounds
    cases hfinish
    omega
  have hcompared (i : Nat) (item : Value) (hi : start < i) (hi' : i < finish)
      (hitem : items[i]? = some item) :
      item ∈ (items.extract (start + 1) finish).toList := by
    obtain ⟨k, rfl⟩ := Nat.exists_eq_add_of_lt hi
    apply List.mem_of_getElem? (i := k)
    rw [Array.getElem?_toList, Array.getElem?_extract, if_pos (by omega), ← hitem]
    congr 1
    omega
  have hbegin := Underway.start_eq hs hlist start
  have hlen : start + 1 + ([] : List (Value × Int64)).length + (finish - (start + 1)) = finish := by
    rw [List.length_nil]
    omega
  constructor
  · intro fuel r s' hrun
    have hends :=
      (Eval.ends_partition hlist hstart hfinish hpivot hlt).mp (run_finished_iff.mp ⟨fuel, hrun⟩)
    obtain ⟨store, s₁, hfrom, hends⟩ | ⟨e, hfrom, rfl⟩ := Eval.ends_bind.mp hends
    · obtain ⟨e, _, hr, _⟩ | ⟨results, store', hr, hresults, hunder, hcompares⟩ :=
        hf.partitionFrom_ends hcompared hlen hsize hbegin hfrom
      · cases hr
      · cases hr
        obtain ⟨now, below, above, hnow, hdiv, rfl⟩ := hunder.divided
        rw [List.nil_append] at hdiv
        have hbounds : start + 1 + results.length = finish := by omega
        have hpart := hdiv.partitioned hpivot (by omega)
        rw [hbounds] at hpart
        rw [Eval.ends_swapItems_bind hnow] at hends
        cases hends
        refine ⟨_, get?_exchange hnow _ _, hpart.rearranged, ?_⟩
        intro v hv
        cases hv
        refine ⟨_, results, rfl, hpart, ?_, hcompares.exchange_last _ _⟩
        rw [hdiv.compared, Array.toList_extract, List.extract_eq_take_drop, hresults]
    · obtain ⟨e, now, _, hnow, hrearranged⟩ | ⟨_, _, hr, _⟩ :=
        hf.partitionFrom_ends hcompared hlen hsize hbegin hfrom
      · exact ⟨now, hnow, hrearranged, fun v hv => by cases hv⟩
      · cases hr
  · intro hnum
    obtain ⟨store, s₁, hfrom⟩ := hf.exists_partitionFrom_ends hnum hcompared hlen hsize hbegin
    obtain ⟨_, _, hr, _⟩ | ⟨_, _, _, _, hunder, _⟩ :=
      hf.partitionFrom_ends hcompared hlen hsize hbegin hfrom
    · cases hr
    · obtain ⟨now, _, _, hnow, _, _⟩ := hunder.divided
      obtain ⟨fuel, hrun⟩ :=
        run_finished_iff.mpr ((Eval.ends_partition hlist hstart hfinish hpivot hlt).mpr
        (Eval.ends_bind.mpr
          (.inl ⟨store, s₁, hfrom, (Eval.ends_swapItems_bind hnow).mpr (.done _ _)⟩)))
      exact ⟨fuel, _, _, hrun⟩

/-- A difference is a comparison. -/
theorem Eval.ends_apply_sub {b : Addr} {x y : Int64} {r : Except Addr Value}
    (hb : s.store.get? b = some (.function (.native (.primitive .sub))))
    (hroom : s.depth < s.config.maxDepth) :
    (apply scope (.ref b) [.num x, .num y]).Ends s r s' ↔ r = .ok (.num (x - y)) ∧ s' = s := by
  have hfetch : (Effect.fetch b).perform s = some (.function (.native (.primitive .sub)), s) := by
    rw [Effect.perform, hb]
  constructor
  · intro h
    cases h with
    | effect he h =>
      cases hfetch.symm.trans he
      cases h with
      | refused hfull => exact absurd hroom hfull
      | call _ hbody h =>
        cases hbody with
        | native hn hbody =>
          cases hn
          cases hbody
          cases h
          exact ⟨rfl, rfl⟩
  · intro h
    obtain ⟨rfl, rfl⟩ := h
    exact .effect hfetch (.call hroom (.native (.done _ _) (.done _ _)) (.done _ _))

/-- All but the first item of a list are partitioned by their differences from the second. -/
theorem Interp.partition_partitions_difference :
    let s₁ := ((bare ⟨1, 65536, false⟩ .empty 0).alloc (.function (.native (.primitive .sub)))).2
    let s := (s₁.alloc (.list #[.num 9, .num 3, .num 1, .num 4, .num 2])).2
    ∃ fuel p s' new,
      s.run fuel (Eval.runPrimitive ⟨0⟩ .partition [.ref ⟨1⟩, .ref ⟨2⟩, .num 1, .num (-1)]) =
        .finished (.ok (.ofNat p)) s' ∧ s'.store.get? ⟨2⟩ = some (.list new) ∧
      new[p]? = some (.num 3) ∧
      new[0]? = some (.num 9) := by
  intro s₁ s
  let Inv (s : Interp) : Prop := s.store.WellFormed ∧
    s.store.get? ⟨1⟩ = some (.function (.native (.primitive .sub))) ∧ s.depth < s.config.maxDepth
  have hs : Inv s := by
    refine ⟨?_, rfl, by decide⟩
    exact (((bare_sound ⟨1, 65536, false⟩ .empty 0).intact.toWellFormed).insert _).insert _
  have hends {s : Interp} {item : Value} (hinv : Inv s)
      (hitem : item ∈ [Value.num 1, .num 4, .num 2]) :
      ∃ x, ∀ r s', (Eval.apply ⟨0⟩ (.ref ⟨1⟩) [item, .num 3]).Ends s r s' ↔ r = .ok (.num x) ∧
          s' = s := by
    simp only [List.mem_cons, List.not_mem_nil, or_false] at hitem
    rcases hitem with rfl | rfl | rfl <;>
      exact ⟨_, fun r s' => Eval.ends_apply_sub hinv.2.1 hinv.2.2⟩
  have hf : Comparison ⟨0⟩ (.ref ⟨1⟩) ⟨2⟩ (.num 3) [Value.num 1, .num 4, .num 2] Inv := by
    refine ⟨fun h => h.1, fun hinv hitem h => ?_, fun i j hinv => ⟨hinv.1.modify _ _, ?_, hinv.2.2⟩⟩
    · obtain ⟨x, hiff⟩ := hends hinv hitem
      obtain ⟨_, rfl⟩ := (hiff _ _).mp h
      exact ⟨hinv, rfl⟩
    · simp [exchange, hinv.2.1]
  have hlist : s.store.get? ⟨2⟩ = some (.list #[.num 9, .num 3, .num 1, .num 4, .num 2]) := rfl
  obtain ⟨hall, hsome⟩ :=
    partition_partitions (m := 1) (n := -1) hlist rfl rfl (by decide) rfl hs hf
  obtain ⟨fuel, v, s', hrun⟩ := hsome fun s item hinv hitem => by
    obtain ⟨x, hiff⟩ := hends hinv hitem
    exact ⟨x, s, (hiff _ _).mpr ⟨rfl, rfl⟩⟩
  obtain ⟨new, hnew, hrearranged, hok⟩ := hall fuel _ s' hrun
  obtain ⟨p, results, rfl, hpart, _, _⟩ := hok v rfl
  exact ⟨fuel, p, s', new, hrun, hnew, hpart.pivot, hrearranged.2 0 (by decide)⟩

end HeapLisp
