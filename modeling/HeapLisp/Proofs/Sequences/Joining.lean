import HeapLisp.Proofs.Sequences.Slicing
import Mathlib.Data.Set.List

namespace HeapLisp

variable {s s' : Interp} {scope : Addr} {v : Value} {args : List Value} {c : Contents}
  {cs : List Contents} {refs : List SeqRef}

theorem Sequence.toList_cat {α : Type} (parts : List (Array α)) :
    (cat parts).toList = (parts.map Array.toList).flatten := by
  have after (before : Array α) : (parts.foldl (· ++ ·) before).toList = before.toList ++
      (parts.map Array.toList).flatten := by
    induction parts generalizing before with
    | nil => simp
    | cons part parts ih => simp [ih]
  rw [cat, after, Array.emptyWithCapacity_eq]
  rfl

theorem Text.ofPacked_cat (parts : List ByteArray) :
    Bytes.ofPacked (cat parts) = (parts.map Bytes.ofPacked).flatten := by
  rw [Bytes.ofPacked_eq, data_cat, Sequence.toList_cat, List.map_map]
  congr 2
  funext part
  exact (Bytes.ofPacked_eq part).symm

namespace Contents

/-- Contents can be joined, or there are some of both kinds. -/
theorem join_or_mixed (cs : List Contents) :
    (∃ c, Join cs c) ∨ (∃ values, items values ∈ cs) ∧ ∃ text, bytes text ∈ cs := by
  by_cases hbytes : ∃ text, bytes text ∈ cs
  · by_cases hitems : ∃ values, items values ∈ cs
    · exact .inr ⟨hitems, hbytes⟩
    · have hall : cs ∈ Set.range (List.map bytes) := by
        rw [Set.range_list_map]
        intro d hd
        cases d with
        | items values => exact absurd ⟨values, hd⟩ hitems
        | bytes text => exact ⟨text, rfl⟩
      obtain ⟨parts, rfl⟩ := hall
      exact .inl ⟨_, .bytes parts⟩
  · have hall : cs ∈ Set.range (List.map items) := by
      rw [Set.range_list_map]
      intro d hd
      cases d with
      | items values => exact ⟨values, rfl⟩
      | bytes text => exact absurd ⟨text, hd⟩ hbytes
    obtain ⟨parts, rfl⟩ := hall
    exact .inl ⟨_, .items parts⟩

end Contents

namespace Interp

/-- Several sequences are held somewhere. -/
theorem exists_held_all (h : args.map s.contents? = cs.map some) :
    ∃ refs, args.mapM s.seq? = some refs ∧ List.Forall₂ s.Held refs cs := by
  induction args generalizing cs with
  | nil =>
    cases cs with
    | nil => exact ⟨[], rfl, .nil⟩
    | cons c cs => cases h
  | cons v args ih =>
    cases cs with
    | nil => cases h
    | cons c cs =>
      rw [List.map_cons, List.map_cons, List.cons.injEq] at h
      obtain ⟨ref, href, hheld⟩ := exists_held h.1
      obtain ⟨refs, hrefs, hall⟩ := ih h.2
      refine ⟨ref :: refs, ?_, .cons hheld hall⟩
      rw [List.mapM_cons, href, hrefs]
      rfl

theorem mem_contents_iff (h : args.map s.contents? = cs.map some) :
    c ∈ cs ↔ ∃ v ∈ args, s.contents? v = some c := by
  rw [← List.mem_map, h, List.mem_map_of_injective (Option.some_injective _)]

theorem exists_contents_all (h : ¬∃ v ∈ args, s.contents? v = none) :
    ∃ cs : List Contents, args.map s.contents? = cs.map some := by
  have hall : args.map s.contents? ∈ Set.range (List.map some) := by
    rw [Set.range_list_map]
    intro found hfound
    obtain ⟨v, hv, rfl⟩ := List.mem_map.mp hfound
    obtain ⟨c, hc⟩ := Option.ne_none_iff_exists'.mp fun hnone => h ⟨v, hv, hnone⟩
    exact ⟨c, hc.symm⟩
  obtain ⟨cs, hcs⟩ := hall
  exact ⟨cs, hcs.symm⟩

theorem Gains.contents_all {vs : List Value} (h : s.Gains s')
    (hvs : vs.map s.contents? = cs.map some) :
    vs.map s'.contents? = cs.map some := by
  rw [← hvs]
  apply List.map_congr_left
  intro v hv
  have hfound : s.contents? v ∈ vs.map s.contents? := List.mem_map_of_mem hv
  rw [hvs] at hfound
  obtain ⟨c, _, hc⟩ := List.mem_map.mp hfound
  rw [← hc]
  exact h.contents? hc.symm

theorem all_isList_iff (h : List.Forall₂ s.Held refs cs) :
    refs.all SeqRef.isList = false ↔ ∃ text, .bytes text ∈ cs := by
  induction h with
  | nil => simp
  | cons hheld _ ih => cases hheld <;> simp [SeqRef.isList, ih]

theorem any_isList_iff (h : List.Forall₂ s.Held refs cs) :
    refs.any SeqRef.isList = true ↔ ∃ values, .items values ∈ cs := by
  induction h with
  | nil => simp
  | cons hheld _ ih => cases hheld <;> simp [SeqRef.isList, ih]

theorem finds_items_all {parts : List (List Value)}
    (h : List.Forall₂ s.Held refs (parts.map .items)) :
    ∃ arrays : List (Array Value), arrays.map Array.toList = parts ∧
      List.Forall₂ (fun ref items => Eval.Finds s (Eval.seqItems ref) items) refs arrays := by
  induction parts generalizing refs with
  | nil =>
    cases h
    exact ⟨[], rfl, .nil⟩
  | cons part parts ih =>
    cases h with
    | cons hheld hrest =>
      obtain ⟨items, rfl, hitems⟩ := hheld.finds_items
      obtain ⟨arrays, rfl, harrays⟩ := ih hrest
      exact ⟨items :: arrays, rfl, .cons hitems harrays⟩

theorem finds_text_all {parts : List Bytes} (h : List.Forall₂ s.Held refs (parts.map .bytes)) :
    ∃ texts : List ByteArray, texts.map Bytes.ofPacked = parts ∧
      List.Forall₂ (fun ref text => Eval.Finds s (Eval.seqText ref) text) refs texts := by
  induction parts generalizing refs with
  | nil =>
    cases h
    exact ⟨[], rfl, .nil⟩
  | cons part parts ih =>
    cases h with
    | cons hheld hrest =>
      obtain ⟨_, text, rfl, htext⟩ := hheld.finds_text
      obtain ⟨texts, rfl, htexts⟩ := ih hrest
      exact ⟨text :: texts, rfl, .cons htext htexts⟩

end Interp

namespace Eval

theorem Finds.seqPartsOnto {α : Type} {part : SeqRef → Eval α} {parts : List α}
    (h : List.Forall₂ (fun ref p => Finds s (part ref) p) refs parts) (before : List α) :
    Finds s (seqPartsOnto part before refs) (before.reverse ++ parts) := by
  induction h generalizing before with
  | nil =>
    rw [List.append_nil]
    exact .pure s _
  | @cons ref p refs parts hpart _ ih =>
    have hrest := ih (p :: before)
    rw [List.reverse_cons, List.append_assoc] at hrest
    exact hpart.andThen hrest

/-- What is no sequence is refused as such. -/
theorem ends_seqArg_of_none {r : Except Addr SeqRef} (hv : s.contents? v = none) (howns : s.Owns v)
    (h : (raise scope .notSequence v).Ends s r s') : (seqArg scope v).Ends s r s' := by
  cases v with
  | num n => exact h
  | sym x =>
    obtain ⟨name, hx⟩ := Option.isSome_iff_exists.mp (howns.named x rfl)
    rw [Interp.contents?, hx] at hv
    cases hv
  | ref a =>
    obtain ⟨o, ho⟩ := Store.contains_iff.mp (howns.live a rfl)
    rw [Interp.contents?, ho] at hv
    refine (Finds.fetch ho).bind.mpr ?_
    cases o with
    | list | str => cases hv
    | scope | function | failure | input | output => exact h

/-- Joining goes by the kinds of the sequences. -/
theorem ends_cat {r : Except Addr Value} (hne : args ≠ [])
    (h : Finds s (seqArgsOnto scope [] args) refs) :
    (runPrimitive scope .cat args).Ends s r s' ↔
      (if refs.all SeqRef.isList
        then do alloc (.list (Sequence.cat (← seqPartsOnto seqItems [] refs)))
      else if refs.any SeqRef.isList then do raise scope .mixedSequences (← newList args)
      else do alloc (.str (Text.cat (← seqPartsOnto seqText [] refs)))).Ends s r s' := by
  cases args with
  | nil => exact absurd rfl hne
  | cons v args => exact h.bind

/-- The first value that is no sequence is refused. -/
theorem exists_notSequence (scope : Addr) (howns : ∀ v ∈ args, s.Owns v)
    (h : ∃ v ∈ args, s.contents? v = none)
    (before : List SeqRef) :
    ∃ v ∈ args, ∀ {e s'}, (raise scope .notSequence v : Eval SeqRef).Ends s (.error e) s' →
      (seqArgsOnto scope before args).Ends s (.error e) s' := by
  induction args generalizing before with
  | nil => simp at h
  | cons v args ih =>
    cases hv : s.contents? v with
    | none =>
      refine ⟨v, .head _, fun hraise => ?_⟩
      exact ends_bind.mpr (.inr ⟨_, ends_seqArg_of_none hv (howns v (.head _)) hraise, rfl⟩)
    | some c =>
      obtain ⟨ref, href, _⟩ := Interp.exists_held hv
      have hrest : ∃ w ∈ args, s.contents? w = none := by simpa [hv] using h
      obtain ⟨w, hw, hends⟩ := ih (fun w hw => howns w (.tail _ hw)) hrest (ref :: before)
      exact ⟨w, .tail _ hw, fun hraise => (Finds.seqArg href).bind.mpr (hends hraise)⟩

end Eval

namespace Interp

/-- Sequences of one kind are joined in a new one. -/
theorem exists_cat_makes (hs : s.HasScope scope) (hne : args ≠ [])
    (hargs : args.map s.contents? = cs.map some) (hjoin : Contents.Join cs c) :
    ∃ a s', s.Makes (Eval.runPrimitive scope .cat args) c a s' := by
  obtain ⟨refs, hrefs, hheld⟩ := exists_held_all hargs
  have hseqs : Eval.Finds s (Eval.seqArgsOnto scope [] args) refs := Eval.Finds.seqArgsOnto hrefs []
  have hlive : c.Live s.store := by
    refine .join hjoin fun d hd => ?_
    obtain ⟨v, _, hv⟩ := (mem_contents_iff hargs).mp hd
    exact contents_live hs.intact hv
  refine ⟨_, _, makes_of_ends hs.intact hlive ((Eval.ends_cat hne hseqs).mpr ?_)⟩
  cases hjoin with
  | items parts =>
    have hall : refs.all SeqRef.isList = true := by
      rw [← Bool.not_eq_false, all_isList_iff hheld]
      simp
    obtain ⟨arrays, rfl, harrays⟩ := finds_items_all hheld
    rw [if_pos hall, (Eval.Finds.seqPartsOnto harrays []).bind, ← Sequence.toList_cat]
    exact .effect rfl (.done _ _)
  | bytes parts =>
    have hany : ¬refs.any SeqRef.isList = true := by simp [any_isList_iff hheld]
    have hall : refs.all SeqRef.isList = false := by
      obtain ⟨v, hv⟩ := List.exists_mem_of_ne_nil args hne
      have hfound : s.contents? v ∈ args.map s.contents? := List.mem_map_of_mem hv
      rw [hargs] at hfound
      obtain ⟨d, hd, _⟩ := List.mem_map.mp hfound
      obtain ⟨text, _, rfl⟩ := List.mem_map.mp hd
      exact (all_isList_iff hheld).mpr ⟨text, hd⟩
    obtain ⟨texts, rfl, htexts⟩ := finds_text_all hheld
    rw [hall, if_neg Bool.false_ne_true, if_neg hany, (Eval.Finds.seqPartsOnto htexts []).bind,
      ← Text.ofPacked_cat, Contents.object_bytes]
    exact .effect rfl (.done _ _)

/-- Values that cannot be joined: one of them is no sequence, or there are lists and texts. -/
def Mismatched (s : Interp) (args : List Value) : Prop :=
  (∃ v ∈ args, s.contents? v = none) ∨
    (∃ v ∈ args, ∃ values, s.contents? v = some (.items values)) ∧
    ∃ v ∈ args, ∃ text, s.contents? v = some (.bytes text)

theorem cat_refuses (hs : s.HasScope scope) (hne : args ≠ []) (howns : ∀ v ∈ args, s.Owns v)
    (h : s.Mismatched args) : s.Refuses (Eval.runPrimitive scope .cat args) .type := by
  by_cases hnone : ∃ v ∈ args, s.contents? v = none
  · obtain ⟨v, hv, hends⟩ := Eval.exists_notSequence scope howns hnone []
    refine refuses_of_raise (α := SeqRef) .notSequence (.refl hs.intact) hs (howns v hv).live
      fun hraise => ?_
    cases args with
    | nil => exact absurd rfl hne
    | cons w args => exact Eval.ends_bind.mpr (.inr ⟨_, hends hraise, rfl⟩)
  · obtain ⟨⟨v, hv, values, hvalues⟩, w, hw, text, htext⟩ := h.resolve_left hnone
    obtain ⟨cs, hcs⟩ := exists_contents_all hnone
    obtain ⟨refs, hrefs, hheld⟩ := exists_held_all hcs
    have hseqs : Eval.Finds s (Eval.seqArgsOnto scope [] args) refs :=
      Eval.Finds.seqArgsOnto hrefs []
    have hany : refs.any SeqRef.isList = true :=
      (any_isList_iff hheld).mpr ⟨values, (mem_contents_iff hcs).mpr ⟨v, hv, hvalues⟩⟩
    have hall : refs.all SeqRef.isList = false :=
      (all_isList_iff hheld).mpr ⟨text, (mem_contents_iff hcs).mpr ⟨w, hw, htext⟩⟩
    refine refuses_of_newList .mixedSequences hs (fun v hv => (howns v hv).live) fun hraise =>
      (Eval.ends_cat hne hseqs).mpr ?_
    rw [hall, if_neg Bool.false_ne_true, if_pos hany]
    exact hraise

/-- Sequences can be joined unless lists and texts are mixed. -/
theorem cat_settles (hs : s.HasScope scope) (hne : args ≠ []) (howns : ∀ v ∈ args, s.Owns v) :
    s.Settles (Eval.runPrimitive scope .cat args) (¬s.Mismatched args) .type := by
  refine .of_cases (fun hmatched => ?_) fun hmismatched =>
    cat_refuses hs hne howns (not_not.mp hmismatched)
  obtain ⟨hnone, hmixed⟩ := not_or.mp hmatched
  obtain ⟨cs, hcs⟩ := exists_contents_all hnone
  rcases Contents.join_or_mixed cs with ⟨c, hjoin⟩ | ⟨⟨values, hvalues⟩, text, htext⟩
  · obtain ⟨a, s', hmakes⟩ := exists_cat_makes hs hne hcs hjoin
    obtain ⟨fuel, hrun⟩ := hmakes.run
    exact ⟨fuel, _, s', hrun⟩
  · obtain ⟨v, hv, hvitems⟩ := (mem_contents_iff hcs).mp hvalues
    obtain ⟨w, hw, hwbytes⟩ := (mem_contents_iff hcs).mp htext
    exact absurd ⟨⟨v, hv, values, hvitems⟩, w, hw, text, hwbytes⟩ hmixed

end Interp

end HeapLisp
