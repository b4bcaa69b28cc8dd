import HeapLisp.Bytes
import Mathlib.Data.List.TakeWhile

namespace HeapLisp.Bytes

variable {separator : UInt8 → Bool} {b c : UInt8} {text gap run rest : Bytes} {found : List Bytes}

/-- The text is made of the runs in their order, with separators before them, behind them and
between them. No run is empty or has a separator, and between two of them stands at least one. -/
inductive Interleaves (separator : UInt8 → Bool) : List Bytes → Bytes → Prop where
  | nil {gap : Bytes} (hgap : ∀ b ∈ gap, separator b = true) : Interleaves separator [] gap
  /-- What follows a run starts with a separator if there is one more run in it. -/
  | cons {gap run rest : Bytes} {found : List Bytes} (hgap : ∀ b ∈ gap, separator b = true)
    (hne : run ≠ [])
    (hrun : ∀ b ∈ run, separator b = false)
    (hnext : found ≠ [] → ∃ b ∈ rest.head?, separator b = true)
    (hrest : Interleaves separator found rest) :
    Interleaves separator (run :: found) (gap ++ (run ++ rest))

namespace Interleaves

theorem of_mem (h : Interleaves separator found text) :
    ∀ run ∈ found, run ≠ [] ∧ ∀ b ∈ run, separator b = false := by
  induction h with
  | nil => simp
  | cons _ hne hrun _ _ ih => exact List.forall_mem_cons.mpr ⟨⟨hne, hrun⟩, ih⟩

/-- The runs hold the bytes that are not separators. -/
theorem flatten_eq (h : Interleaves separator found text) :
    found.flatten = text.filter (!separator ·) := by
  have removed {gap : Bytes} (hgap : ∀ b ∈ gap, separator b = true) :
      gap.filter (!separator ·) = [] := by
    simpa using hgap
  induction h with
  | nil hgap => rw [removed hgap, List.flatten_nil]
  | @cons gap run rest found hgap _ hrun _ _ ih =>
    have hkept : run.filter (!separator ·) = run := by
      rw [List.filter_eq_self]
      intro b hb
      rw [hrun b hb, Bool.not_false]
    rw [List.filter_append, List.filter_append, removed hgap, hkept, ← ih, List.nil_append,
      List.flatten_cons]

theorem separator_cons (h : Interleaves separator found text) (hb : separator b = true) :
    Interleaves separator found (b :: text) := by
  cases h with
  | nil hgap => exact .nil (List.forall_mem_cons.mpr ⟨hb, hgap⟩)
  | @cons gap run rest _ hgap hne hrun hnext hrest =>
    rw [← List.cons_append]
    exact .cons (List.forall_mem_cons.mpr ⟨hb, hgap⟩) hne hrun hnext hrest

theorem intercalate (hc : separator c = true)
    (h : ∀ run ∈ found, run ≠ [] ∧ ∀ b ∈ run, separator b = false) :
    Interleaves separator found ([c].intercalate found) := by
  have hgap : ∀ b ∈ ([] : Bytes), separator b = true := List.forall_mem_nil _
  induction found with
  | nil => exact .nil hgap
  | cons run found ih =>
    obtain ⟨⟨hne, hrun⟩, hfound⟩ := List.forall_mem_cons.mp h
    cases found with
    | nil =>
      have hlast : Interleaves separator [run] ([] ++ (run ++ [])) :=
        .cons hgap hne hrun (absurd rfl) (.nil hgap)
      simpa using hlast
    | cons next found =>
      have hrest := (ih hfound).separator_cons hc
      rw [List.intercalate_cons_cons, List.append_assoc]
      exact .cons hgap hne hrun (fun _ => ⟨c, rfl, hc⟩) hrest

end Interleaves

theorem runs_append_of_separators (hgap : ∀ b ∈ gap, separator b = true) (text : Bytes) :
    runs separator (gap ++ text) = runs separator text := by
  induction gap with
  | nil => rfl
  | cons b gap ih =>
    obtain ⟨hb, hgap⟩ := List.forall_mem_cons.mp hgap
    rw [List.cons_append, runs, if_pos hb, ih hgap]

/-- A run ends where a separator follows, or nothing. -/
theorem runs_append_of_run (hne : run ≠ []) (hrun : ∀ b ∈ run, separator b = false)
    (hrest : ∀ b ∈ rest.head?, separator b = true) :
    runs separator (run ++ rest) = run :: runs separator rest := by
  have hstop : rest.takeWhile (!separator ·) = [] ∧ rest.dropWhile (!separator ·) = rest := by
    cases rest with
    | nil => exact ⟨rfl, rfl⟩
    | cons b rest => simp [hrest b rfl]
  cases run with
  | nil => exact absurd rfl hne
  | cons b run =>
    obtain ⟨hb, hrun⟩ := List.forall_mem_cons.mp hrun
    have hkept : ∀ b ∈ run, (!separator b) = true := fun b hb => by rw [hrun b hb, Bool.not_false]
    rw [List.cons_append, runs, if_neg (by simp [hb]), List.takeWhile_append_of_pos hkept,
      List.dropWhile_append_of_pos hkept, hstop.1, hstop.2, List.append_nil]

/-- There is one way only to see a text as runs and separators. -/
theorem Interleaves.eq_runs (h : Interleaves separator found text) :
    found = runs separator text := by
  induction h with
  | @nil gap hgap =>
    have hnone := runs_append_of_separators hgap []
    rw [List.append_nil] at hnone
    rw [hnone, runs]
  | @cons gap run rest found hgap hne hrun hnext hrest ih =>
    have hhead : ∀ b ∈ rest.head?, separator b = true := by
      intro b hb
      cases hrest with
      | nil hgap => exact hgap b (List.mem_of_mem_head? hb)
      | cons =>
        obtain ⟨b', hb', hsep⟩ := hnext (List.cons_ne_nil _ _)
        cases hb.symm.trans hb'
        exact hsep
    rw [runs_append_of_separators hgap, runs_append_of_run hne hrun hhead, ← ih]

theorem interleaves_runs (separator : UInt8 → Bool) (text : Bytes) :
    Interleaves separator (runs separator text) text := by
  fun_induction runs separator text with
  | case1 => exact .nil (List.forall_mem_nil _)
  | case2 b rest hb ih => exact ih.separator_cons hb
  | case3 b rest hb ih =>
    have hrun : ∀ a ∈ b :: rest.takeWhile (!separator ·), separator a = false := by
      refine List.forall_mem_cons.mpr ⟨by simpa using hb, fun a ha => ?_⟩
      simpa using List.mem_takeWhile_imp ha
    have hnext : runs separator (rest.dropWhile (!separator ·)) ≠ [] →
        ∃ a ∈ (rest.dropWhile (!separator ·)).head?, separator a = true := by
      intro hmore
      cases hdrop : rest.dropWhile (!separator ·) with
      | nil =>
        rw [hdrop, runs] at hmore
        exact absurd rfl hmore
      | cons a after =>
        have hstop := List.head?_dropWhile_not (!separator ·) rest
        rw [hdrop] at hstop
        exact ⟨a, rfl, by simpa using hstop⟩
    have hwhole := Interleaves.cons (List.forall_mem_nil _) (List.cons_ne_nil _ _) hrun hnext ih
    rwa [List.nil_append, List.cons_append, List.takeWhile_append_dropWhile] at hwhole

theorem runs_intercalate (hc : separator c = true) (text : Bytes) :
    runs separator ([c].intercalate (runs separator text)) = runs separator text :=
  (Interleaves.intercalate hc (interleaves_runs separator text).of_mem).eq_runs.symm

end HeapLisp.Bytes
