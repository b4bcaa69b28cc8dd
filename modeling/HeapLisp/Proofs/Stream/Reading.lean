import HeapLisp.Proofs.Stream.Pending
import Mathlib.Data.List.ReduceOption
import Mathlib.Data.List.TakeWhile

namespace HeapLisp

namespace Bytes

variable {text line after : Bytes}

theorem firstLine?_eq_some_iff : firstLine? text = some (line, after) ↔ Byte.newline ∉ line ∧
    text = line ++ Byte.newline :: after := by
  constructor
  · intro h
    unfold firstLine? at h
    cases hdrop : text.dropWhile (· != Byte.newline) with
    | nil =>
      rw [hdrop] at h
      cases h
    | cons b rest =>
      rw [hdrop] at h
      cases h
      have hstop := List.head?_dropWhile_not (· != Byte.newline) text
      rw [hdrop] at hstop
      obtain rfl : b = Byte.newline := by simpa using hstop
      refine ⟨fun hmem => by simpa using List.mem_takeWhile_imp hmem, ?_⟩
      rw [← hdrop, List.takeWhile_append_dropWhile]
  · rintro ⟨hline, rfl⟩
    have hkept : ∀ b ∈ line, (b != Byte.newline) = true := by
      intro b hb
      simpa using ne_of_mem_of_not_mem hb hline
    rw [firstLine?, List.dropWhile_append_of_pos hkept, List.takeWhile_append_of_pos hkept]
    simp

theorem firstLine?_eq_none_iff : firstLine? text = none ↔ Byte.newline ∉ text := by
  constructor
  · intro h hmem
    obtain ⟨line, after, rfl, hline⟩ := List.eq_append_cons_of_mem hmem
    cases h.symm.trans (firstLine?_eq_some_iff.mpr ⟨hline, rfl⟩)
  · intro h
    cases hfirst : firstLine? text with
    | none => rfl
    | some found =>
      obtain ⟨_, rfl⟩ := firstLine?_eq_some_iff.mp hfirst
      simp at h

theorem firstLine?_append (h : firstLine? text = some (line, after)) (more : Bytes) :
    firstLine? (text ++ more) = some (line, after ++ more) := by
  obtain ⟨hline, rfl⟩ := firstLine?_eq_some_iff.mp h
  exact firstLine?_eq_some_iff.mpr ⟨hline, by simp⟩

theorem length_of_firstLine? (h : firstLine? text = some (line, after)) :
    text.length = line.length + 1 + after.length := by
  obtain ⟨_, rfl⟩ := firstLine?_eq_some_iff.mp h
  simp only [List.length_append, List.length_cons]
  omega

end Bytes

variable {d : Disk} {path text left : Bytes}

theorem Disk.node?_of_resolve {path : Path} {place : Place} {node : Option Node}
    (h : d.resolve path = some (place, node)) :
    d.node? place = node := by
  unfold resolve at h
  split at h
  · cases h
  · split at h
    · rename_i hnode
      cases h
      exact hnode
    · split_ifs at h
      cases h
      rfl

theorem Disk.exists_holds_of_file? (h : d.file? path = some text) :
    ∃ place, d.locate path = some place ∧ FileReader.Holds d place text ∧
      ∀ device, d.node? place = some (.device device) → device.isEndless = false := by
  unfold file? at h
  split at h
  · rename_i place bytes hpath
    cases h
    obtain ⟨parsed, _, hresolve⟩ := Option.bind_eq_some_iff.mp hpath
    have hnode := node?_of_resolve hresolve
    refine ⟨place, by rw [locate, hpath], FileReader.holds_of_file hnode, fun device hdevice => ?_⟩
    cases hnode.symm.trans hdevice
  · rename_i place hpath
    cases h
    obtain ⟨parsed, _, hresolve⟩ := Option.bind_eq_some_iff.mp hpath
    have hnode := node?_of_resolve hresolve
    refine ⟨place, by rw [locate, hpath], FileReader.holds_of_device hnode rfl,
      fun device hdevice => ?_⟩
    cases hnode.symm.trans hdevice
    rfl
  · cases h

/-- What a stream is asked for: its next byte or its next line. -/
inductive Ask where
  | byte
  | line

/-- A part of a text that a stream gives. -/
inductive Piece where
  | byte (b : UInt8)
  | line (text : Bytes)

namespace Piece

/-- The part of the text that a piece stands for; a line comes without its end. -/
def bytes : Piece → Bytes
  | byte b => [b]
  | line text => text ++ [Byte.newline]

/-- A text gives its next piece, if there is one, and leaves what follows it. -/
inductive Given : Bytes → Option Piece → Bytes → Prop where
  | ended : Given [] none []
  | byte (b : UInt8) (left : Bytes) : Given (b :: left) (some (.byte b)) left
  | line {line : Bytes} (hline : Byte.newline ∉ line) (left : Bytes) :
    Given (line ++ Byte.newline :: left) (some (.line line)) left
  /-- The last line of a text may have no end. -/
  | lastLine {line : Bytes} (hline : Byte.newline ∉ line) (hne : line ≠ []) :
    Given line (some (.line line)) []

/-- The pieces are what was consumed, but for the end that a last line did not have. -/
def Cover (pieces : List Piece) (consumed left : Bytes) : Prop :=
  consumed = pieces.flatMap bytes ∨
    left = [] ∧ ∃ before line, pieces = before ++ [.line line] ∧ line ≠ [] ∧
    consumed = before.flatMap bytes ++ line

variable {piece : Piece} {pieces : List Piece} {found : Option Piece} {consumed : Bytes}

theorem Given.suffix (h : Given text found left) : left <:+ text := by
  cases h with
  | ended => exact List.nil_suffix
  | byte b => exact List.suffix_cons b left
  | line => exact (List.suffix_cons _ left).trans (List.suffix_append _ _)
  | lastLine => exact List.nil_suffix

theorem Given.eq_none_iff (h : Given text found left) : found = none ↔ text = [] := by
  cases h with
  | ended => simp
  | byte => simp
  | line => simp
  | lastLine _ hne => simp [hne]

theorem Cover.cons (h : Cover pieces consumed left) (piece : Piece) :
    Cover (piece :: pieces) (piece.bytes ++ consumed) left := by
  rcases h with rfl | ⟨hleft, before, line, rfl, hne, rfl⟩
  · exact .inl rfl
  · exact .inr ⟨hleft, piece :: before, line, rfl, hne,
      by rw [List.flatMap_cons, List.append_assoc]⟩

/-- One more piece before those that cover the rest. After a last line without an end there is no
other piece. -/
theorem Given.cover {answers : List (Option Piece)} {last : Bytes} (h : Given text found left)
    (hleft : left = consumed ++ last) (hcover : Cover answers.reduceOption consumed last)
    (hended : left = [] → ∀ answer ∈ answers, answer = none) :
    ∃ consumed', text = consumed' ++ last ∧
      Cover (found :: answers).reduceOption consumed' last := by
  cases h with
  | ended => exact ⟨consumed, hleft, hcover⟩
  | byte b => exact ⟨b :: consumed, by rw [hleft, List.cons_append], hcover.cons (.byte b)⟩
  | @line line => exact ⟨_, by simp [bytes, hleft], hcover.cons (.line line)⟩
  | lastLine _ hne =>
    obtain ⟨rfl, rfl⟩ := List.append_eq_nil_iff.mp hleft.symm
    have hnone : answers.reduceOption = [] := by
      rw [List.reduceOption, List.filterMap_eq_nil_iff]
      exact hended rfl
    rw [List.reduceOption_cons_of_some, hnone]
    exact ⟨text, (List.append_nil text).symm, .inr ⟨rfl, [], text, rfl, hne, rfl⟩⟩

theorem Given.not_mem {line : Bytes} (h : Given text (some (.line line)) left) :
    Byte.newline ∉ line := by
  cases h with
  | line hline => exact hline
  | lastLine hline => exact hline

end Piece

namespace InputStream

variable {stream : InputStream} {line after : Bytes}

/-- Asks a stream for a piece. -/
def ask (d : Disk) (stream : InputStream) : Ask → Option Piece × InputStream
  | .byte => ((stream.readByte d).1.map .byte, (stream.readByte d).2)
  | .line => ((stream.readLine d).1.map .line, (stream.readLine d).2)

/-- Asks a stream for one piece after the other. -/
def askAll (d : Disk) (stream : InputStream) : List Ask → List (Option Piece) × InputStream
  | [] => ([], stream)
  | kind :: kinds =>
    let first := stream.ask d kind
    let others := first.2.askAll d kinds
    (first.1 :: others.1, others.2)

/-- The next byte is the first of what is still to come, whether it is buffered or not. -/
theorem readByte_eq (hfinite : stream.IsFinite d) :
    stream.readByte d = ((stream.pending d).head?, stream.leaving d (stream.pending d).tail) := by
  rcases stream with (_ | ⟨b, text⟩) | _ | ⟨place, offset, _ | ⟨b, buffered⟩⟩
  · rfl
  · rfl
  · rfl
  · -- with nothing buffered, the byte is the first of the next buffer, which is empty only at the
    -- end of the file
    obtain ⟨bytes, hbytes⟩ := FileReader.exists_holds hfinite
    have hpos : FileReader.bufferSize ≠ 0 := by decide
    rw [readByte, pending, leaving, hbytes.rest_eq, FileReader.fill, FileReader.chunk,
      hbytes.content_eq, List.nil_append]
    cases hrest : bytes.drop offset with
    | nil => simp [FileReader.skip]
    | cons b left =>
      simp [FileReader.skip, FileReader.chunk, hbytes.content_eq, hrest, List.head?_take, hpos]
  · simp [readByte, pending, leaving, FileReader.rest, FileReader.ahead, FileReader.fill,
      FileReader.skip]

theorem readLine_of_firstLine? (h : Bytes.firstLine? (stream.pending d) = some (line, after)) :
    stream.readLine d = (some line, stream.leaving d after) := by
  rcases stream with text | _ | r
  · rw [pending] at h
    rw [readLine, h]
    rfl
  · cases h
  · rw [pending] at h
    have hlength := Bytes.length_of_firstLine? h
    have hskip : (r.rest d).length - after.length = line.length + 1 := by omega
    rw [readLine, leaving, hskip]
    -- the buffer and the parts that are searched are starts of the text, so that a line found in
    -- them is its first one
    cases hbuffered : Bytes.firstLine? r.buffered with
    | some found =>
      obtain ⟨line, after⟩ := found
      rw [FileReader.rest, FileReader.ahead, Bytes.firstLine?_append hbuffered] at h
      cases h
      obtain ⟨_, htext⟩ := Bytes.firstLine?_eq_some_iff.mp hbuffered
      simp [FileReader.skip, htext, List.drop_append]
    | none =>
      dsimp only
      cases hsearch : r.search d Bytes.firstLine? with
      | none =>
        dsimp only
        rw [h]
      | some found =>
        obtain ⟨count, hfound⟩ := FileReader.exists_of_searchFrom hsearch
        obtain ⟨more, hmore⟩ := r.exists_rest_eq d count
        rw [hmore, Bytes.firstLine?_append hfound] at h
        cases h
        rfl

theorem readLine_of_not_mem (h : Byte.newline ∉ stream.pending d) :
    stream.readLine d = (if (stream.pending d).isEmpty then none else some (stream.pending d),
      stream.leaving d []) := by
  have hnone := Bytes.firstLine?_eq_none_iff.mpr h
  rcases stream with text | _ | r
  · rw [pending] at hnone
    rw [readLine, hnone]
    rfl
  · rfl
  · rw [pending] at h hnone
    have hpart : ∀ part more : Bytes, r.rest d = part ++ more → Bytes.firstLine? part = none := by
      intro part more hrest
      rw [hrest] at h
      exact Bytes.firstLine?_eq_none_iff.mpr fun hmem => h (List.mem_append_left _ hmem)
    have hsearch : r.search d Bytes.firstLine? = none := by
      rw [Option.eq_none_iff_forall_ne_some]
      intro found hfound
      obtain ⟨count, hfound⟩ := FileReader.exists_of_searchFrom hfound
      obtain ⟨more, hmore⟩ := r.exists_rest_eq d count
      cases (hpart _ more hmore).symm.trans hfound
    rw [readLine, hpart r.buffered _ rfl, hsearch]
    dsimp only
    rw [hnone]
    rfl

theorem ask_given (hfinite : stream.IsFinite d) (kind : Ask) :
    ∃ found left, Piece.Given (stream.pending d) found left ∧
      (memory (stream.pending d)).ask d kind = (found, memory left) ∧
      stream.ask d kind = (found, stream.leaving d left) := by
  cases kind with
  | byte =>
    have hmemory : (memory (stream.pending d)).readByte d = _ := readByte_eq trivial
    have hstream := readByte_eq hfinite
    refine ⟨_, _, ?_, by rw [ask, hmemory]; rfl, by rw [ask, hstream]; rfl⟩
    cases stream.pending d with
    | nil => exact .ended
    | cons b left => exact .byte b left
  | line =>
    cases hfirst : Bytes.firstLine? (stream.pending d) with
    | some found =>
      obtain ⟨line, after⟩ := found
      have hmemory : (memory (stream.pending d)).readLine d = _ := readLine_of_firstLine? hfirst
      have hstream := readLine_of_firstLine? hfirst
      obtain ⟨hline, htext⟩ := Bytes.firstLine?_eq_some_iff.mp hfirst
      refine ⟨_, _, ?_, by rw [ask, hmemory]; rfl, by rw [ask, hstream]⟩
      rw [htext]
      exact .line hline after
    | none =>
      have hline := Bytes.firstLine?_eq_none_iff.mp hfirst
      have hmemory : (memory (stream.pending d)).readLine d = _ := readLine_of_not_mem hline
      have hstream := readLine_of_not_mem hline
      refine ⟨_, _, ?_, by rw [ask, hmemory]; rfl, by rw [ask, hstream]; rfl⟩
      cases htext : stream.pending d with
      | nil => exact .ended
      | cons b text => exact .lastLine (htext ▸ hline) (List.cons_ne_nil b text)

/-- What a step of reading does: the answer is the next piece of what the stream held, and the
stream holds what is left. -/
theorem ask_step (hfinite : stream.IsFinite d) (kind : Ask) :
    ∃ found next, stream.ask d kind = (found, next) ∧ next.IsFinite d ∧
      Piece.Given (stream.pending d) found (next.pending d) ∧
      (memory (stream.pending d)).ask d kind = (found, memory (next.pending d)) := by
  obtain ⟨found, left, hgiven, hmemory, hask⟩ := ask_given hfinite kind
  obtain ⟨hnext, hleft⟩ := pending_leaving hfinite hgiven.suffix
  rw [← hleft] at hgiven hmemory
  exact ⟨found, _, hask, hnext, hgiven, hmemory⟩

theorem openFile_of_file? (h : d.file? path = some text) :
    (openFile d path).isOpen ∧ (openFile d path).IsFinite d ∧
    (openFile d path).pending d = text := by
  obtain ⟨place, hplace, hholds, hfinite⟩ := Disk.exists_holds_of_file? h
  rw [openFile, hplace]
  exact ⟨rfl, hfinite, hholds.rest_eq 0 []⟩

theorem askAll_of_ended (hfinite : stream.IsFinite d) (hended : stream.pending d = [])
    (kinds : List Ask) :
    ∀ found ∈ (stream.askAll d kinds).1, found = none := by
  induction kinds generalizing stream with
  | nil => exact List.forall_mem_nil _
  | cons kind kinds ih =>
    obtain ⟨found, next, hask, hnext, hgiven, _⟩ := ask_step hfinite kind
    rw [askAll, hask]
    have hleft : next.pending d = [] := by
      have hsuffix := hgiven.suffix
      rwa [hended, List.suffix_nil] at hsuffix
    exact List.forall_mem_cons.mpr ⟨hgiven.eq_none_iff.mpr hended, ih hnext hleft⟩

/-- A stream answers as the text that it holds would answer from memory, and holds what that
leaves. -/
theorem askAll_eq_memory (hfinite : stream.IsFinite d) (kinds : List Ask) :
    (stream.askAll d kinds).1 = ((memory (stream.pending d)).askAll d kinds).1 ∧
    (stream.askAll d kinds).2.IsFinite d := by
  induction kinds generalizing stream with
  | nil => exact ⟨rfl, hfinite⟩
  | cons kind kinds ih =>
    obtain ⟨found, next, hask, hnext, _, hmemory⟩ := ask_step hfinite kind
    obtain ⟨hothers, hlast⟩ := ih hnext
    rw [askAll, askAll, hask, hmemory, hothers]
    exact ⟨rfl, hlast⟩

theorem cover_askAll (hfinite : stream.IsFinite d) (kinds : List Ask) :
    ∃ consumed, stream.pending d = consumed ++ (stream.askAll d kinds).2.pending d ∧
      Piece.Cover (stream.askAll d kinds).1.reduceOption consumed
        ((stream.askAll d kinds).2.pending d) ∧
      ∀ line, .line line ∈ (stream.askAll d kinds).1.reduceOption → Byte.newline ∉ line := by
  induction kinds generalizing stream with
  | nil => exact ⟨[], rfl, .inl rfl, by simp [askAll]⟩
  | cons kind kinds ih =>
    obtain ⟨found, next, hask, hnext, hgiven, _⟩ := ask_step hfinite kind
    obtain ⟨consumed, htext, hcover, hlines⟩ := ih hnext
    rw [askAll, hask]
    obtain ⟨consumed', htext', hcover'⟩ := hgiven.cover htext hcover fun hleft =>
      askAll_of_ended hnext hleft kinds
    refine ⟨consumed', htext', hcover', fun line hmem => ?_⟩
    rw [List.reduceOption_mem_iff, List.mem_cons] at hmem
    rcases hmem with rfl | hmem
    · exact hgiven.not_mem
    · exact hlines line (List.reduceOption_mem_iff.mpr hmem)

/-- Reading loses nothing and invents nothing. Whatever is asked in whatever order, a file answers
as its text does from memory. The pieces that are given are the part of the text that was consumed,
where each line is followed by its end, unless it is the last one and had none. No line has an end
inside it. There is no further piece of either kind exactly if the whole text is consumed, and then
there never is. -/
theorem reading_loses_nothing (hfile : d.file? path = some text) (kinds : List Ask) :
    (openFile d path).isOpen ∧
    ((openFile d path).askAll d kinds).1 = ((memory text).askAll d kinds).1 ∧
    ∀ stream ∈ [memory text, openFile d path],
      let pieces := (stream.askAll d kinds).1.reduceOption
      let after := (stream.askAll d kinds).2
      ∃ consumed left, text = consumed ++ left ∧ Piece.Cover pieces consumed left ∧
        (∀ line, .line line ∈ pieces → Byte.newline ∉ line) ∧
        (∀ kind, (after.ask d kind).1 = none ↔ left = []) ∧
        (left = [] → ∀ later, ∀ found ∈ (after.askAll d later).1, found = none) := by
  obtain ⟨hopen, hfinite, hpending⟩ := openFile_of_file? hfile
  have hsame := (askAll_eq_memory hfinite kinds).1
  rw [hpending] at hsame
  refine ⟨hopen, hsame, fun stream hstream => ?_⟩
  obtain ⟨hfinite, rfl⟩ : stream.IsFinite d ∧ stream.pending d = text := by
    rcases List.mem_pair.mp hstream with rfl | rfl
    · exact ⟨trivial, rfl⟩
    · exact ⟨hfinite, hpending⟩
  have hafter := (askAll_eq_memory hfinite kinds).2
  obtain ⟨consumed, htext, hcover, hlines⟩ := cover_askAll hfinite kinds
  refine ⟨consumed, _, htext, hcover, hlines, fun kind => ?_, fun hended later =>
    askAll_of_ended hafter hended later⟩
  obtain ⟨found, next, hask, _, hgiven, _⟩ := ask_step hafter kind
  rw [hask]
  exact hgiven.eq_none_iff

/-- A file of two lines, the second one without an end: a byte, the rest of the first line, the
second line, and then nothing. -/
theorem reading_loses_nothing_lines :
    let disk := Disk.ofFiles [(Bytes.ofString "f", Bytes.ofString "ab\ncd")]
    ((openFile disk (Bytes.ofString "f")).askAll disk [.byte, .line, .line, .byte]).1 =
      [some (.byte 97), some (.line [98]), some (.line [99, 100]), none] := by
  intro disk
  have hfile : disk.file? (Bytes.ofString "f") = some [97, 98, 10, 99, 100] := by decide +kernel
  rw [(reading_loses_nothing hfile [.byte, .line, .line, .byte]).2.1]
  rfl

end InputStream

end HeapLisp
