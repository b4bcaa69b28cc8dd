import HeapLisp.Proofs.Reader.Locality
import HeapLisp.Stream.Input

namespace HeapLisp

namespace FileReader

variable {r : FileReader} {d : Disk} {place : Place} {file : Bytes} {n : Nat}

/-- What is seen of the file at a place is a part of its bytes. -/
structure Holds (d : Disk) (place : Place) (file : Bytes) : Prop where
  extent_eq : extent place d = file.length
  content_eq : ∀ offset count, content place offset count d = (file.drop offset).take count

theorem holds_of_file {bytes : ByteArray} (hnode : d.node? place = some (.file bytes)) :
    Holds d place (Bytes.ofPacked bytes) := by
  refine ⟨by simp [extent, hnode, Bytes.ofPacked_eq], ?_⟩
  intro offset count
  simp [content, hnode, Bytes.ofPacked_eq, List.extract_eq_take_drop]

theorem holds_of_device {device : Device} (hnode : d.node? place = some (.device device))
    (hend : device.isEndless = false) :
    Holds d place [] :=
  ⟨by simp [extent, hnode, hend], by simp [content, hnode, hend]⟩

theorem exists_holds (h : ∀ device, d.node? place = some (.device device) →
    device.isEndless = false) :
    ∃ file, Holds d place file := by
  cases hnode : d.node? place with
  | none => exact ⟨[], by simp [extent, hnode], by simp [content, hnode]⟩
  | some node =>
    cases node with
    | folder => exact ⟨[], by simp [extent, hnode], by simp [content, hnode]⟩
    | device device => exact ⟨[], holds_of_device hnode (h device hnode)⟩
    | file bytes => exact ⟨Bytes.ofPacked bytes, holds_of_file hnode⟩

namespace Holds

theorem ahead_eq (h : Holds d place file) (offset : Nat) (buffered : Bytes) (count : Nat) :
    ahead ⟨place, offset, buffered⟩ d count = buffered ++ (file.drop offset).take count := by
  rw [ahead, h.content_eq]

theorem rest_eq (h : Holds d place file) (offset : Nat) (buffered : Bytes) :
    rest ⟨place, offset, buffered⟩ d = buffered ++ file.drop offset := by
  rw [rest, h.ahead_eq, h.extent_eq, List.take_of_length_le (by simp)]

theorem drop_take_append {tail : Bytes} {size : Nat} (h : n ≤ (tail.take size).length) :
    (tail.take size).drop n ++ tail.drop (tail.take size).length = tail.drop n := by
  have hall : tail.take size ++ tail.drop (tail.take size).length = tail := by
    rw [List.length_take]
    rcases Nat.le_total size tail.length with hle | hle
    · rw [Nat.min_eq_left hle, List.take_append_drop]
    · rw [Nat.min_eq_right hle, List.drop_length, List.take_of_length_le hle, List.append_nil]
  rw [← List.drop_append_of_le_length h, hall]

theorem rest_skip (h : Holds d r.place file) (hn : n ≤ (r.rest d).length) :
    (r.skip d n).rest d = (r.rest d).drop n := by
  obtain ⟨place, offset, buffered⟩ := r
  dsimp only at h
  rw [h.rest_eq] at hn ⊢
  unfold skip
  dsimp only
  split_ifs with hle
  · rw [h.rest_eq, List.drop_append_of_le_length hle]
  · have hbuffered : buffered.length < n := by omega
    obtain ⟨ahead, rfl⟩ : ∃ ahead, n = buffered.length + ahead := ⟨n - buffered.length, by omega⟩
    rw [Nat.add_sub_cancel_left]
    -- whole buffers are passed over, and what is left lies in the next one
    generalize hwhole : (ahead - 1) / bufferSize * bufferSize = whole
    have hpart : whole ≤ ahead ∧ ahead - whole ≤ bufferSize := by
      rw [bufferSize] at hwhole ⊢
      omega
    have htail : ahead - whole ≤ ((file.drop (offset + whole)).take bufferSize).length := by
      simp only [List.length_append, List.length_drop, List.length_take] at hn ⊢
      omega
    have hsplit : ∀ k, file.drop (offset + whole + k) = (file.drop (offset + whole)).drop k :=
      fun k => by
      rw [List.drop_drop]
    have hfile : offset + whole + (ahead - whole) = offset + ahead := by omega
    rw [h.rest_eq, chunk, h.content_eq, hsplit, drop_take_append htail, ← hsplit, hfile,
      List.drop_length_add_append, List.drop_drop]

/-- Consuming all but the end of what is still to come leaves that end. -/
theorem rest_skip_of_suffix {left : Bytes} (h : Holds d r.place file) (hleft : left <:+ r.rest d) :
    (r.skip d ((r.rest d).length - left.length)).rest d = left := by
  rw [h.rest_skip (Nat.sub_le _ _)]
  exact (List.suffix_iff_eq_drop.mp hleft).symm

end Holds

theorem exists_rest_eq (r : FileReader) (d : Disk) (count : Nat) :
    ∃ more, r.rest d = r.ahead d count ++ more := by
  obtain ⟨place, offset, buffered⟩ := r
  by_cases hfinite : ∀ device, d.node? place = some (.device device) → device.isEndless = false
  · obtain ⟨file, h⟩ := exists_holds hfinite
    refine ⟨(file.drop offset).drop count, ?_⟩
    rw [h.rest_eq, h.ahead_eq, List.append_assoc, List.take_append_drop]
  · push Not at hfinite
    obtain ⟨device, hnode, hend⟩ := hfinite
    have hcontent : ∀ count, content place offset count d = List.replicate
        (min count bufferSize) 0 :=
      fun count => by
      simp [content, hnode, hend]
    have hextent : extent place d = bufferSize := by simp [extent, hnode, hend]
    -- of an endless file a buffer's worth is still to come, all of it alike
    refine ⟨List.replicate (bufferSize - min count bufferSize) 0, ?_⟩
    rw [rest, ahead, ahead, hcontent, hcontent, hextent, List.append_assoc,
      List.replicate_append_replicate]
    congr 2
    omega

theorem skip_place (r : FileReader) (d : Disk) (n : Nat) : (r.skip d n).place = r.place := by
  unfold skip
  split_ifs <;> rfl

/-- What a search finds, it finds in a part of what is still to come. -/
theorem exists_of_searchFrom {α : Type} {f : Bytes → Option α} {a : α} {tries count : Nat}
    (h : r.searchFrom d f tries count = some a) : ∃ count, f (r.ahead d count) = some a := by
  induction tries generalizing count with
  | zero => simp [searchFrom] at h
  | succ tries ih =>
    rw [searchFrom] at h
    cases hf : f (r.ahead d count) with
    | none =>
      rw [hf] at h
      exact ih h
    | some found =>
      rw [hf] at h
      exact ⟨count, hf.trans h⟩

end FileReader

namespace InputStream

variable {d : Disk} {limit : Nat} {mark mark' : Bookmark} {reading : Reading} {left : Bytes}

/-- Everything a stream still holds. -/
def pending (d : Disk) : InputStream → Bytes
  | memory text => text
  | file none => []
  | file (some r) => r.rest d

/-- The stream comes to an end: it is over no endless device. -/
def IsFinite (d : Disk) : InputStream → Prop
  | file (some r) => ∀ device, d.node? r.place = some (.device device) → device.isEndless = false
  | _ => True

/-- The stream once all but the end of what it holds has been consumed. -/
def leaving (d : Disk) (left : Bytes) : InputStream → InputStream
  | memory _ => memory left
  | file none => file none
  | file (some r) => file (some (r.skip d ((r.rest d).length - left.length)))

theorem pending_leaving {stream : InputStream} (hfinite : stream.IsFinite d)
    (h : left <:+ stream.pending d) :
    (stream.leaving d left).IsFinite d ∧ (stream.leaving d left).pending d = left := by
  match stream with
  | memory text => exact ⟨trivial, rfl⟩
  | file none => exact ⟨trivial, (List.suffix_nil.mp h).symm⟩
  | file (some r) =>
    obtain ⟨bytes, hbytes⟩ := FileReader.exists_holds hfinite
    constructor
    · rw [leaving, IsFinite, r.skip_place]
      exact hfinite
    · exact hbytes.rest_skip_of_suffix h

/-- A reading within a part of a text is the reading of the whole. -/
theorem readAt_of_readWithin {text : Bytes} {consumed : Nat}
    (h : readWithin limit mark text = some (reading, mark', consumed)) (more : Bytes) :
    ∃ left, Reader.readAt limit mark (text ++ more) = (reading, mark', left) ∧
      consumed = (text ++ more).length - left.length := by
  unfold readWithin at h
  rcases hread : Reader.readAt limit mark text with ⟨found, place, _ | ⟨b, left⟩⟩ <;>
    rw [hread] at h
  · cases h
  · cases h
    refine ⟨b :: left ++ more, Reader.readAt_append hread (by simp) more, ?_⟩
    simp only [List.length_append]
    omega

theorem readForm_reader {r : FileReader}
    (h : Reader.readAt limit mark (r.rest d) = (reading, mark', left)) :
    readForm d limit mark (.file (some r)) =
      (reading, mark', .file (some (r.skip d ((r.rest d).length - left.length)))) := by
  rw [readForm]
  rcases hbuffered : Reader.readAt limit mark r.buffered with ⟨found, place, _ | ⟨b, buffered⟩⟩
  · dsimp only
    cases hsearch : r.search d (readWithin limit mark) with
    | none =>
      dsimp only
      rw [h]
    | some result =>
      obtain ⟨found, place, consumed⟩ := result
      obtain ⟨count, hwithin⟩ := FileReader.exists_of_searchFrom hsearch
      obtain ⟨more, hmore⟩ := r.exists_rest_eq d count
      obtain ⟨left, hread, rfl⟩ := readAt_of_readWithin hwithin more
      rw [← hmore] at hread ⊢
      cases h.symm.trans hread
      rfl
  · dsimp only
    have hsuffix := Reader.readAt_suffix limit mark r.buffered
    rw [hbuffered] at hsuffix
    rw [FileReader.rest, FileReader.ahead, Reader.readAt_append hbuffered (by simp)] at h
    cases h
    rw [FileReader.rest, FileReader.ahead, List.length_append, List.length_append,
      Nat.add_sub_add_right, FileReader.skip, if_pos (Nat.sub_le _ _)]
    rw [← List.suffix_iff_eq_drop.mp hsuffix]

/-- A form is read from a stream as it is read from what the stream still holds. -/
theorem readForm_eq {stream : InputStream}
    (h : Reader.readAt limit mark (stream.pending d) = (reading, mark', left)) :
    stream.readForm d limit mark = (reading, mark', stream.leaving d left) := by
  match stream with
  | memory text =>
    rw [pending] at h
    rw [readForm, h]
    rfl
  | file none =>
    rw [pending] at h
    rw [readForm, h]
    rfl
  | file (some r) => exact readForm_reader h

end InputStream

end HeapLisp
