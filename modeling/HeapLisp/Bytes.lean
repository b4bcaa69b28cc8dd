namespace HeapLisp

/-- Text, as bytes: a string may hold any bytes at all. -/
abbrev Bytes := List UInt8

namespace Byte

def newline : UInt8 := 10
def space : UInt8 := 32
def doubleQuote : UInt8 := 34
def quote : UInt8 := 39
def openParen : UInt8 := 40
def closeParen : UInt8 := 41
def comma : UInt8 := 44
def minus : UInt8 := 45
def semicolon : UInt8 := 59
def atSign : UInt8 := 64
def backquote : UInt8 := 96

/-- Tab, the other line and page breaks up to carriage return, and the space. -/
def isBlank (b : UInt8) : Bool := (9 ≤ b && b ≤ 13) || b == space

def isDigit (b : UInt8) : Bool := 48 ≤ b && b ≤ 57

end Byte

namespace Bytes

def ofString (s : String) : Bytes := s.toUTF8.data.toList

/-- The first `n` bytes of packed text, before those in `after`. -/
def unpackBefore (after : Bytes) (text : ByteArray) : (n : Nat) → Bytes
  | 0 => after
  | n + 1 =>
    match text[n]? with
    | some b => unpackBefore (b :: after) text n
    | none => unpackBefore after text n

def ofPacked (text : ByteArray) : Bytes := unpackBefore [] text text.size

def appendTo (text : ByteArray) (bytes : Bytes) : ByteArray := bytes.foldl ByteArray.push text

theorem unpackBefore_eq (after : Bytes) (text : ByteArray) (n : Nat) :
    unpackBefore after text n = text.data.toList.take n ++ after := by
  induction n generalizing after with
  | zero => simp [unpackBefore]
  | succ n ih =>
    rw [unpackBefore]
    by_cases h : n < text.size
    · have hn : n < text.data.size := by simpa using h
      rw [getElem?_pos text n h]
      simp [ih, ByteArray.getElem_eq_getElem_data, List.take_add_one, getElem?_pos text.data n hn]
    · have hn : text.data.toList.length ≤ n := by simpa using h
      rw [getElem?_neg text n h]
      simp [ih, List.take_of_length_le hn, List.take_of_length_le (Nat.le_succ_of_le hn)]

theorem ofPacked_eq (text : ByteArray) : ofPacked text = text.data.toList := by
  rw [ofPacked, unpackBefore_eq, List.append_nil, List.take_of_length_le (by simp)]

@[simp] theorem ofPacked_toByteArray (bytes : Bytes) : ofPacked bytes.toByteArray = bytes := by
  rw [ofPacked_eq, List.toList_data_toByteArray]

theorem ofPacked_inj {x y : ByteArray} : ofPacked x = ofPacked y ↔ x = y := by
  rw [ofPacked_eq, ofPacked_eq, Array.toList_inj, ByteArray.ext_iff]

theorem ofPacked_appendTo (text : ByteArray) (bytes : Bytes) :
    ofPacked (appendTo text bytes) = ofPacked text ++ bytes := by
  induction bytes generalizing text with
  | nil => simp [appendTo]
  | cons b rest ih =>
    have := ih (text.push b)
    simp only [appendTo, List.foldl_cons, ofPacked_eq] at this ⊢
    simp [this]

/-- The first differing byte decides by its difference; without one the difference of the lengths
does. -/
def compare : Bytes → Bytes → Int
  | [], bs => -bs.length
  | as, [] => as.length
  | a :: as, b :: bs => if a = b then compare as bs else (a.toNat : Int) - b.toNat

def lineBreaks (text : Bytes) : Nat := text.count Byte.newline

/-- The maximal runs of bytes that are not separators, in order. -/
def runs (separator : UInt8 → Bool) : Bytes → List Bytes
  | [] => []
  | b :: rest =>
    if separator b then runs separator rest
    else (b :: rest.takeWhile (!separator ·)) :: runs separator (rest.dropWhile (!separator ·))
termination_by text => text.length
decreasing_by
  · simp
  · exact Nat.lt_succ_of_le (List.dropWhile_sublist _).length_le

end Bytes

end HeapLisp
