import HeapLisp.Bytes

namespace HeapLisp.Utf8

/-- The ranges that the bytes after a lead byte must lie in, or nothing for a byte that starts no
character. -/
def followers (lead : UInt8) : Option (List (UInt8 × UInt8)) :=
  if lead < 0x80 then some []
  else if lead < 0xc2 then none
  else if lead < 0xe0 then some [(0x80, 0xbf)]
  else if lead = 0xe0 then some [(0xa0, 0xbf), (0x80, 0xbf)]
  else if lead = 0xed then some [(0x80, 0x9f), (0x80, 0xbf)]
  else if lead < 0xf0 then some [(0x80, 0xbf), (0x80, 0xbf)]
  else if lead = 0xf0 then some [(0x90, 0xbf), (0x80, 0xbf), (0x80, 0xbf)]
  else if lead < 0xf4 then some [(0x80, 0xbf), (0x80, 0xbf), (0x80, 0xbf)]
  else if lead = 0xf4 then some [(0x80, 0x8f), (0x80, 0xbf), (0x80, 0xbf)]
  else none

/-- How many bytes at the front of `text` lie in the given ranges, one after the other. -/
def matching : List (UInt8 × UInt8) → Bytes → Nat
  | (lo, hi) :: ranges, b :: text => if lo ≤ b && b ≤ hi then matching ranges text + 1 else 0
  | _, _ => 0

def replacement : Bytes := [0xef, 0xbf, 0xbd]

def isValid : Bytes → Bool
  | [] => true
  | b :: rest =>
    match followers b with
    | none => false
    | some ranges => matching ranges rest == ranges.length && isValid (rest.drop ranges.length)
termination_by text => text.length

/-- The text with every maximal ill-formed part replaced. -/
def repair : Bytes → Bytes
  | [] => []
  | b :: rest =>
    match followers b with
    | none => replacement ++ repair rest
    | some ranges =>
      let n := matching ranges rest
      (if n = ranges.length then b :: rest.take n else replacement) ++ repair (rest.drop n)
termination_by text => text.length

def scrub (text : Bytes) : Bytes := if isValid text then text else repair text

end HeapLisp.Utf8
