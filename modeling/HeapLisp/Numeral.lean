import HeapLisp.Bytes

namespace HeapLisp.Numeral

def decimal (n : Nat) : Bytes :=
  if n < 10 then [48 + n.toUInt8] else decimal (n / 10) ++ [48 + (n % 10).toUInt8]

def ofInt : Int → Bytes
  | .ofNat n => decimal n
  | .negSucc n => Byte.minus :: decimal (n + 1)

/-- The value of a digit; letters of either case follow nine. -/
def digit (b : UInt8) : Option Nat :=
  if 48 ≤ b && b ≤ 57 then some (b.toNat - 48)
  else if 97 ≤ b && b ≤ 122 then some (b.toNat - 87)
  else if 65 ≤ b && b ≤ 90 then some (b.toNat - 55)
  else none

/-- The number that digits of `radix` denote after the part worth `value`, if it is at most `limit`.
Digits never make a number smaller, so it is refused as soon as it is too large, and at the first
byte that is no digit. -/
def magnitude (limit radix value : Nat) : Bytes → Option Nat
  | [] => some value
  | b :: rest =>
    match digit b with
    | some d =>
      if d < radix ∧
        value * radix + d ≤ limit then magnitude limit radix (value * radix + d) rest else none
    | none => none

/-- The radix that a leading mark chooses, and the digits after it. -/
def radixOf : Bytes → Nat × Bytes
  | 48 :: 120 :: digits => (16, digits)
  | 48 :: 98 :: digits => (2, digits)
  | 48 :: 111 :: digits => (8, digits)
  | digits => (10, digits)

/-- The number that an unsigned numeral denotes, if it is at most `limit`: an optional radix mark
and at least one digit. -/
def unsigned (limit : Nat) (text : Bytes) : Option Nat :=
  match radixOf text with
  | (_, []) => none
  | (radix, digits) => magnitude limit radix 0 digits

def maxMagnitude : Nat := 0x8000000000000000

def parse : Bytes → Option Int64
  | 45 :: body => (unsigned maxMagnitude body).map fun n => Int64.ofInt (-n)
  | body => (unsigned (maxMagnitude - 1) body).map Int64.ofNat

/-- Whether an atom has to be a number: a digit comes first, or right after a minus sign. -/
def looksNumeric : Bytes → Bool
  | 45 :: b :: _ => Byte.isDigit b
  | b :: _ => Byte.isDigit b
  | [] => false

end HeapLisp.Numeral
