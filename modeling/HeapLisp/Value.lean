import HeapLisp.Store.Basic
import HeapLisp.Symbol

namespace HeapLisp

/-- A value is a number, a symbol, or the address of an object. -/
inductive Value where
  | num (n : Int64)
  | sym (s : Symbol)
  | ref (a : Addr)
deriving DecidableEq, Repr

namespace Value

def nil : Value := .sym .nil

instance : Inhabited Value := ⟨nil⟩

def t : Value := .sym .t

/-- Truth as the language sees it. -/
def ofBool (b : Bool) : Value := if b then t else nil

def isNil (v : Value) : Bool := v == nil

def ofNat (n : Nat) : Value := .num (Int64.ofNat n)

def addr? : Value → Option Addr
  | ref a => some a
  | _ => none

/-- A number of its own for every value. -/
def key : Value → Nat
  | num n => 3 * n.toUInt64.toNat
  | sym s => 3 * s.index + 1
  | ref a => 3 * a.index + 2

theorem eq_of_key_eq {v w : Value} (h : v.key = w.key) : v = w := by
  cases v <;> cases w <;> simp only [key] at h
  case num.num m n =>
    obtain ⟨m⟩ := m
    obtain ⟨n⟩ := n
    have : m = n := UInt64.toNat_inj.1 (by simp only at h; omega)
    rw [this]
  case sym.sym s t =>
    obtain ⟨i⟩ := s
    obtain ⟨j⟩ := t
    have : i = j := by simp only at h; omega
    rw [this]
  case ref.ref a b =>
    obtain ⟨i⟩ := a
    obtain ⟨j⟩ := b
    have : i = j := by simp only at h; omega
    rw [this]
  all_goals omega

end Value

/-- A line of a named source. -/
structure Location where
  name : Bytes
  line : Int64
deriving DecidableEq, Repr

def Location.unknown : Location := ⟨Bytes.ofString "<unknown>", 0⟩

end HeapLisp
