import HeapLisp.Bytes
import Std.Data.TreeMap.Lemmas

namespace HeapLisp

/-- A symbol is the position of its name in the symbol table, so equal symbols are equal numbers. -/
structure Symbol where
  index : Nat
deriving DecidableEq, Repr

/-- The names interned so far, each once, and the position of each. -/
structure SymbolTable where
  names : Array ByteArray
  positions : Std.TreeMap Bytes Nat
  distinct : names.toList.Nodup
  positions_eq : ∀ name, positions[name]? = names.toList.findIdx? (Bytes.ofPacked · == name)

namespace SymbolTable

def empty : SymbolTable := ⟨#[], ∅, by simp, by simp⟩

def size (t : SymbolTable) : Nat := t.names.size

def find? (t : SymbolTable) (name : Bytes) : Option Symbol := t.positions[name]?.map Symbol.mk

/-- The bytes of a symbol's name; a symbol of another table may have none. -/
def spelling? (t : SymbolTable) (s : Symbol) : Option ByteArray := t.names[s.index]?

def nameOf? (t : SymbolTable) (s : Symbol) : Option Bytes := (t.spelling? s).map Bytes.ofPacked

/-- The name of a symbol of this table. -/
def nameOf (t : SymbolTable) (s : Symbol) : Bytes := (t.nameOf? s).getD []

theorem find?_eq (t : SymbolTable) (name : Bytes) :
    t.find? name = (t.names.toList.findIdx? (Bytes.ofPacked · == name)).map Symbol.mk := by
  rw [find?, t.positions_eq]

theorem not_mem_of_find?_eq_none {t : SymbolTable} {name : Bytes} (h : t.find? name = none) :
    name.toByteArray ∉ t.names.toList := by
  simp only [find?_eq, Option.map_eq_none_iff, List.findIdx?_eq_none_iff, beq_eq_false_iff_ne] at h
  exact fun hm => h name.toByteArray hm (Bytes.ofPacked_toByteArray name)

/-- Adds a name that is not there yet at the end. -/
def add (t : SymbolTable) (name : Bytes) (h : t.find? name = none) : SymbolTable :=
  let position := t.names.size
  { names := t.names.push name.toByteArray
    positions := t.positions.insert name position
    distinct := by
      have hn := not_mem_of_find?_eq_none h
      simp only [Array.toList_push, List.nodup_append, List.nodup_cons, List.not_mem_nil,
        not_false_eq_true, List.nodup_nil, and_self, List.mem_singleton, true_and]
      exact ⟨t.distinct, fun a ha b hb hab => hn (hb ▸ hab ▸ ha)⟩
    positions_eq := by
      intro other
      rw [Std.TreeMap.getElem?_insert, Array.toList_push, List.findIdx?_append, t.positions_eq]
      by_cases he : name = other
      · subst he
        have hn : t.names.toList.findIdx? (Bytes.ofPacked · == name) = none := by
          simpa only [find?_eq, Option.map_eq_none_iff] using h
        rw [hn]
        simp [position]
      · have hc : compare name other ≠ .eq := fun hc => he (Std.LawfulEqOrd.eq_of_compare hc)
        simp [hc, he] }

/-- The symbol that a name has, or gets when it is interned. -/
def symbolOf (t : SymbolTable) (name : Bytes) : Symbol := (t.find? name).getD ⟨t.size⟩

def insert (t : SymbolTable) (name : Bytes) : SymbolTable :=
  match h : t.find? name with
  | some _ => t
  | none => t.add name h

def intern (t : SymbolTable) (name : Bytes) : Symbol × SymbolTable :=
  (t.symbolOf name, t.insert name)

def internAll (t : SymbolTable) (names : List Bytes) : SymbolTable :=
  names.foldl insert t

end SymbolTable

namespace Symbol

def nil : Symbol := ⟨0⟩
def t : Symbol := ⟨1⟩
def underscore : Symbol := ⟨2⟩
def rest : Symbol := ⟨3⟩
def optional : Symbol := ⟨4⟩
def lambda : Symbol := ⟨5⟩
def expander : Symbol := ⟨6⟩
def quote : Symbol := ⟨7⟩
def template : Symbol := ⟨8⟩
def unquote : Symbol := ⟨9⟩
def splice : Symbol := ⟨10⟩
def streamName : Symbol := ⟨11⟩
def streamLine : Symbol := ⟨12⟩

/-- The names of the symbols that evaluation knows, in the order of their numbers. -/
def wellKnown : List Bytes :=
  ["nil", "t", "_", "&rest", "&optional", "lambda", "macro", "quote", "quasi-quote", "unquote",
    "unquote-splicing", "*stream-name*", "*stream-line*"].map Bytes.ofString

end Symbol

end HeapLisp
