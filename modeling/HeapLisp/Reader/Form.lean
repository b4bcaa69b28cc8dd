import HeapLisp.Bytes

namespace HeapLisp

/-- A form as written: a number, a string, a symbol by its name, or a list of forms. -/
inductive Form where
  | num (n : Int64)
  | str (bytes : Bytes)
  | sym (name : Bytes)
  | list (items : List Form)
deriving Repr

/-- The four marks that abbreviate a two-element list. -/
inductive Mark where
  | quote
  | template
  | unquote
  | splice
deriving DecidableEq, Repr

namespace Mark

def name : Mark → Bytes
  | quote => Bytes.ofString "quote"
  | template => Bytes.ofString "quasi-quote"
  | unquote => Bytes.ofString "unquote"
  | splice => Bytes.ofString "unquote-splicing"

def wrap (m : Mark) (f : Form) : Form := .list [.sym m.name, f]

end Mark

end HeapLisp
