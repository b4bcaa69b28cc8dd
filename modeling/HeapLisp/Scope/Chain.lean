import HeapLisp.Object

namespace HeapLisp.Store

/-- The scope that a symbol is bound in, seen from `a`, over at most `steps` scopes. -/
def ownerWithin (st : Store Object) (s : Symbol) : (steps : Nat) → Addr → Option (Option Addr)
  | 0, _ => some none
  | steps + 1, a =>
    match st.get? a with
    | none => none
    | some (.scope scope) =>
      if (scope.bindings.get? s).isSome then some (some a)
      else
        match scope.parent with
        | none => some none
        | some parent => ownerWithin st s steps parent
    | some _ => some none

/-- The scope that a symbol is bound in, seen from `a`; a walk without repetition meets no more
scopes than there are slots. -/
def owner? (st : Store Object) (a : Addr) (s : Symbol) : Option (Option Addr) :=
  ownerWithin st s st.capacity a

def local? (st : Store Object) (a : Addr) (s : Symbol) : Option (Option Value) :=
  match st.get? a with
  | none => none
  | some (.scope scope) => some (scope.bindings.get? s)
  | some _ => some none

def lookup (st : Store Object) (a : Addr) (s : Symbol) : Option (Option Value) :=
  match st.owner? a s with
  | none => none
  | some none => some none
  | some (some o) => st.local? o s

def modifyBindings (st : Store Object) (a : Addr) (f : Bindings → Bindings) : Store Object :=
  st.modify a (Object.mapBindings f)

/-- Binds a symbol in one scope; the answer tells whether there was a scope to bind it in. -/
def define (st : Store Object) (a : Addr) (s : Symbol) (v : Value) : Option (Bool × Store Object) :=
  match st.get? a with
  | none => none
  | some (.scope _) => some (true, st.modifyBindings a (·.insert s v))
  | some _ => some (false, st)

/-- Changes a symbol where it is bound, seen from `a`; the answer is the scope that it is bound
in. -/
def assign (st : Store Object) (a : Addr) (s : Symbol) (v : Value) :
    Option (Option Addr × Store Object) :=
  match st.owner? a s with
  | none => none
  | some none => some (none, st)
  | some (some o) => some (some o, st.modifyBindings o (·.insert s v))

def parent? (st : Store Object) (a : Addr) : Option (Option Addr) :=
  match st.get? a with
  | none => none
  | some (.scope scope) => some scope.parent
  | some _ => some none

/-- Whether the walk from `start` meets `a`, over at most `steps` scopes. -/
def meetsWithin (st : Store Object) (a : Addr) : (steps : Nat) → (start : Option Addr) → Option Bool
  | _, none => some false
  | 0, some start => some (start = a)
  | steps + 1, some start =>
    if start = a then some true
    else
      match st.parent? start with
      | none => none
      | some parent => meetsWithin st a steps parent

/-- Moves a scope into another one, unless it lies around that one already; the answer tells whether
it moved. -/
def setParent (st : Store Object) (a : Addr) (parent : Option Addr) :
    Option (Bool × Store Object) :=
  match st.meetsWithin a st.capacity parent with
  | none => none
  | some true => some (false, st)
  | some false =>
    match st.get? a with
    | none => none
    | some (.scope scope) => some (true, st.set a (.scope { scope with parent := parent }))
    | some _ => some (false, st)

end HeapLisp.Store
