import HeapLisp.Eval.Basic

namespace HeapLisp.Eval

/-- A number stands for itself, a symbol for its value, a list that is not empty for a call, and any
other object for itself. -/
def evaluate (scope : Addr) : Value → Eval Value
  | .num n => return .num n
  | .sym s => do
    match ← lookup scope s with
    | some v => return v
    | none => raise scope .unboundSymbol (.sym s)
  | .ref a => do
    match (← fetch a).items? with
    | some (head :: args) => enter ⟨scope, .ref a, .combine head args⟩
    | _ => return .ref a

/-- Evaluates forms from left to right, after those whose values are in `before`, last first. -/
def evaluateOnto (scope : Addr) (before : List Value) : List Value → Eval (List Value)
  | [] => return before.reverse
  | form :: forms => do
    let v ← evaluate scope form
    evaluateOnto scope (v :: before) forms

def evaluateAll (scope : Addr) (forms : List Value) : Eval (List Value) :=
  evaluateOnto scope [] forms

def sequence (scope : Addr) (last : Value) : List Value → Eval Value
  | [] => return last
  | form :: forms => do
    let v ← evaluate scope form
    sequence scope v forms

def functionOf : Value → Eval (Option Function)
  | .ref a => do
    match ← fetch a with
    | .function f => return some f
    | _ => return none
  | _ => return none

/-- Binds one name: a symbol to the value, or a list of names to the items of the value. -/
def bindOne (scope : Addr) (name v : Value) : Eval Unit :=
  match name with
  | .sym s => define scope s v
  | .num _ => raise scope .notSymbol name
  | .ref a => do
    match ← fetch a with
    | .list _ =>
      match ← itemsOf v with
      | some items => discard (enter ⟨scope, name, .bind name items⟩)
      | none => raise scope .notList v
    | _ => raise scope .notSymbol name

/-- Binds names to the arguments left. After `&optional` a missing argument is `nil`; the name after
`&rest` gets a new list of all that are left, and what follows it is ignored. -/
def bindNames (scope : Addr) (params : Value) (args : List Value) :
    (names left : List Value) → (optional : Bool) → Eval Unit
  | [], [], _ => return ()
  | [], _ :: _, _ => refuseArgs scope args
  | name :: names, left, optional =>
    if name = .sym .rest then
      match names with
      | [] => raise scope .missingRestName params
      | restName :: _ => do
        let remaining ← newList left
        bindOne scope restName remaining
    else if name = .sym .optional then bindNames scope params args names left true
    else
      match left with
      | v :: left => do
        bindOne scope name v
        bindNames scope params args names left optional
      | [] =>
        if optional then do
          bindOne scope name .nil
          bindNames scope params args names [] optional
        else refuseArgs scope args

def bindParams (scope : Addr) (params : Value) (args : List Value) : Eval Unit := do
  match ← itemsOf params with
  | some names => bindNames scope params args names args false
  | none => raise scope .notList params

def applyClosure (c : Closure) (args : List Value) : Eval Value := do
  match ← itemsOf (.ref c.form) with
  | some (_ :: params :: body) =>
    let scope ← perform (.alloc (.scope (.inside (some c.scope))))
    bindParams scope params args
    sequence scope .nil body
  | _ => raise c.scope .malformedFunction (.ref c.form)

/-- Calls a function with evaluated arguments, one level deeper. An expander's expansion is not
evaluated. -/
def apply (scope : Addr) (f : Value) (args : List Value) : Eval Value := do
  match ← functionOf f with
  | some (.native n) => enter ⟨scope, f, .native n args⟩
  | some (.closure c) => enter ⟨scope, f, .closure c args⟩
  | none => raise scope .notFunction f

/-- Fills the items of a template after those in `before`, last first: the items of a spliced list
take its place, any other item is filled one level deeper. -/
def fillItems (scope : Addr) (before : List Value) : List Value → Eval (List Value)
  | [] => return before.reverse
  | item :: items => do
    match ← itemsOf item with
    | some [.sym .splice, arg] =>
      let spliced ← evaluate scope arg
      match ← itemsOf spliced with
      | some values => fillItems scope (values.reverse ++ before) items
      | none => raise scope .notList spliced
    | _ =>
      let v ← enter ⟨scope, item, .fill item⟩
      fillItems scope (v :: before) items

/-- Fills a template: a two-element list headed by `unquote` is evaluated, any other list is copied
with its items filled, and what is not a list stands for itself. -/
def fill (scope : Addr) (template : Value) : Eval Value := do
  match ← itemsOf template with
  | none => return template
  | some [.sym .unquote, arg] => evaluate scope arg
  | some items =>
    let filled ← fillItems scope [] items
    newList filled

end HeapLisp.Eval
