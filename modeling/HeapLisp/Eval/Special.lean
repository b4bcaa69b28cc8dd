import HeapLisp.Eval.Session

namespace HeapLisp.Eval

/-- A new closure; its form is a new list that nothing else refers to. -/
def makeClosure (scope : Addr) (kind : ClosureKind) (params : Value) (body : List Value) :
    Eval Value := do
  match ← itemsOf params with
  | none => raise scope .notList params
  | some _ =>
    let form ← perform (.alloc (.list (.sym kind.symbol :: params :: body).toArray))
    alloc (.function (.closure ⟨kind, form, scope⟩))

/-- The value of the first clause whose test is true. A clause without a body has the value of its
test. -/
def cond (scope : Addr) : List Value → Eval Value
  | [] => return .nil
  | clause :: clauses => do
    match ← itemsOf clause with
    | some (test :: body) =>
      let v ← evaluate scope test
      if v.isNil then cond scope clauses
      else if body.isEmpty then return v
      else sequence scope .nil body
    | _ => raise scope .notClause clause

def arePairs (args : List Value) : Bool := !args.isEmpty && args.length % 2 == 0

/-- Neighbours two by two; an odd one at the end has no partner. -/
def pairs? : List Value → Option (List (Value × Value))
  | [] => some []
  | [_] => none
  | a :: b :: rest => (pairs? rest).map ((a, b) :: ·)

def inPairs (args : List Value) : Eval (List (Value × Value)) :=
  match pairs? args with
  | some pairs => return pairs
  | none => overrun

def defineAll (scope : Addr) (last : Value) : List (Value × Value) → Eval Value
  | [] => return last
  | (name, form) :: rest => do
    let s ← symArg scope name
    let v ← evaluate scope form
    define scope s v
    defineAll scope v rest

/-- Changes symbols to the values of forms, in turn, where they are bound. -/
def assignAll (scope : Addr) (last : Value) : List (Value × Value) → Eval Value
  | [] => return last
  | (name, form) :: rest => do
    let s ← symArg scope name
    let v ← evaluate scope form
    if ← assign scope s v then assignAll scope v rest else raise scope .unboundSymbol name

/-- What a special form does with as many forms as it takes. -/
def specialBody (scope : Addr) : SpecialForm → List Value → Eval Value
  | .quote, [v] => return v
  | .template, [template] => fill scope template
  | .lambda, params :: body => makeClosure scope .lambda params body
  | .expander, params :: body => makeClosure scope .expander params body
  | .defineExpander, name :: params :: body => do
    let s ← symArg scope name
    let f ← makeClosure scope .expander params body
    define scope s f
    return f
  | .cond, clauses => cond scope clauses
  | .loop, test :: body => iterate (.repeating scope test body .nil)
  | .catchError, forms => do
    match ← attempt (sequence scope .nil forms) with
    | .ok v => return v
    | .error e => return .ref e
  | .scope, [] => return .ref scope
  | .scope, [form] => do
    let parent ← evaluate scope form
    if parent.isNil then alloc (.scope (.inside none))
    else
      let parent ← scopeArg scope parent
      alloc (.scope (.inside (some parent)))
  | .define, args => do
    if arePairs args then defineAll scope .nil (← inPairs args) else refuseArgs scope args
  | .assign, args => do
    if arePairs args then assignAll scope .nil (← inPairs args) else refuseArgs scope args
  | _, _ => overrun

def runSpecial (scope : Addr) (form : SpecialForm) (args : List Value) : Eval Value :=
  if form.arity.admits args.length then specialBody scope form args else refuseArgs scope args

end HeapLisp.Eval
