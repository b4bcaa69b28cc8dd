import HeapLisp.Eval.Control
import HeapLisp.Eval.Sequences

namespace HeapLisp

namespace Eval

/-- What a function does with as many arguments as it takes. -/
def primitiveBody (scope : Addr) : Primitive → List Value → Eval Value
  | .add, args => foldNums scope args (· + ·)
  | .sub, args => foldNums scope args (· - ·)
  | .mul, args => foldNums scope args (· * ·)
  | .div, args => divideNums scope args Arithmetic.quotient
  | .rem, args => divideNums scope args Arithmetic.remainder
  | .max, args => foldNums scope args max
  | .min, args => foldNums scope args min
  | .eq, args => compareNums scope args (· == ·)
  | .lt, args => compareNums scope args (· < ·)
  | .gt, args => compareNums scope args (· > ·)
  | .le, args => compareNums scope args (· ≤ ·)
  | .ge, args => compareNums scope args (· ≥ ·)
  | .ne, args => do return .ofBool (Arithmetic.distinct (← numArgs scope args))
  | .eql, [v, w] => do return .ofBool (← isEql v w)
  | .bitAnd, args => foldNums scope args (· &&& ·)
  | .bitOr, args => foldNums scope args (· ||| ·)
  | .bitXor, args => foldNums scope args (· ^^^ ·)
  | .shiftLeft, [v, amount] => shiftNum scope v amount Arithmetic.shiftLeft
  | .shiftRight, [v, amount] => shiftNum scope v amount Arithmetic.shiftRight
  | .shiftArith, [v, amount] => shiftNum scope v amount Arithmetic.shiftArith
  | .list, args => newList args
  | .push, list :: values => do
    let a ← listRefArg scope list
    updateItems a fun items => values.foldl Array.push items
    return list
  | .pop, [list] => do
    let a ← listRefArg scope list
    let last := (← itemsAt a).back?.getD .nil
    updateItems a Array.pop
    return last
  | .length, [seq] => do
    let r ← seqArg scope seq
    return .ofNat (← seqLength r)
  | .elem, [index, seq] => do
    let r ← seqArg scope seq
    let i ← indexArg scope index (← seqLength r)
    match ← seqElem r i with
    | some v => return v
    | none => raise scope .outOfBounds index
  | .elemSet, [index, list, v] => do
    let a ← listRefArg scope list
    let items ← itemsAt a
    let i ← indexArg scope index items.size
    setItem a items.size i v
    return v
  | .slice, [start, finish, seq] => do
    let r ← seqArg scope seq
    let length ← seqLength r
    let s ← boundArg scope start length
    let e ← boundArg scope finish length
    match ← seqSlice r s e with
    | some v => return v
    | none =>
      let got ← newList [start, finish]
      raise scope .outOfBounds got
  | .cat, args => cat scope args
  | .clear, list :: lists => clearAll scope list (list :: lists)
  | .copy, [v] => perform (.copy v)
  | .find, [v, seq] => find scope v seq
  | .merge, [target, source] => do
    let a ← listRefArg scope target
    let members ← listArg scope source
    updateItems a fun items => Sequence.merge Value.key items members
    return target
  | .split, [str, separators] => do
    let text ← bytesArg scope str
    let separators ← bytesArg scope separators
    splitOnto [] (Bytes.runs separators.contains text)
  | .isMatch, [list, pattern] => do
    let items ← listArg scope list
    let pattern ← listArg scope pattern
    if items.length = pattern.length then return .ofBool (← matchItems items pattern)
    else return .nil
  | .some, [start, finish, mode, f, seqs] => do
    let (seqs, indices) ← sweepArgs scope start finish seqs
    someOf scope f seqs (!mode.isNil) mode indices
  | .each, [start, finish, f, seqs] => do
    let (seqs, indices) ← sweepArgs scope start finish seqs
    eachOf scope f seqs .nil indices
  | .partition, [f, list, start, finish] => partition scope f list start finish
  | .compare, [v, w] => do
    let x ← stringArg scope v
    let y ← stringArg scope w
    return .num (Int64.ofInt (Text.compare x y))
  | .code, [str] => code scope str none
  | .code, [str, index] => code scope str (some index)
  | .char, [v] => do newStr [← byteArg scope v]
  | .str, [v] => strOf v
  | .fileStream, [path] => do
    let name ← textArg scope path
    alloc (.input (← perform (.openFile name)))
  | .stringStream, [str] => do alloc (.output (← stringArg scope str))
  | .read, [stream, last] => readNext scope stream last
  | .readChar, [stream] => do
    match ← perform (.readByte (← inputArg scope stream)) with
    | some b => return .ofNat b.toNat
    | none => return .nil
  | .readLine, [stream] => do
    match ← perform (.readLine (← inputArg scope stream)) with
    | some line => newStr line
    | none => return .nil
  | .write, [stream, str] => do
    let a ← outputArg scope stream
    writeTo a stream (← bytesArg scope str)
  | .writeChar, [stream, v] => do
    let a ← outputArg scope stream
    writeTo a stream [← byteArg scope v]
  | .writeLine, [stream, str] => do
    let a ← outputArg scope stream
    writeTo a stream ((← bytesArg scope str) ++ [Byte.newline])
  | .prin, args => printAll args []
  | .print, args => printAll args [Byte.newline]
  | .time, [] => do return .num (← perform .clock)
  | .load, [path] => do loadFile scope (← textArg scope path)
  | .save, [v, path] => save scope v path
  | .progn, args => return args.getLast?.getD .nil
  | .apply, [f, list] => do apply scope f (← listArg scope list)
  | .eval, [form] => evaluate scope form
  | .eval, [form, target] => do evaluate (← scopeArg scope target) form
  | .repl, [stream, name] => do
    let a ← inputArg scope stream
    runStream scope (.object a) (← textArg scope name) true
  | .define, args => do
    let (target, pairs) ← scopeAndPairs scope args
    defineIn scope target .nil pairs
  | .assign, args => do
    let (target, pairs) ← scopeAndPairs scope args
    assignIn scope target .nil pairs
  | .isDefined, [name] => isDefined scope name none
  | .isDefined, [name, target] => isDefined scope name (some target)
  | .symbol, [str] => do return .sym (← perform (.intern (← bytesArg scope str)))
  | .gensym, [] => do return .sym (← perform .gensym)
  | .bind, [params, list] => do
    let items ← listArg scope list
    bindParams scope params items
    return list
  | .throw, [message, v] => do raise scope (.thrown (← textArg scope message)) v
  | _, _ => overrun

def runPrimitive (scope : Addr) (p : Primitive) (args : List Value) : Eval Value :=
  if p.arity.admits args.length then primitiveBody scope p args else refuseArgs scope args

def runNative (scope : Addr) (args : List Value) : Native → Eval Value
  | .special form => runSpecial scope form args
  | .primitive p => runPrimitive scope p args

end Eval

def Call.body (c : Call) : Eval Value :=
  match c.work with
  | .native n args => Eval.invoke c.scope n args
  | .closure f args => Eval.applyClosure f args
  | .bind params args => do
    Eval.bindParams c.scope params args
    return .nil
  | .fill template => Eval.fill c.scope template
  | .combine head args => do
    let f ← Eval.evaluate c.scope head
    match ← Eval.functionOf f with
    | some (.native (.special form)) => Eval.invoke c.scope (.special form) args
    | some (.native (.primitive p)) =>
      let values ← Eval.evaluateAll c.scope args
      Eval.invoke c.scope (.primitive p) values
    | some (.closure f) =>
      match f.kind with
      | .lambda =>
        let values ← Eval.evaluateAll c.scope args
        Eval.applyClosure f values
      | .expander =>
        let expansion ← Eval.applyClosure f args
        Eval.evaluate c.scope expansion
    | none => Eval.raise c.scope .notFunction c.subject

/-- What happens to a call that there is no depth left for. -/
def Call.refusal (c : Call) : Eval Value := Eval.raise c.scope .tooDeep c.subject

end HeapLisp
