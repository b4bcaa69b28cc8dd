namespace HeapLisp

structure Arity where
  least : Nat
  most : Option Nat
deriving DecidableEq, Repr

namespace Arity

def exactly (n : Nat) : Arity := ⟨n, some n⟩

def atLeast (n : Nat) : Arity := ⟨n, none⟩

def between (least most : Nat) : Arity := ⟨least, some most⟩

def admits (a : Arity) (count : Nat) : Bool := decide (a.least ≤ count) && a.most.all (count ≤ ·)

end Arity

/-- Functions that take their arguments as forms. -/
inductive SpecialForm where
  | catchError
  | lambda
  | expander
  | quote
  | template
  | cond
  | loop
  | defineExpander
  | scope
  | define
  | assign
deriving DecidableEq, Repr

namespace SpecialForm

def name : SpecialForm → String
  | catchError => "catch"
  | lambda => "lambda"
  | expander => "macro"
  | quote => "quote"
  | template => "quasi-quote"
  | cond => "cond"
  | loop => "while"
  | defineExpander => "defmacro"
  | scope => "env"
  | define => "defq"
  | assign => "setq"

/-- Those that take pairs of arguments count them themselves. -/
def arity : SpecialForm → Arity
  | quote | template => .exactly 1
  | lambda | expander | loop => .atLeast 1
  | defineExpander => .atLeast 2
  | scope => .between 0 1
  | catchError | cond | define | assign => .atLeast 0

/-- In the order they are bound. -/
def all : List SpecialForm :=
  [catchError, lambda, expander, quote, template, cond, loop, defineExpander, scope, define, assign]

end SpecialForm

/-- Functions that take their arguments evaluated. -/
inductive Primitive where
  | add | sub | mul | div | rem | max | min
  | eq | ne | lt | gt | le | ge | eql
  | bitAnd | bitOr | bitXor | shiftLeft | shiftRight | shiftArith
  | list | push | pop | length | elem | elemSet | slice | cat | clear | copy | find | merge
  | split | isMatch
  | some | each | partition | compare | code | char | str
  | fileStream | stringStream | read | readChar | readLine | write | writeChar | writeLine | prin
  | print | time
  | load | save
  | progn | apply | eval | repl | define | assign | isDefined | symbol | gensym | bind | throw
deriving DecidableEq, Repr

namespace Primitive

def name : Primitive → String
  | add => "add"
  | sub => "sub"
  | mul => "mul"
  | div => "div"
  | rem => "mod"
  | max => "max"
  | min => "min"
  | eq => "eq"
  | ne => "ne"
  | lt => "lt"
  | gt => "gt"
  | le => "le"
  | ge => "ge"
  | eql => "eql"
  | bitAnd => "bit-and"
  | bitOr => "bit-or"
  | bitXor => "bit-xor"
  | shiftLeft => "bit-shl"
  | shiftRight => "bit-shr"
  | shiftArith => "bit-asr"
  | list => "list"
  | push => "push"
  | pop => "pop"
  | length => "length"
  | elem => "elem"
  | elemSet => "elem-set"
  | slice => "slice"
  | cat => "cat"
  | clear => "clear"
  | copy => "copy"
  | find => "find"
  | merge => "merge-sym"
  | split => "split"
  | isMatch => "match?"
  | some => "some!"
  | each => "each!"
  | partition => "partition"
  | compare => "cmp"
  | code => "code"
  | char => "char"
  | str => "str"
  | fileStream => "file-stream"
  | stringStream => "string-stream"
  | read => "read"
  | readChar => "read-char"
  | readLine => "read-line"
  | write => "write"
  | writeChar => "write-char"
  | writeLine => "write-line"
  | prin => "prin"
  | print => "print"
  | time => "time"
  | load => "load"
  | save => "save"
  | progn => "progn"
  | apply => "apply"
  | eval => "eval"
  | repl => "repl"
  | define => "def"
  | assign => "set"
  | isDefined => "def?"
  | symbol => "sym"
  | gensym => "gensym"
  | bind => "bind"
  | throw => "throw"

/-- Those that take a scope and pairs count their arguments themselves. -/
def arity : Primitive → Arity
  | add | sub | mul | div | rem | max | min | eq | ne | lt | gt | le | ge => .atLeast 1
  | bitAnd | bitOr | bitXor | push | cat | clear => .atLeast 1
  | pop | length | copy | char | str | fileStream | stringStream | readChar | readLine => .exactly 1
  | load | symbol => .exactly 1
  | eql | shiftLeft | shiftRight | shiftArith | elem | find | merge | split | isMatch => .exactly 2
  | compare | read | write | writeChar | writeLine | save | apply | repl | bind => .exactly 2
  | throw => .exactly 2
  | elemSet | slice => .exactly 3
  | each | partition => .exactly 4
  | some => .exactly 5
  | time | gensym => .exactly 0
  | code | eval | isDefined => .between 1 2
  | list | prin | print | progn | define | assign => .atLeast 0

/-- In the order they are bound. -/
def all : List Primitive :=
  [add, sub, mul, div, rem, max, min, eq, ne, lt, gt, le, ge, eql, bitAnd, bitOr, bitXor, shiftLeft,
    shiftRight, shiftArith, list, push, pop, length, elem, elemSet, slice, cat, clear, copy, find,
    merge, split, isMatch, some, each, partition, compare, code, char, str, fileStream,
    stringStream, read, readChar, readLine, write, writeChar, writeLine, prin, print, time, load,
    save, progn, apply, eval, repl, define, assign, isDefined, symbol, gensym, bind, throw]

end Primitive

inductive Native where
  | special (form : SpecialForm)
  | primitive (p : Primitive)
deriving DecidableEq, Repr

namespace Native

def name : Native → String
  | special form => form.name
  | primitive p => p.name

/-- In the order they are bound: special forms first. -/
def all : List Native := SpecialForm.all.map special ++ Primitive.all.map primitive

end Native

end HeapLisp
