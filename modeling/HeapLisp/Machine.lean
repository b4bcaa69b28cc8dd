import HeapLisp.Eval.Primitive

namespace HeapLisp

def Loop.unroll {α : Type} (l : Loop) (k : Except Addr Value → Eval α) : Eval α :=
  l.turn.resume fun
    | .ok (.again l) => .loop l k
    | .ok (.finished v) => k (.ok v)
    | .error e => k (.error e)

abbrev Frame := Except Addr Value → Eval Value

/-- An evaluation under way, the callers that wait for it, innermost first, and the interpreter. -/
structure Machine where
  eval : Eval Value
  stack : List Frame
  interp : Interp

/-- What a step leads to: a machine that goes on, the end with a value or an error object, or a dead
address. -/
inductive Progress where
  | running (m : Machine)
  | finished (result : Except Addr Value) (s : Interp)
  | dangling

/-- How a run ends: like its last step, or for lack of fuel. -/
inductive Outcome where
  | finished (result : Except Addr Value) (s : Interp)
  | dangling
  | outOfFuel

namespace Machine

/-- A call goes one level deeper if the configuration allows it, and its end comes back up, whether
it failed or not. -/
def step : Machine → Progress
  | ⟨.done v, [], s⟩ => .finished (.ok v) s
  | ⟨.fail e, [], s⟩ => .finished (.error e) s
  | ⟨.done v, k :: stack, s⟩ => .running ⟨k (.ok v), stack, { s with depth := s.depth - 1 }⟩
  | ⟨.fail e, k :: stack, s⟩ => .running ⟨k (.error e), stack, { s with depth := s.depth - 1 }⟩
  | ⟨.effect e k, stack, s⟩ =>
    match e.perform s with
    | some (r, s) => .running ⟨k r, stack, s⟩
    | none => .dangling
  | ⟨.call c k, stack, s⟩ =>
    if s.depth < s.config.maxDepth
      then .running ⟨c.body, k :: stack, { s with depth := s.depth + 1 }⟩
    else .running ⟨c.refusal.resume k, stack, s⟩
  | ⟨.native scope n args k, stack, s⟩ =>
    .running ⟨(Eval.runNative scope args n).resume k, stack, s⟩
  | ⟨.loop l k, stack, s⟩ => .running ⟨l.unroll k, stack, s⟩

def run : (fuel : Nat) → Machine → Outcome
  | 0, _ => .outOfFuel
  | fuel + 1, m =>
    match m.step with
    | .running m => run fuel m
    | .finished result s => .finished result s
    | .dangling => .dangling

end Machine

end HeapLisp
