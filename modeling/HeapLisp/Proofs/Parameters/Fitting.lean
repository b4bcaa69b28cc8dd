import HeapLisp.Proofs.Host.Soundness
import HeapLisp.Proofs.Parameters.Shape

namespace HeapLisp.Param

variable {st st' st₁ st₁' : Store Object} {p : Param} {ps : List Param} {v : Value}
  {args : List Value} {bs bs' : List (Symbol × Value)}

mutual

/-- A parameter as it is stored. -/
inductive Stored (st : Store Object) : Param → Value → Prop where
  | name (x : Symbol) : Stored st (.name x) (.sym x)
  | list {ps : List Param} {a : Addr} {items : Array Value} (ha : st.get? a = some (.list items))
    (hs : StoredAll st ps items.toList) : Stored st (.list ps) (.ref a)

inductive StoredAll (st : Store Object) : List Param → List Value → Prop where
  | nil : StoredAll st [] []
  | cons {p : Param} {ps : List Param} {v : Value} {vs : List Value} (h : Stored st p v)
    (hs : StoredAll st ps vs) :
    StoredAll st (p :: ps) (v :: vs)

end

mutual

/-- The most lists inside each other, one inside none. -/
def nesting : Param → Nat
  | name _ => 0
  | list ps => nestingAll ps + 1

def nestingAll : List Param → Nat
  | [] => 0
  | p :: ps => max p.nesting (nestingAll ps)

end

mutual

/-- A name takes every value, and a list of parameters takes a list that fits it. -/
inductive Takes (st : Store Object) : Param → Value → Prop where
  | name (x : Symbol) (v : Value) : Takes st (.name x) v
  | list {ps : List Param} {a : Addr} {items : Array Value} (ha : st.get? a = some (.list items))
    (h : TakesAll st ps items.toList) : Takes st (.list ps) (.ref a)

/-- The arguments fit the parameters: their number is right, each parameter takes its value, and
`&rest` has a name that takes the rest. -/
inductive TakesAll (st : Store Object) : List Param → List Value → Prop where
  | intro {ps : List Param} {args : List Value} (hcount : CountFits ps args.length)
    (hnames : ∀ p v, (p, v) ∈ assigned ps args → Takes st p v)
    (hrest : TakesRest st (remainder ps args)) :
    TakesAll st ps args

inductive TakesRest (st : Store Object) : Remainder → Prop where
  | none : TakesRest st .none
  | name (x : Symbol) (vs : List Value) : TakesRest st (.rest (.name x) vs)
  | list {ps : List Param} {vs : List Value} (h : TakesAll st ps vs) :
    TakesRest st (.rest (.list ps) vs)

end

mutual

/-- Binding a parameter to a value binds these names, in this order. The store before is `st`, and
the one after is `st'`. -/
inductive Gives (st st' : Store Object) : Param → Value → List (Symbol × Value) → Prop where
  | name (x : Symbol) (v : Value) : Gives st st' (.name x) v [(x, v)]
  | list {ps : List Param} {a : Addr} {items : Array Value} {bs : List (Symbol × Value)}
    (ha : st'.get? a = some (.list items)) (h : GivesAll st st' ps items.toList bs) :
    Gives st st' (.list ps) (.ref a) bs

/-- Each parameter is bound to its value, and then the name after `&rest`. -/
inductive GivesAll (st st' : Store Object) :
    List Param → List Value → List (Symbol × Value) → Prop where
  | intro {ps : List Param} {args : List Value} {bs bs' : List (Symbol × Value)}
    (hnames : GivesEach st st' (assigned ps args) bs)
    (hrest : GivesRest st st' (remainder ps args) bs') : GivesAll st st' ps args (bs ++ bs')

inductive GivesEach (st st' : Store Object) :
    List (Param × Value) → List (Symbol × Value) → Prop where
  | nil : GivesEach st st' [] []
  | cons {p : Param} {v : Value} {pairs : List (Param × Value)} {bs bs' : List (Symbol × Value)}
    (h : Gives st st' p v bs)
    (hs : GivesEach st st' pairs bs') : GivesEach st st' ((p, v) :: pairs) (bs ++ bs')

/-- The name after `&rest` is bound to a new list. -/
inductive GivesRest (st st' : Store Object) : Remainder → List (Symbol × Value) → Prop where
  | none : GivesRest st st' .none []
  | rest {p : Param} {vs : List Value} {c : Addr} {bs : List (Symbol × Value)}
    (hnew : st.get? c = none)
    (hc : st'.get? c = some (.list vs.toArray)) (h : Gives st st' p (.ref c) bs) :
    GivesRest st st' (.rest p vs) bs

end

theorem Stored.eq_rest_iff (h : Stored st p v) : v = .sym .rest ↔ p.isRest = true := by
  cases h <;> simp [isRest]

theorem Stored.eq_optional_iff (h : Stored st p v) : v = .sym .optional ↔ p.isOptional = true := by
  cases h <;> simp [isOptional]

/-- The arguments shared out one by one are taken. -/
structure TakesDealt (st : Store Object) (dealt : List (Param × Value) × Remainder) : Prop where
  names : ∀ p v, (p, v) ∈ dealt.1 → Takes st p v
  rest : TakesRest st dealt.2

theorem takesAll_iff : TakesAll st ps args ↔ TakesDealt st (deal ps args false) := by
  constructor
  · rintro ⟨hcount, hnames, hrest⟩
    rw [deal_of_countFits hcount]
    exact ⟨hnames, hrest⟩
  · intro h
    by_cases hcount : CountFits ps args.length
    · rw [deal_of_countFits hcount] at h
      exact ⟨hcount, h.names, h.rest⟩
    · have hrest := h.rest
      rw [deal_of_not_countFits hcount] at hrest
      cases hrest

/-- What the arguments shared out one by one are bound to. -/
inductive GivesDealt (st st' : Store Object) (dealt : List (Param × Value) × Remainder) :
    List (Symbol × Value) → Prop where
  | intro {bs bs' : List (Symbol × Value)} (hnames : GivesEach st st' dealt.1 bs)
    (hrest : GivesRest st st' dealt.2 bs') :
    GivesDealt st st' dealt (bs ++ bs')

theorem GivesDealt.givesAll (htakes : TakesAll st ps args)
    (h : GivesDealt st st' (deal ps args false) bs) :
    GivesAll st st' ps args bs := by
  cases htakes with
  | intro hcount =>
    rw [deal_of_countFits hcount] at h
    cases h with
    | intro hnames hrest => exact .intro hnames hrest

/-- The lists of a store are the lists of the other one. -/
structure SameLists (st st' : Store Object) : Prop where
  intact : st.Intact
  list_iff : ∀ {a}, st.contains a = true → ∀ items, st'.get? a = some (.list items) ↔
    st.get? a = some (.list items)

mutual

theorem Stored.later (hsame : SameLists st st') : {p : Param} → {v : Value} → Stored st p v →
    Stored st' p v
  | _, _, .name x => .name x
  | _, _, .list ha hs =>
    .list ((hsame.list_iff (Store.contains_iff.mpr ⟨_, ha⟩) _).mpr ha) (StoredAll.later hsame hs)

theorem StoredAll.later (hsame : SameLists st st') : {ps : List Param} → {vs : List Value} →
    StoredAll st ps vs →
    StoredAll st' ps vs
  | _, _, .nil => .nil
  | _, _, .cons h hs => .cons (Stored.later hsame h) (StoredAll.later hsame hs)

end

mutual

theorem Takes.later (hsame : SameLists st st') : {p : Param} → {v : Value} → Takes st p v →
    Takes st' p v
  | _, _, .name x v => .name x v
  | _, _, .list ha h =>
    .list ((hsame.list_iff (Store.contains_iff.mpr ⟨_, ha⟩) _).mpr ha) (TakesAll.later hsame h)

theorem TakesAll.later (hsame : SameLists st st') : {ps : List Param} → {args : List Value} →
    TakesAll st ps args →
    TakesAll st' ps args
  | _, _, .intro hcount hnames hrest =>
    .intro hcount (fun p v hv => Takes.later hsame (hnames p v hv)) (TakesRest.later hsame hrest)

theorem TakesRest.later (hsame : SameLists st st') : {rest : Remainder} → TakesRest st rest →
    TakesRest st' rest
  | _, .none => .none
  | _, .name x vs => .name x vs
  | _, .list h => .list (TakesAll.later hsame h)

end

/-- Sharing out live arguments gives live values. -/
theorem live_deal {left : List Value} (hleft : ∀ v ∈ left, v.Live st) (ps : List Param)
    (optional : Bool) :
    (∀ p v, (p, v) ∈ (deal ps left optional).1 → v.Live st) ∧
      ∀ p vs, (deal ps left optional).2 = .rest p vs → ∀ v ∈ vs, v.Live st := by
  obtain ⟨hnames, hrest⟩ :=
    forall_deal (fun p (_ : p ∈ ps) => trivial) hleft (Value.live_sym st _) optional
  exact ⟨fun p v hv => (hnames p v hv).2, fun p vs hvs => (hrest p vs hvs).2⟩

mutual

/-- What takes a value that was live before took it before. -/
theorem Takes.earlier (hsame : SameLists st st') : {p : Param} → {v : Value} → Takes st' p v →
    v.Live st → Takes st p v
  | _, _, .name x v, _ => .name x v
  | _, _, .list ha h, hv => by
    have hlist := (hsame.list_iff (hv _ rfl) _).mp ha
    exact .list hlist (TakesAll.earlier hsame h fun v hv => hsame.intact.live_item hlist hv)

theorem TakesAll.earlier (hsame : SameLists st st') : {ps : List Param} → {args : List Value} →
    TakesAll st' ps args →
    (∀ v ∈ args, v.Live st) → TakesAll st ps args
  | ps, args, .intro hcount hnames hrest, hargs => by
    have hlive := live_deal hargs ps false
    rw [deal_of_countFits hcount] at hlive
    exact .intro hcount (fun p v hv => Takes.earlier hsame (hnames p v hv) (hlive.1 p v hv))
      (TakesRest.earlier hsame hrest hlive.2)

theorem TakesRest.earlier (hsame : SameLists st st') : {rest : Remainder} → TakesRest st' rest →
    (∀ p vs, rest = .rest p vs → ∀ v ∈ vs, v.Live st) → TakesRest st rest
  | _, .none, _ => .none
  | _, .name x vs, _ => .name x vs
  | _, .list h, hvs => .list (TakesAll.earlier hsame h (hvs _ _ rfl))

end

theorem takesDealt_iff (hsame : SameLists st st') {dealt : List (Param × Value) × Remainder}
    (hlive : (∀ p v, (p, v) ∈ dealt.1 → v.Live st) ∧ ∀ p vs, dealt.2 = .rest p vs →
      ∀ v ∈ vs, v.Live st) :
    TakesDealt st' dealt ↔ TakesDealt st dealt := by
  constructor
  · intro h
    exact ⟨fun p v hv => (h.names p v hv).earlier hsame (hlive.1 p v hv),
      h.rest.earlier hsame hlive.2⟩
  · intro h
    exact ⟨fun p v hv => (h.names p v hv).later hsame, h.rest.later hsame⟩

mutual

/-- What is bound stays bound to it, in an earlier store before and a later one after. -/
theorem Gives.mono (hnew : ∀ c, st.get? c = none → st₁.get? c = none)
    (hlists : ∀ a items, st'.get? a = some (.list items) → st₁'.get? a = some (.list items)) :
    {p : Param} → {v : Value} → {bs : List (Symbol × Value)} → Gives st st' p v bs →
    Gives st₁ st₁' p v bs
  | _, _, _, .name x v => .name x v
  | _, _, _, .list ha h => .list (hlists _ _ ha) (GivesAll.mono hnew hlists h)

theorem GivesAll.mono (hnew : ∀ c, st.get? c = none → st₁.get? c = none)
    (hlists : ∀ a items, st'.get? a = some (.list items) → st₁'.get? a = some (.list items)) :
    {ps : List Param} → {args : List Value} → {bs : List (Symbol × Value)} →
    GivesAll st st' ps args bs →
      GivesAll st₁ st₁' ps args bs
  | _, _, _, .intro hnames hrest =>
    .intro (GivesEach.mono hnew hlists hnames) (GivesRest.mono hnew hlists hrest)

theorem GivesEach.mono (hnew : ∀ c, st.get? c = none → st₁.get? c = none)
    (hlists : ∀ a items, st'.get? a = some (.list items) → st₁'.get? a = some (.list items)) :
    {pairs : List (Param × Value)} → {bs : List (Symbol × Value)} → GivesEach st st' pairs bs →
    GivesEach st₁ st₁' pairs bs
  | _, _, .nil => .nil
  | _, _, .cons h hs => .cons (Gives.mono hnew hlists h) (GivesEach.mono hnew hlists hs)

theorem GivesRest.mono (hnew : ∀ c, st.get? c = none → st₁.get? c = none)
    (hlists : ∀ a items, st'.get? a = some (.list items) → st₁'.get? a = some (.list items)) :
    {rest : Remainder} → {bs : List (Symbol × Value)} → GivesRest st st' rest bs →
    GivesRest st₁ st₁' rest bs
  | _, _, .none => .none
  | _, _, .rest hc hlist h => .rest (hnew _ hc) (hlists _ _ hlist) (Gives.mono hnew hlists h)

end

end HeapLisp.Param
