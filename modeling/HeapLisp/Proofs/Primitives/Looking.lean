import HeapLisp.Eval.Primitive
import HeapLisp.Proofs.Machine.Endings
import HeapLisp.Proofs.Store.Additions

namespace HeapLisp

/-- The effect gives an answer or adds an object, and changes nothing. -/
def Effect.looks : Effect → Bool
  | fetch _ | alloc _ | lookup _ _ | spelling _ | sameText _ _ | position _ _ => true
  | _ => false

theorem Effect.onlyAdds {e : Effect} (he : e.looks = true) {s s' : Interp} {r : e.Reply}
    (hs : s.store.WellFormed) (h : e.perform s = some (r, s')) : s.OnlyAdds s' := by
  cases e with
  | alloc o =>
    cases h
    exact .alloc hs o
  | fetch | lookup | spelling | sameText | position =>
    rw [Effect.perform] at h
    split at h <;> cases h
    exact .refl hs
  | updateItems | define | assign | restore | copy | intern | gensym | render | tidy | print
  | echoes | clock | openFile
  | readByte | readLine | readForm | append | save | overrun => cases he

/-- However the evaluation ends, it only adds objects. -/
def Eval.Looks {α : Type} (x : Eval α) : Prop :=
  ∀ ⦃s r s'⦄, s.store.WellFormed → x.Ends s r s' → s.OnlyAdds s'

/-- If the evaluation fails, it only adds objects. -/
def Eval.ChecksFirst {α : Type} (x : Eval α) : Prop :=
  ∀ ⦃s e s'⦄, s.store.WellFormed → x.Ends s (.error e) s' → s.OnlyAdds s'

namespace Eval.Looks

variable {α β : Type}

theorem checksFirst {x : Eval α} (h : x.Looks) : x.ChecksFirst := fun _ _ _ hs hx => h hs hx

theorem pure (a : α) : (Pure.pure a : Eval α).Looks := by
  intro s r s' hs h
  cases h
  exact .refl hs

theorem bind {x : Eval α} {f : α → Eval β} (h : x.Looks) (hf : ∀ a, (f a).Looks) :
    (x >>= f).Looks := by
  intro s r s' hs hx
  obtain ⟨a, s₁, hx, hrest⟩ | ⟨e, hx, _⟩ := ends_bind.mp hx
  · have hfirst := h hs hx
    exact hfirst.trans (hf a hfirst.wellFormed hrest)
  · exact h hs hx

theorem perform_bind {e : Effect} {f : e.Reply → Eval β} (he : e.looks = true)
    (hf : ∀ r, (f r).Looks) :
    (Eval.perform e >>= f).Looks := by
  intro s r s' hs hx
  obtain ⟨a, s₁, heffect, hrest⟩ := ends_perform_bind.mp hx
  have hfirst := e.onlyAdds he hs heffect
  exact hfirst.trans (hf a hfirst.wellFormed hrest)

theorem perform {e : Effect} (he : e.looks = true) : (Eval.perform e).Looks := perform_bind he pure

theorem alloc (o : Object) : (Eval.alloc o).Looks := perform_bind rfl fun _ => pure _

theorem newList (items : List Value) : (Eval.newList items).Looks := alloc _

theorem newStr (bytes : Bytes) : (Eval.newStr bytes).Looks := alloc _

theorem raise (scope : Addr) (fault : Fault) (subject : Value) :
    (Eval.raise scope fault subject : Eval α).Looks := by
  intro s r s' hs h
  obtain ⟨location, _, rfl⟩ := h.of_raise
  exact .alloc hs _

/-- What follows an index past the end does not end. -/
theorem overrun : (Eval.overrun : Eval α).Looks := by
  intro s r s' _ h
  obtain ⟨answer, _⟩ := ends_perform_bind.mp h
  exact answer.elim

theorem refuseArgs (scope : Addr) (args : List Value) :
    (Eval.refuseArgs scope args : Eval α).Looks :=
  (newList args).bind fun _ => raise scope _ _

section Arguments

variable (scope : Addr) (v : Value)

theorem numArg : (Eval.numArg scope v).Looks := by
  cases v with
  | num n => exact pure n
  | sym | ref => exact raise scope _ _

theorem byteArg : (Eval.byteArg scope v).Looks := by
  refine (numArg scope v).bind fun n => ?_
  split
  · exact pure _
  · exact raise scope _ _

theorem symArg : (Eval.symArg scope v).Looks := by
  cases v with
  | sym x => exact pure x
  | num | ref => exact raise scope _ _

theorem itemsOf : (Eval.itemsOf v).Looks := by
  cases v with
  | ref a => exact perform_bind rfl fun o => pure _
  | num | sym => exact pure none

theorem listArg : (Eval.listArg scope v).Looks := by
  refine (itemsOf v).bind fun items => ?_
  split
  · exact pure _
  · exact raise scope _ _

theorem listRefArg : (Eval.listRefArg scope v).Looks := by
  cases v with
  | ref a =>
    refine perform_bind rfl fun o => ?_
    split
    · exact pure a
    · exact raise scope _ _
  | num | sym => exact raise scope _ _

theorem stringArg : (Eval.stringArg scope v).Looks := by
  cases v with
  | sym x => exact perform rfl
  | ref a =>
    refine perform_bind rfl fun o => ?_
    split
    · exact pure _
    · exact raise scope _ _
  | num n => exact raise scope _ _

theorem bytesArg : (Eval.bytesArg scope v).Looks := (stringArg scope v).bind fun _ => pure _

theorem scopeArg : (Eval.scopeArg scope v).Looks := by
  cases v with
  | ref a =>
    refine perform_bind rfl fun o => ?_
    split
    · exact pure a
    · exact raise scope _ _
  | num | sym => exact raise scope _ _

theorem indexArg (length : Nat) : (Eval.indexArg scope v length).Looks := by
  refine (numArg scope v).bind fun n => ?_
  split
  · exact pure _
  · exact raise scope _ _

theorem boundArg (length : Nat) : (Eval.boundArg scope v length).Looks := by
  refine (numArg scope v).bind fun n => ?_
  split
  · exact pure _
  · exact raise scope _ _

theorem seqArg : (Eval.seqArg scope v).Looks := by
  cases v with
  | sym x => exact pure _
  | ref a =>
    refine perform_bind rfl fun o => ?_
    split
    · exact pure _
    · exact pure _
    · exact raise scope _ _
  | num n => exact raise scope _ _

theorem seqArgsOnto (before : List SeqRef) (vs : List Value) :
    (Eval.seqArgsOnto scope before vs).Looks := by
  induction vs generalizing before with
  | nil => exact pure _
  | cons v vs ih => exact (seqArg scope v).bind fun r => ih (r :: before)

end Arguments

section Sequences

theorem itemsAt (a : Addr) : (Eval.itemsAt a).Looks := by
  refine perform_bind rfl fun o => ?_
  split <;> exact pure _

theorem seqItems (r : SeqRef) : (Eval.seqItems r).Looks := by
  cases r with
  | list a => exact itemsAt a
  | str | sym => exact pure _

theorem seqText (r : SeqRef) : (Eval.seqText r).Looks := by
  cases r with
  | list a => exact pure _
  | str a =>
    refine perform_bind rfl fun o => ?_
    split <;> exact pure _
  | sym x => exact perform rfl

theorem seqLength (r : SeqRef) : (Eval.seqLength r).Looks := by
  cases r with
  | list a => exact (itemsAt a).bind fun _ => pure _
  | str | sym => exact (seqText _).bind fun _ => pure _

theorem byteAt (i : Nat) (text : ByteArray) : (Eval.byteAt i text).Looks := by
  unfold Eval.byteAt
  split
  · exact (newStr _).bind fun _ => pure _
  · exact pure _

theorem seqElem (r : SeqRef) (i : Nat) : (Eval.seqElem r i).Looks := by
  cases r with
  | list a => exact (itemsAt a).bind fun _ => pure _
  | str | sym => exact (seqText _).bind (byteAt i)

theorem partOf (m n : Nat) (text : ByteArray) : (Eval.partOf m n text).Looks := by
  unfold Eval.partOf
  split
  · exact (alloc _).bind fun _ => pure _
  · exact pure _

theorem seqSlice (r : SeqRef) (m n : Nat) : (Eval.seqSlice r m n).Looks := by
  cases r with
  | list a =>
    refine (itemsAt a).bind fun items => ?_
    split
    · exact (alloc _).bind fun _ => pure _
    · exact pure _
  | str | sym => exact (seqText _).bind (partOf m n)

theorem seqPartsOnto {part : SeqRef → Eval α} (hpart : ∀ r, (part r).Looks) (before : List α)
    (rs : List SeqRef) :
    (Eval.seqPartsOnto part before rs).Looks := by
  induction rs generalizing before with
  | nil => exact pure _
  | cons r rs ih => exact (hpart r).bind fun xs => ih (xs :: before)

theorem cat (scope : Addr) (args : List Value) : (Eval.cat scope args).Looks := by
  refine (seqArgsOnto scope [] args).bind fun seqs => ?_
  split
  · exact (seqPartsOnto seqItems [] seqs).bind fun _ => alloc _
  · split
    · exact (newList _).bind fun _ => raise scope _ _
    · exact (seqPartsOnto seqText [] seqs).bind fun _ => alloc _

theorem splitOnto (before : List Value) (runs : List Bytes) :
    (Eval.splitOnto before runs).Looks := by
  induction runs generalizing before with
  | nil => exact newList _
  | cons run runs ih => exact (newStr run).bind fun v => ih (v :: before)

theorem find (scope : Addr) (v seq : Value) : (Eval.find scope v seq).Looks := by
  refine (seqArg scope seq).bind fun r => ?_
  cases r with
  | list a =>
    refine perform_bind rfl fun position => ?_
    cases position <;> exact pure _
  | str | sym =>
    refine (stringArg scope v).bind fun needle => ?_
    split
    · exact (seqText _).bind fun text => pure _
    · refine (seqText _).bind fun text => (pure _).bind fun position => ?_
      cases position <;> exact pure _

theorem isEql (v w : Value) : (Eval.isEql v w).Looks := by
  unfold Eval.isEql
  split
  · exact pure true
  · split
    · exact perform rfl
    · exact pure false

theorem matchItems (items pattern : List Value) : (Eval.matchItems items pattern).Looks := by
  induction items generalizing pattern with
  | nil => cases pattern <;> exact pure _
  | cons item items ih =>
    cases pattern with
    | nil => exact pure _
    | cons p pattern =>
      rw [Eval.matchItems]
      split
      · exact ih pattern
      · refine (isEql item p).bind fun equal => ?_
        split
        · exact ih pattern
        · exact pure false

theorem code (scope : Addr) (str : Value) (index : Option Value) :
    (Eval.code scope str index).Looks := by
  have hindex (length : Nat) : (Eval.codeIndex scope length index).Looks := by
    cases index with
    | some v => exact indexArg scope v length
    | none =>
      rw [Eval.codeIndex]
      split
      · exact raise scope _ _
      · exact pure _
  refine (stringArg scope str).bind fun text => (hindex _).bind fun i => ?_
  split
  · exact pure _
  · exact overrun

end Sequences

section Numbers

variable (scope : Addr) (args : List Value)

theorem numArgs : (Eval.numArgs scope args).Looks := by
  unfold Eval.numArgs
  split
  · exact pure _
  · exact raise scope _ _

theorem foldNums (f : Int64 → Int64 → Int64) : (Eval.foldNums scope args f).Looks := by
  refine (numArgs scope args).bind fun ns => ?_
  cases ns with
  | nil => exact overrun
  | cons n ns => exact pure _

theorem divideNums (f : Int64 → Int64 → Int64) : (Eval.divideNums scope args f).Looks := by
  refine (numArgs scope args).bind fun ns => ?_
  cases ns with
  | nil => exact overrun
  | cons n ns =>
    dsimp only
    split
    · exact raise scope _ _
    · exact pure _

theorem compareNums (r : Int64 → Int64 → Bool) : (Eval.compareNums scope args r).Looks :=
  (numArgs scope args).bind fun _ => pure _

theorem shiftNum (v amount : Value) (f : Int64 → Int64 → Int64) :
    (Eval.shiftNum scope v amount f).Looks := by
  refine (numArg scope v).bind fun n => (numArg scope amount).bind fun k => ?_
  split
  · exact pure _
  · exact raise scope _ _

end Numbers

theorem isDefined (scope : Addr) (name : Value) (target : Option Value) :
    (Eval.isDefined scope name target).Looks := by
  have htarget : (Eval.targetArg scope target).Looks := by
    cases target with
    | some v => exact scopeArg scope v
    | none => exact pure scope
  exact (symArg scope name).bind fun x => htarget.bind fun a => perform_bind rfl fun found => pure _

end Eval.Looks

namespace Eval.ChecksFirst

variable {α β : Type} {scope : Addr} {p : Primitive}

theorem after {x : Eval α} {f : α → Eval β} (h : x.Looks) (hf : ∀ a, (f a).ChecksFirst) :
    (x >>= f).ChecksFirst := by
  intro s e s' hs hx
  obtain ⟨a, s₁, hx, hrest⟩ | ⟨e, hx, _⟩ := ends_bind.mp hx
  · have hfirst := h hs hx
    exact hfirst.trans (hf a hfirst.wellFormed hrest)
  · exact h hs hx

/-- An effect does not fail. -/
theorem act (e : Effect) (answer : e.Reply → α) :
    (perform e >>= fun r => pure (answer r)).ChecksFirst := by
  intro s error s' _ h
  obtain ⟨a, s₁, _, hdone⟩ := ends_perform_bind.mp h
  cases hdone

theorem overrun : (Eval.overrun : Eval α).ChecksFirst := Looks.overrun.checksFirst

theorem unary (h₀ : primitiveBody scope p [] = .overrun)
    (hmore : ∀ v w vs, primitiveBody scope p (v :: w :: vs) = .overrun)
    (h : ∀ v, (primitiveBody scope p [v]).ChecksFirst) (args : List Value) :
    (primitiveBody scope p args).ChecksFirst := by
  obtain _ | ⟨v, _ | ⟨w, vs⟩⟩ := args
  · rw [h₀]
    exact overrun
  · exact h v
  · rw [hmore]
    exact overrun

theorem oneOrTwo (h₀ : primitiveBody scope p [] = .overrun)
    (hmore : ∀ u v w vs, primitiveBody scope p (u :: v :: w :: vs) = .overrun)
    (h₁ : ∀ v, (primitiveBody scope p [v]).ChecksFirst)
    (h₂ : ∀ v w, (primitiveBody scope p [v, w]).ChecksFirst) (args : List Value) :
    (primitiveBody scope p args).ChecksFirst := by
  obtain _ | ⟨u, _ | ⟨v, _ | ⟨w, vs⟩⟩⟩ := args
  · rw [h₀]
    exact overrun
  · exact h₁ u
  · exact h₂ u v
  · rw [hmore]
    exact overrun

theorem binary (h₀ : primitiveBody scope p [] = .overrun)
    (h₁ : ∀ v, primitiveBody scope p [v] = .overrun)
    (hmore : ∀ u v w vs, primitiveBody scope p (u :: v :: w :: vs) = .overrun)
    (h : ∀ v w, (primitiveBody scope p [v, w]).ChecksFirst) (args : List Value) :
    (primitiveBody scope p args).ChecksFirst := by
  refine oneOrTwo h₀ hmore (fun v => ?_) h args
  rw [h₁]
  exact overrun

theorem ternary (h₀ : primitiveBody scope p [] = .overrun)
    (h₁ : ∀ v, primitiveBody scope p [v] = .overrun)
    (h₂ : ∀ v w, primitiveBody scope p [v, w] = .overrun)
    (hmore : ∀ u v w x vs, primitiveBody scope p (u :: v :: w :: x :: vs) = .overrun)
    (h : ∀ u v w, (primitiveBody scope p [u, v, w]).ChecksFirst) (args : List Value) :
    (primitiveBody scope p args).ChecksFirst := by
  obtain _ | ⟨u, _ | ⟨v, _ | ⟨w, _ | ⟨x, vs⟩⟩⟩⟩ := args
  · rw [h₀]
    exact overrun
  · rw [h₁]
    exact overrun
  · rw [h₂]
    exact overrun
  · exact h u v w
  · rw [hmore]
    exact overrun

end Eval.ChecksFirst

/-- The primitives that check all their arguments before they change anything. -/
def Primitive.checksFirst : Primitive → Bool
  | add | sub | mul | div | rem | max | min | eq | ne | lt | gt | le | ge | eql => true
  | bitAnd | bitOr | bitXor | shiftLeft | shiftRight | shiftArith => true
  | push | pop | elem | elemSet | slice | cat | copy | find | merge | split | isMatch | compare
  | code | char =>
    true
  | symbol | isDefined => true
  | _ => false

theorem Eval.primitiveBody_checksFirst {p : Primitive} (hp : p.checksFirst = true) (scope : Addr)
    (args : List Value) : (primitiveBody scope p args).ChecksFirst := by
  cases p with
  | add | sub | mul | max | min | bitAnd | bitOr | bitXor =>
    exact (Looks.foldNums scope args _).checksFirst
  | div | rem => exact (Looks.divideNums scope args _).checksFirst
  | eq | lt | gt | le | ge => exact (Looks.compareNums scope args _).checksFirst
  | ne => exact ((Looks.numArgs scope args).bind fun _ => .pure _).checksFirst
  | shiftLeft | shiftRight | shiftArith =>
    refine .binary rfl (fun _ => rfl) (fun _ _ _ _ => rfl) (fun v amount => ?_) args
    exact (Looks.shiftNum scope v amount _).checksFirst
  | eql =>
    refine .binary rfl (fun _ => rfl) (fun _ _ _ _ => rfl) (fun v w => ?_) args
    exact ((Looks.isEql v w).bind fun _ => .pure _).checksFirst
  | push =>
    cases args with
    | nil => exact .overrun
    | cons list values => exact .after (.listRefArg scope list) fun a => .act _ _
  | pop =>
    refine .unary rfl (fun _ _ _ => rfl) (fun list => ?_) args
    exact .after (.listRefArg scope list) fun a => .after (.itemsAt a) fun items => .act _ _
  | elem =>
    refine .binary rfl (fun _ => rfl) (fun _ _ _ _ => rfl)
      (fun index seq => Looks.checksFirst ?_) args
    refine (Looks.seqArg scope seq).bind fun r => (Looks.seqLength r).bind fun length => ?_
    refine (Looks.indexArg scope index length).bind fun i =>
      (Looks.seqElem r i).bind fun found => ?_
    cases found with
    | some v => exact .pure v
    | none => exact .raise scope _ _
  | elemSet =>
    refine .ternary rfl (fun _ => rfl) (fun _ _ => rfl) (fun _ _ _ _ _ => rfl)
      (fun index list v => ?_) args
    refine .after (.listRefArg scope list) fun a => .after (.itemsAt a) fun items => ?_
    refine .after (.indexArg scope index _) fun i => ?_
    rw [setItem]
    split
    · exact .act _ _
    · exact .after .overrun fun _ => (Looks.pure v).checksFirst
  | slice =>
    refine .ternary rfl (fun _ => rfl) (fun _ _ => rfl) (fun _ _ _ _ _ => rfl)
      (fun start finish seq => Looks.checksFirst ?_) args
    refine (Looks.seqArg scope seq).bind fun r => (Looks.seqLength r).bind fun length => ?_
    refine (Looks.boundArg scope start length).bind fun m =>
      (Looks.boundArg scope finish length).bind fun n => ?_
    refine (Looks.seqSlice r m n).bind fun found => ?_
    cases found with
    | some v => exact .pure v
    | none => exact (Looks.newList _).bind fun got => .raise scope _ _
  | cat => exact (Looks.cat scope args).checksFirst
  | copy =>
    refine .unary rfl (fun _ _ _ => rfl) (fun v => ?_) args
    exact .act (.copy v) id
  | find =>
    refine .binary rfl (fun _ => rfl) (fun _ _ _ _ => rfl) (fun v seq => Looks.checksFirst ?_) args
    exact .find scope v seq
  | merge =>
    refine .binary rfl (fun _ => rfl) (fun _ _ _ _ => rfl) (fun target source => ?_) args
    exact .after (.listRefArg scope target) fun a => .after (.listArg scope source)
      fun members => .act _ _
  | split =>
    refine .binary rfl (fun _ => rfl) (fun _ _ _ _ => rfl)
      (fun str separators => Looks.checksFirst ?_) args
    exact (Looks.bytesArg scope str).bind fun text => (Looks.bytesArg scope separators).bind
      fun bytes => .splitOnto _ _
  | isMatch =>
    refine .binary rfl (fun _ => rfl) (fun _ _ _ _ => rfl)
      (fun list pattern => Looks.checksFirst ?_) args
    refine (Looks.listArg scope list).bind fun items => (Looks.listArg scope pattern).bind
      fun members => ?_
    split
    · exact (Looks.matchItems items members).bind fun _ => .pure _
    · exact .pure _
  | compare =>
    refine .binary rfl (fun _ => rfl) (fun _ _ _ _ => rfl) (fun v w => Looks.checksFirst ?_) args
    exact (Looks.stringArg scope v).bind fun x => (Looks.stringArg scope w).bind fun y => .pure _
  | code =>
    refine .oneOrTwo rfl (fun _ _ _ _ => rfl) (fun str => Looks.checksFirst ?_)
      (fun str index => Looks.checksFirst ?_) args
    · exact .code scope str none
    · exact .code scope str (.some index)
  | char =>
    refine .unary rfl (fun _ _ _ => rfl) (fun v => Looks.checksFirst ?_) args
    exact (Looks.byteArg scope v).bind fun b => .newStr [b]
  | symbol =>
    refine .unary rfl (fun _ _ _ => rfl) (fun str => ?_) args
    exact .after (.bytesArg scope str) fun name => .act (.intern name) Value.sym
  | isDefined =>
    refine .oneOrTwo rfl (fun _ _ _ _ => rfl) (fun name => Looks.checksFirst ?_)
      (fun name target => Looks.checksFirst ?_) args
    · exact .isDefined scope name none
    · exact .isDefined scope name (.some target)
  | list | length | clear | some | each | partition | str | fileStream | stringStream | read
  | readChar | readLine | write
  | writeChar | writeLine | prin | print | time | load | save | progn | apply | eval | repl | define
  | assign | gensym | bind
  | throw => cases hp

/-- A refusal makes nothing but an error object. -/
theorem Eval.runPrimitive_checksFirst {p : Primitive} (hp : p.checksFirst = true) (scope : Addr)
    (args : List Value) : (runPrimitive scope p args).ChecksFirst := by
  rw [runPrimitive]
  split
  · exact primitiveBody_checksFirst hp scope args
  · exact (Looks.refuseArgs scope args).checksFirst

end HeapLisp
