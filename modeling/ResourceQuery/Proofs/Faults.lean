import ResourceQuery.Compile.Qualifiers
import ResourceQuery.Proofs.Path.Steps
/-!
# Faults of requests

`Answers P` says of an outcome that it is a value with the property `P`, or else a fault that the
request is to blame for. Each combinator has a lemma, and each function that reads a piece of a
request has one that says when it answers.
-/

namespace ResourceQuery

variable {α β : Type}

namespace Fault

@[simp] theorem kind_locatedAt (fault : Fault) (position : Position) :
    (fault.locatedAt position).kind = fault.kind := rfl

@[simp] theorem kind_on (fault : Fault) (path : String) : (fault.on path).kind = fault.kind := rfl

/-- A fault of a request is none of the schema, of the configuration or of a caller. -/
theorem Kind.isRequest_iff {kind : Kind} :
    kind.isRequest = true ↔ kind ≠ .schema ∧ kind ≠ .configuration ∧ kind ≠ .general := by
  cases kind <;> decide

end Fault

/-- The outcome is a value with a property, or a fault of the request. -/
inductive Answers (P : α → Prop) : Except Fault α → Prop
  | ok {a : α} (h : P a) : Answers P (.ok a)
  | refused {fault : Fault} (h : fault.kind.isRequest = true) : Answers P (.error fault)

/-- There is a value, or the request is to blame. -/
abbrev Answered (x : Except Fault α) : Prop := Answers (fun _ => True) x

namespace Answers

variable {P : α → Prop} {Q : β → Prop}

theorem fault {x : Except Fault α} (h : Answers P x) {fault : Fault} (hx : x = .error fault) :
    fault.kind.isRequest = true := by
  subst hx
  cases h with
  | refused hfault => exact hfault

/-- What is known of a value in another way holds of an answer too. -/
theorem imp_ok {x : Except Fault α} {P' : α → Prop} (h : Answers P x)
    (hP : ∀ a, x = .ok a → P a → P' a) : Answers P' x := by
  cases h with
  | ok ha => exact .ok (hP _ rfl ha)
  | refused hfault => exact .refused hfault

/-- An answer is what the outcome holds. -/
theorem eq_ok {x : Except Fault α} (h : Answers P x) : Answers (fun a => x = .ok a) x :=
  h.imp_ok fun _ hx _ => hx

theorem bind {x : Except Fault α} {f : α → Except Fault β} (hx : Answers P x)
    (hf : ∀ a, P a → Answers Q (f a)) : Answers Q (x >>= f) := by
  cases hx with
  | ok ha => exact hf _ ha
  | refused hfault => exact .refused hfault

theorem map {x : Except Fault α} {f : α → β} (hx : Answers P x) (hf : ∀ a, P a → Q (f a)) :
    Answers Q (x.map f) := by
  cases hx with
  | ok ha => exact .ok (hf _ ha)
  | refused hfault => exact .refused hfault

/-- A check that refuses the request, and what comes behind it. -/
theorem check {p : Prop} [Decidable p] {fault : Fault} {x : Except Fault α}
    (hfault : fault.kind.isRequest = true) (hx : ¬p → Answers P x) :
    Answers P (if p then .error fault else x) := by
  split
  · exact .refused hfault
  · rename_i hp
    exact hx hp

theorem foldlM {step : β → α → Except Fault β} {items : List α}
    (hstep : ∀ b, ∀ a ∈ items, Q b → Answers Q (step b a)) {b : β} (hb : Q b) :
    Answers Q (items.foldlM step b) := by
  induction items generalizing b with
  | nil => exact .ok hb
  | cons a rest ih =>
      rw [List.foldlM_cons]
      refine (hstep b a (by simp) hb).bind fun next hnext => ?_
      exact ih (fun b a ha => hstep b a (by simp [ha])) hnext

/-- Steps that keep something of a state make a run that keeps it. -/
theorem foldlM_keeps {γ : Type} (part : β → γ) {step : β → α → Except Fault β} {items : List α}
    {b : β} (hstep : ∀ b', part b' = part b → ∀ a ∈ items,
      Answers (fun next => part next = part b') (step b' a)) :
    Answers (fun last => part last = part b) (items.foldlM step b) :=
  foldlM (fun b' a ha hkept => (hstep b' hkept a ha).imp_ok fun _ _ h => h.trans hkept) rfl

theorem mapM {f : α → Except Fault β} {items : List α} (hf : ∀ a ∈ items, Answers Q (f a)) :
    Answers (fun results => ∀ b ∈ results, Q b) (items.mapM f) := by
  induction items with
  | nil => exact .ok (by simp)
  | cons a rest ih =>
      rw [List.mapM_cons]
      refine (hf a (by simp)).bind fun b hb => ?_
      refine (ih fun a ha => hf a (by simp [ha])).bind fun others hothers => ?_
      exact .ok (List.forall_mem_cons.2 ⟨hb, hothers⟩)

end Answers

/-! ## Texts -/

theorem Reader.answered_readAll (what : String) (read : Reader α) (text : String) :
    Answered (Reader.readAll what read text) := by
  unfold readAll
  split
  · exact .ok trivial
  · exact .refused rfl

theorem ScalarKind.answered_parse (kind : ScalarKind) (text : String) :
    Answered (kind.parse text) := by
  cases kind with
  | string => exact .ok trivial
  | _ =>
      simp only [parse]
      split
      · exact .ok trivial
      · exact .refused rfl

theorem ValueType.answered_parseMember (members : List String) (text : String) :
    Answered (ValueType.parseMember members text) := by
  unfold parseMember
  split
  · exact .ok trivial
  · exact .refused rfl

theorem Target.answered_accept (target : Target) (text : String) (reference : ResourceRef) :
    Answered (target.accept text reference) := by
  unfold accept
  split
  · exact .ok trivial
  · exact .refused rfl

namespace Schema

theorem answered_referable (s : Schema) (text type : String) :
    Answered (s.referable text type) := by
  unfold referable
  split
  · exact .refused rfl
  · split
    · exact .ok trivial
    · exact .refused rfl

/-- A reference is read under types that the schema has; if it has none, the text is to blame. -/
theorem answered_readReference (s : Schema) (text : List Char) :
    Answered (s.readReference text) := by
  fun_induction readReference s text with
  | case1 text hsplit => exact .refused rfl
  | case2 text type id hsplit hempty => exact .refused rfl
  | case3 text type id hsplit hempty idText ih =>
      refine (s.answered_referable _ _).bind fun identifier _ => ?_
      split
      · exact (ScalarKind.answered_parse _ _).bind fun value _ => .ok trivial
      · exact (ValueType.answered_parseMember _ _).bind fun value _ => .ok trivial
      · refine ih.bind fun reference _ => ?_
        exact (Target.answered_accept _ _ reference).bind fun value _ => .ok trivial
      · exact .refused rfl

end Schema

theorem ValueType.answered_parseText (s : Schema) (type : ValueType) (text : String) :
    Answered (type.parseText s text) := by
  unfold parseText
  split
  · exact ScalarKind.answered_parse _ _
  · exact answered_parseMember _ _
  · exact (s.answered_readReference _).bind fun reference _ => Target.answered_accept _ _ reference
  · exact .refused rfl

/-! ## Paths -/

namespace Path

theorem answered_follow (s : Schema) (text : String) (c : Container) (segments : List String) :
    Answered (follow s text c segments) := by
  fun_induction follow s text c segments with
  | case1 | case3 => exact .ok trivial
  | case4 _ _ _ _ _ _ _ _ _ ih | case6 _ _ _ _ _ _ _ _ ih => exact ih.map fun _ _ => trivial
  | _ => exact .refused rfl

/-- From a container that exists, only the path can be wrong. -/
theorem answered_resolve {s : Schema} {start : String} {c : Container}
    (hc : s.container start = .ok c) (text : String) : Answered (resolve s start text) := by
  unfold resolve
  rw [hc, ok_bind]
  refine Answers.check rfl fun _ => ?_
  exact (answered_follow s text c _).bind fun _ _ => .ok trivial

theorem answered_terminal (path : Path) : Answered path.terminal := by
  unfold terminal
  split
  · exact .ok trivial
  · exact .refused rfl

theorem answered_checkEvaluable (s : Schema) (path : Path) :
    Answered (path.checkEvaluable s) := by
  unfold checkEvaluable
  split
  · exact .refused rfl
  · exact .ok trivial

end Path

/-! ## Qualifiers -/

namespace Transform

theorem answered_number (f : TransformFunction) (index : Nat) (text : String) :
    Answered (number f index text) := by
  unfold number
  split
  · exact .ok trivial
  · exact .refused rfl

theorem answered_ofName (name : String) (parameters : List String) :
    Answered (ofName name parameters) := by
  unfold ofName
  split
  · split
    · exact .ok trivial
    · exact .ok trivial
    · refine (answered_number _ _ _).bind fun start _ => ?_
      exact (answered_number _ _ _).bind fun count _ => .ok trivial
    · split
      · split
        · exact (answered_number _ _ _).bind fun width _ => .ok trivial
        · exact .refused rfl
      · exact .refused rfl
    · exact .refused rfl
  · exact .refused rfl

end Transform

namespace Qualifier

theorem answered_transform (q : Qualifier) : Answered q.transform := by
  unfold transform
  split
  · exact .ok trivial
  · rename_i hfault
    exact .refused (by simpa using (Transform.answered_ofName _ _).fault hfault)

theorem answered_readCondition (r : ConditionReading) (q : Qualifier) :
    Answered (readCondition r q) := by
  unfold readCondition
  refine Answers.check rfl fun _ => ?_
  split
  · exact Answers.check rfl fun _ => .ok trivial
  · exact .ok trivial
  · refine Answers.check rfl fun _ => ?_
    exact q.answered_transform.bind fun t _ => .ok trivial

theorem answered_ofCondition (qualifiers : List Qualifier) : Answered (ofCondition qualifiers) :=
  Answers.foldlM (fun r q _ _ => answered_readCondition r q) trivial

theorem answered_readSort (r : SortReading) (q : Qualifier) : Answered (readSort r q) := by
  unfold readSort
  refine Answers.check rfl fun _ => ?_
  split
  · exact .ok trivial
  · split
    · exact .ok trivial
    · split
      · exact q.answered_transform.bind fun t _ => .ok trivial
      · exact .refused rfl

theorem answered_ofSort (qualifiers : List Qualifier) : Answered (ofSort qualifiers) :=
  Answers.foldlM (fun r q _ _ => answered_readSort r q) trivial

end Qualifier

end ResourceQuery
