import Mathlib.Data.List.Chain
import ResourceQuery.Proofs.Session.Emission
/-!
# Streams of calls

What calls write stands for a document if they are a stream: one value, where a collection is put
together from the values between its ends, and an object or a map from values behind their names.
`stream_iff` says that these are the sequences that are written without a fault, as long as every
name is followed by a value. An object and a map are open in the same way, so either end closes
either of them.
-/

namespace ResourceQuery

/-- A number in a document, where only finite ones have a place. -/
def Double.written? (x : Double) : Option Json :=
  if x.isFinite then some (.number (.double x)) else none

/-- What a value without parts is in a document, if it can stand there. -/
def Value.written? : Value → Option Json
  | .null => some .null
  | .bool b => some (.bool b)
  | .whole _ n => some (.number (.integer n.value))
  | .float x => Double.written? x.convert
  | .double x => Double.written? x
  | value => value.toText?.map .string

namespace JsonOutput

/-- A call of writing. -/
inductive Call
  | beginObject (discriminator : Option (String × String))
  | propertyName (name : String)
  | endObject
  | beginCollection
  | endCollection
  | beginMap
  | key (name : String)
  | endMap
  | write (value : Value)

namespace Call

def perform : Call → Writing Unit
  | beginObject discriminator => JsonOutput.beginObject discriminator
  | propertyName name | key name => setName name
  | endObject => JsonOutput.endObject
  | beginCollection => JsonOutput.beginCollection
  | endCollection => JsonOutput.endCollection
  | beginMap => JsonOutput.beginMap
  | endMap => JsonOutput.endMap
  | write value => writeLeaf value

/-- The name that the call gives to the next value. -/
def name? : Call → Option String
  | propertyName name | key name => some name
  | _ => none

/-- What the object or the map that the call opens begins with. -/
def front? : Call → Option (List (String × Json))
  | beginObject discriminator =>
    some (discriminator.map fun (name, tag) => (name, Json.string tag)).toList
  | beginMap => some []
  | _ => none

/-- The call is the first one of a value. -/
def startsValue : Call → Bool
  | beginObject _ | beginCollection | beginMap | write _ => true
  | _ => false

/-- The second call ends what the first one opens, with the end of its own kind. -/
def EndsOwn : Call → Call → Prop
  | beginObject _, endObject | beginCollection, endCollection | beginMap, endMap => True
  | _, _ => False

/-- The second call ends what the first one opens; the ends of objects and of maps are the same. -/
def Ends : Call → Call → Prop
  | beginObject _, endObject | beginObject _, endMap => True
  | beginMap, endObject | beginMap, endMap => True
  | beginCollection, endCollection => True
  | _, _ => False

/-- A name is followed by a value. -/
def Continues (first next : Call) : Prop := first.name? = none ∨ next.startsValue = true

end Call

/-- What calls stand for: a value, or the inside of a collection or of an object or a map. -/
inductive Content
  | value (document : Json)
  | items (items : List Json)
  | members (members : List (String × Json))

/-- The calls are a stream that stands for the content; `ends` tells which call ends which. -/
inductive Stream (ends : Call → Call → Prop) : List Call → Content → Prop
  | write {value : Value} {j : Json} (h : value.written? = some j) :
      Stream ends [.write value] (.value j)
  | collection {calls : List Call} {items : List Json} {last : Call}
      (h : Stream ends calls (.items items)) (hends : ends .beginCollection last) :
      Stream ends (.beginCollection :: calls ++ [last]) (.value (.array items))
  | object {first last : Call} {front members : List (String × Json)} {calls : List Call}
      (hfirst : first.front? = some front) (h : Stream ends calls (.members members))
      (hends : ends first last) :
      Stream ends (first :: calls ++ [last])
        (.value (.object (NameMap.ofList (front ++ members))))
  | noItem : Stream ends [] (.items [])
  | item {calls more : List Call} {items : List Json} {j : Json}
      (h : Stream ends calls (.items items)) (hitem : Stream ends more (.value j)) :
      Stream ends (calls ++ more) (.items (items ++ [j]))
  | noMember : Stream ends [] (.members [])
  | member {calls more : List Call} {members : List (String × Json)} {named : Call} {name : String}
      {j : Json} (h : Stream ends calls (.members members)) (hname : named.name? = some name)
      (hmember : Stream ends more (.value j)) :
      Stream ends (calls ++ named :: more) (.members (members ++ [(name, j)]))

/-- All calls and the end of writing succeed, with this document. -/
def Accepts (calls : List Call) (document : Json) : Prop :=
  ∃ final, (forM calls Call.perform).outcome start = (.ok (), final) ∧
    final.finish = .ok document

/-! ## Runs of calls -/

/-- The calls succeed one after the other. -/
def Runs (calls : List Call) (output final : JsonOutput) : Prop :=
  (forM calls Call.perform).outcome output = (.ok (), final)

variable {calls more : List Call} {call first last : Call} {output between final : JsonOutput}

theorem runs_nil (output : JsonOutput) : Runs [] output output := rfl

theorem runs_append :
    Runs (calls ++ more) output final ↔ ∃ between, Runs calls output between ∧
      Runs more between final := by
  unfold Runs
  rw [List.forM_append, Writing.outcome_bind_ok]
  constructor
  · rintro ⟨_, between, hcalls, hmore⟩
    exact ⟨between, hcalls, hmore⟩
  · rintro ⟨between, hcalls, hmore⟩
    exact ⟨(), between, hcalls, hmore⟩

theorem runs_singleton :
    Runs [call] output final ↔ call.perform.outcome output = (.ok (), final) := by
  unfold Runs
  rw [List.forM_cons, List.forM_nil]
  constructor
  · intro h
    obtain ⟨_, between, hcall, hpure⟩ := Writing.outcome_bind_ok.1 h
    cases hpure
    exact hcall
  · exact fun h => Writing.outcome_bind_ok.2 ⟨(), final, h, rfl⟩

theorem runs_cons : Runs (call :: calls) output final ↔
    ∃ between, call.perform.outcome output = (.ok (), between) ∧ Runs calls between final := by
  rw [← List.singleton_append, runs_append]
  simp only [runs_singleton]

/-! ## Single calls -/

theorem writeLeaf_eq_ok {v : Value} :
    (writeLeaf v).outcome output = (.ok (), final) ↔
      ∃ j, v.written? = some j ∧ (emit j).outcome output = (.ok (), final) := by
  have hemit : ∀ i, (emit i).outcome output = (.ok (), final) ↔
      ∃ j, some i = some j ∧ (emit j).outcome output = (.ok (), final) := by
    intro i
    constructor
    · exact fun h => ⟨i, rfl, h⟩
    · rintro ⟨j, hj, h⟩
      cases hj
      exact h
  have hthrow : ∀ fault : Fault, (throw fault : Writing Unit).outcome output = (.ok (), final) ↔
      ∃ j : Json, none = some j ∧ (emit j).outcome output = (.ok (), final) := by
    intro fault
    constructor
    · intro h
      cases h
    · rintro ⟨j, hj, -⟩
      cases hj
  have hdouble : ∀ x : Double, (writeDouble x).outcome output = (.ok (), final) ↔
      ∃ j, x.written? = some j ∧ (emit j).outcome output = (.ok (), final) := by
    intro x
    unfold writeDouble Double.written?
    split
    · exact hemit _
    · exact hthrow _
  cases v with
  | null => exact hemit _
  | bool b => exact hemit _
  | whole width n => exact hemit _
  | float x => exact hdouble _
  | double x => exact hdouble _
  | _ =>
      simp only [writeLeaf, Value.written?]
      split
      · rename_i text htext
        rw [htext]
        exact hemit _
      · rename_i htext
        rw [htext]
        exact hthrow _

theorem perform_beginCollection :
    (Call.beginCollection.perform).outcome output = (.ok (), final) ↔
      final = ⟨.array [] :: output.stack, output.result⟩ := by
  constructor
  · intro h
    cases h
    rfl
  · rintro rfl
    rfl

theorem perform_front {front : List (String × Json)} (h : call.front? = some front) :
    call.perform.outcome output = (.ok (), final) ↔
      final = ⟨.object (NameMap.ofList front) none :: output.stack, output.result⟩ := by
  have hcall : call.perform = push (.object (NameMap.ofList front) none) := by
    cases call with
    | beginObject discriminator => cases discriminator <;> cases h <;> rfl
    | beginMap => cases h; rfl
    | _ => cases h
  rw [hcall]
  constructor
  · intro h
    cases h
    rfl
  · rintro rfl
    rfl

theorem perform_name {name : String} (h : call.name? = some name) :
    call.perform.outcome output = (.ok (), final) ↔
      ∃ members pending rest, output.stack = .object members pending :: rest ∧
        final = ⟨.object members (some name) :: rest, output.result⟩ := by
  have hcall : call.perform = setName name := by
    cases call <;> cases h <;> rfl
  rw [hcall]
  obtain ⟨stack, result⟩ := output
  constructor
  · intro hname
    rcases stack with _ | ⟨⟨members, pending⟩ | ⟨items⟩, rest⟩
    · cases hname
    · cases hname
      exact ⟨members, pending, rest, rfl, rfl⟩
    · cases hname
  · rintro ⟨members, pending, rest, rfl, rfl⟩
    rfl

/-- An end takes the innermost structure off and puts it to where its value belongs. -/
theorem perform_endCollection {items : List Json} {rest : List OpenOutput} {result : Option Json}
    (h : Call.Ends .beginCollection last) :
    last.perform.outcome ⟨.array items :: rest, result⟩ =
      (emit (.array items)).outcome ⟨rest, result⟩ := by
  cases last <;> first | rfl | cases h

theorem perform_end {front : List (String × Json)} {members : NameMap Json}
    {pending : Option String} {rest : List OpenOutput} {result : Option Json}
    (hfirst : first.front? = some front) (h : Call.Ends first last) :
    last.perform.outcome ⟨.object members pending :: rest, result⟩ =
      (emit (.object members)).outcome ⟨rest, result⟩ := by
  cases first with
  | beginObject discriminator => cases last <;> first | rfl | cases h
  | beginMap => cases last <;> first | rfl | cases h
  | _ => cases hfirst

/-! ## Streams are accepted -/

/-- Calls put the content to where it belongs: a value is emitted, and what stands inside a
structure is put into the one that is open. -/
def Content.WrittenBy (calls : List Call) : Content → Prop
  | value j => ∀ output final, (emit j).outcome output = (.ok (), final) → Runs calls output final
  | items inside => ∀ before rest result,
      Runs calls ⟨.array before :: rest, result⟩ ⟨.array (before ++ inside) :: rest, result⟩
  | members inside => ∀ front rest result,
      Runs calls ⟨.object (NameMap.ofList front) none :: rest, result⟩
        ⟨.object (NameMap.ofList (front ++ inside)) none :: rest, result⟩

theorem ofList_append_singleton (members : List (String × Json)) (name : String) (j : Json) :
    NameMap.ofList (members ++ [(name, j)]) = (NameMap.ofList members).insert name j := by
  rw [NameMap.ofList, List.foldl_append]
  rfl

theorem Stream.writtenBy {content : Content} (h : Stream Call.Ends calls content) :
    content.WrittenBy calls := by
  induction h with
  | write hvalue =>
      intro output final hemit
      exact runs_singleton.2 (writeLeaf_eq_ok.2 ⟨_, hvalue, hemit⟩)
  | collection _ hends ih =>
      intro output final hemit
      refine runs_append.2 ⟨_, runs_cons.2 ⟨_, perform_beginCollection.2 rfl, ih [] _ _⟩, ?_⟩
      exact runs_singleton.2 ((perform_endCollection hends).trans hemit)
  | object hfirst _ hends ih =>
      intro output final hemit
      refine runs_append.2 ⟨_, runs_cons.2 ⟨_, (perform_front hfirst).2 rfl, ih _ _ _⟩, ?_⟩
      exact runs_singleton.2 ((perform_end hfirst hends).trans hemit)
  | noItem =>
      intro before rest result
      rw [List.append_nil]
      exact runs_nil _
  | item _ _ ih ihitem =>
      intro before rest result
      refine runs_append.2 ⟨_, ih before rest result, ihitem _ _ ?_⟩
      rw [← List.append_assoc]
      rfl
  | noMember =>
      intro front rest result
      rw [List.append_nil]
      exact runs_nil _
  | @member calls more members named name j _ hname _ ih ihmember =>
      intro front rest result
      have hnamed : named.perform.outcome
          ⟨.object (NameMap.ofList (front ++ members)) none :: rest, result⟩ =
            (.ok (), ⟨.object (NameMap.ofList (front ++ members)) (some name) :: rest, result⟩) :=
        (perform_name hname).2 ⟨_, _, rest, rfl, rfl⟩
      refine runs_append.2 ⟨_, ih front rest result, runs_cons.2 ⟨_, hnamed, ihmember _ _ ?_⟩⟩
      rw [← List.append_assoc, ofList_append_singleton]
      rfl

theorem Stream.accepts {document : Json} (h : Stream Call.Ends calls (.value document)) :
    Accepts calls document :=
  ⟨⟨[], some document⟩, h.writtenBy start _ rfl, rfl⟩

/-! ## Names in a stream -/

/-- In a part of a stream, every name is followed by a value. -/
structure Followed (calls : List Call) : Prop where
  chain : calls.IsChain Call.Continues
  last : ∀ call ∈ calls.getLast?, call.name? = none

theorem followed_nil : Followed [] := ⟨.nil, by simp⟩

theorem followed_singleton (h : call.name? = none) : Followed [call] := ⟨.singleton _, by simpa⟩

theorem Followed.append (h : Followed calls) (h' : Followed more) : Followed (calls ++ more) := by
  constructor
  · rw [List.isChain_append]
    exact ⟨h.chain, h'.chain, fun call hcall _ _ => .inl (h.last call hcall)⟩
  · intro call hcall
    rw [List.getLast?_append, Option.mem_def, Option.or_eq_some_iff] at hcall
    rcases hcall with hcall | ⟨-, hcall⟩
    · exact h'.last call hcall
    · exact h.last call hcall

theorem Call.name?_of_ends (h : Call.Ends first last) : last.name? = none := by
  cases first <;> cases last <;> first | rfl | cases h

theorem Call.startsValue_of_front? {front : List (String × Json)} (h : first.front? = some front) :
    first.startsValue = true := by
  cases first <;> first | rfl | cases h

theorem Call.name?_of_startsValue (h : first.startsValue = true) : first.name? = none := by
  cases first <;> first | rfl | cases h

/-- A value begins with a call that starts one. -/
theorem Stream.head {ends : Call → Call → Prop} {j : Json} (h : Stream ends calls (.value j)) :
    ∃ first rest, calls = first :: rest ∧ first.startsValue = true := by
  cases h with
  | write hvalue => exact ⟨_, [], rfl, rfl⟩
  | collection hitems hends => exact ⟨_, _, rfl, rfl⟩
  | object hfirst hmembers hends => exact ⟨_, _, rfl, Call.startsValue_of_front? hfirst⟩

theorem Stream.followed {content : Content} (h : Stream Call.Ends calls content) :
    Followed calls := by
  induction h with
  | write hvalue => exact followed_singleton rfl
  | collection _ hends ih =>
      exact ((followed_singleton rfl).append ih).append
        (followed_singleton (Call.name?_of_ends hends))
  | object hfirst _ hends ih =>
      have hname := Call.name?_of_startsValue (Call.startsValue_of_front? hfirst)
      exact ((followed_singleton hname).append ih).append
        (followed_singleton (Call.name?_of_ends hends))
  | noItem => exact followed_nil
  | item _ _ ih ihitem => exact ih.append ihitem
  | noMember => exact followed_nil
  | member _ _ hmember ih ihmember =>
      obtain ⟨first, rest, rfl, hstarts⟩ := hmember.head
      apply ih.append
      exact ⟨.cons_cons (.inr hstarts) ihmember.chain, by simpa using ihmember.last⟩

/-! ## What is accepted is a stream -/

/-- Where writing stands behind calls: which of them make up the parts of the structures that are
open, and which value is done. -/
inductive Standing : List Call → JsonOutput → Prop
  | start : Standing [] start
  | done {calls : List Call} {j : Json} (h : Stream Call.Ends calls (.value j)) :
      Standing calls ⟨[], some j⟩
  | items {before calls : List Call} {output : JsonOutput} {items : List Json}
      (hbefore : Standing before output) (h : Stream Call.Ends calls (.items items)) :
      Standing (before ++ .beginCollection :: calls) ⟨.array items :: output.stack, output.result⟩
  | members {before calls : List Call} {first : Call} {front members : List (String × Json)}
      {output : JsonOutput} (hbefore : Standing before output)
      (hfirst : first.front? = some front) (h : Stream Call.Ends calls (.members members)) :
      Standing (before ++ first :: calls)
        ⟨.object (NameMap.ofList (front ++ members)) none :: output.stack, output.result⟩
  | named {before calls : List Call} {first call : Call} {front members : List (String × Json)}
      {name : String} {output : JsonOutput} (hbefore : Standing before output)
      (hfirst : first.front? = some front) (h : Stream Call.Ends calls (.members members))
      (hname : call.name? = some name) :
      Standing (before ++ first :: calls ++ [call])
        ⟨.object (NameMap.ofList (front ++ members)) (some name) :: output.stack, output.result⟩

/-- A value that can be put to where writing stands becomes a part of what is open there. -/
theorem Standing.value {j : Json} (h : Standing calls output)
    (hvalue : Stream Call.Ends more (.value j))
    (hemit : (emit j).outcome output = (.ok (), final)) : Standing (calls ++ more) final := by
  cases h with
  | start =>
      cases hemit
      exact .done hvalue
  | done _ => cases hemit
  | items hbefore hitems =>
      cases hemit
      rw [List.append_assoc]
      exact .items hbefore (hitems.item hvalue)
  | members hbefore hfirst hmembers => cases hemit
  | named hbefore hfirst hmembers hname =>
      cases hemit
      rw [← ofList_append_singleton, List.append_assoc, List.append_assoc, List.append_assoc]
      exact .members hbefore hfirst (hmembers.member hname hvalue)

/-- Behind a name, only a value may come. -/
theorem Call.startsValue_of_continues {name : String} (h : Continues first call)
    (hname : first.name? = some name) : call.startsValue = true := by
  rcases h with hnone | hstarts
  · rw [hname] at hnone
    cases hnone
  · exact hstarts

theorem Standing.name {name : String} (h : Standing calls output)
    (hlast : ∀ last ∈ calls.getLast?, Call.Continues last call) (hname : call.name? = some name)
    (hrun : call.perform.outcome output = (.ok (), final)) : Standing (calls ++ [call]) final := by
  obtain ⟨_, _, _, hstack, rfl⟩ := (perform_name hname).1 hrun
  cases h with
  | start => cases hstack
  | done _ => cases hstack
  | items hbefore hitems => cases hstack
  | members hbefore hfirst hmembers =>
      cases hstack
      exact .named hbefore hfirst hmembers hname
  | named hbefore hfirst hmembers hother =>
      have hstarts := Call.startsValue_of_continues (hlast _ List.getLast?_concat) hother
      rw [Call.name?_of_startsValue hstarts] at hname
      cases hname

theorem Standing.endCollection (h : Standing calls output)
    (hrun : JsonOutput.endCollection.outcome output = (.ok (), final)) :
    Standing (calls ++ [.endCollection]) final := by
  cases h with
  | start => cases hrun
  | done _ => cases hrun
  | items hbefore hitems =>
      have hends : Call.Ends .beginCollection .endCollection := trivial
      have hclosed := hbefore.value (hitems.collection hends)
        ((perform_endCollection hends).symm.trans hrun)
      rwa [List.append_assoc]
  | members hbefore hfirst hmembers => cases hrun
  | named hbefore hfirst hmembers hname => cases hrun

theorem Standing.endObject (h : Standing calls output)
    (hlast : ∀ last ∈ calls.getLast?, Call.Continues last call)
    (hcall : call = .endObject ∨ call = .endMap)
    (hrun : JsonOutput.endObject.outcome output = (.ok (), final)) :
    Standing (calls ++ [call]) final := by
  have hperform : call.perform = JsonOutput.endObject := by
    rcases hcall with rfl | rfl <;> rfl
  have hstarts : call.startsValue = false := by
    rcases hcall with rfl | rfl <;> rfl
  rw [← hperform] at hrun
  cases h with
  | start => rcases hcall with rfl | rfl <;> cases hrun
  | done _ => rcases hcall with rfl | rfl <;> cases hrun
  | items hbefore hitems => rcases hcall with rfl | rfl <;> cases hrun
  | @members before calls first front members output hbefore hfirst hmembers =>
      have hends : first.Ends call := by
        rcases hcall with rfl | rfl <;> cases first <;> trivial
      have hclosed := hbefore.value (hmembers.object hfirst hends)
        ((perform_end hfirst hends).symm.trans hrun)
      rwa [List.append_assoc]
  | named hbefore hfirst hmembers hname =>
      have hvalue := Call.startsValue_of_continues (hlast _ List.getLast?_concat) hname
      rw [hstarts] at hvalue
      cases hvalue

theorem Standing.step (h : Standing calls output)
    (hlast : ∀ last ∈ calls.getLast?, Call.Continues last call)
    (hrun : call.perform.outcome output = (.ok (), final)) : Standing (calls ++ [call]) final := by
  cases call with
  | beginObject discriminator =>
      rw [(perform_front rfl).1 hrun]
      have hfront : (Call.beginObject discriminator).front? =
          some (discriminator.map fun (name, tag) => (name, Json.string tag)).toList := rfl
      have hopened := h.members hfront .noMember
      rwa [List.append_nil] at hopened
  | beginMap =>
      rw [(perform_front rfl).1 hrun]
      have hfront : Call.beginMap.front? = some [] := rfl
      exact h.members hfront .noMember
  | beginCollection =>
      rw [perform_beginCollection.1 hrun]
      exact h.items .noItem
  | propertyName name => exact h.name hlast rfl hrun
  | key name => exact h.name hlast rfl hrun
  | endObject => exact h.endObject hlast (.inl rfl) hrun
  | endMap => exact h.endObject hlast (.inr rfl) hrun
  | endCollection => exact h.endCollection hrun
  | write value =>
      obtain ⟨j, hj, hemit⟩ := writeLeaf_eq_ok.1 hrun
      exact h.value (.write hj) hemit

theorem Standing.of_runs (hchain : calls.IsChain Call.Continues) (h : Runs calls .start final) :
    Standing calls final := by
  induction calls using List.reverseRecOn generalizing final with
  | nil =>
      cases h
      exact .start
  | append_singleton calls call ih =>
      obtain ⟨between, hcalls, hcall⟩ := runs_append.1 h
      obtain ⟨hchain, -, hlast⟩ := List.isChain_append.1 hchain
      exact (ih hchain hcalls).step (fun last hmem => hlast last hmem call rfl)
        (runs_singleton.1 hcall)

/-- The sequences of calls that are written without a fault, and in which every name is followed by
a value, are the streams; and the document is what the stream stands for. -/
theorem stream_iff (calls : List Call) (document : Json) :
    Stream Call.Ends calls (.value document) ↔
      calls.IsChain Call.Continues ∧ Accepts calls document := by
  constructor
  · exact fun h => ⟨h.followed.chain, h.accepts⟩
  · rintro ⟨hchain, final, hruns, hfinish⟩
    cases Standing.of_runs hchain hruns with
    | start => cases hfinish
    | done h =>
        cases hfinish
        exact h
    | items => cases hfinish
    | members => cases hfinish
    | named => cases hfinish

/-! ## What else is accepted -/

theorem Stream.mono {ends others : Call → Call → Prop} {content : Content}
    (hends : ∀ first last, ends first last → others first last) (h : Stream ends calls content) :
    Stream others calls content := by
  induction h with
  | write hvalue => exact .write hvalue
  | collection _ hlast ih => exact .collection ih (hends _ _ hlast)
  | object hfirst _ hlast ih => exact .object hfirst ih (hends _ _ hlast)
  | noItem => exact .noItem
  | item _ _ ih ihitem => exact .item ih ihitem
  | noMember => exact .noMember
  | member _ hname _ ih ihmember => exact .member ih hname ihmember

theorem Call.ends_of_endsOwn (first last : Call) (h : EndsOwn first last) : Ends first last := by
  cases first <;> cases last <;> trivial

/-- The last call of a structure ends what the first one opens. -/
theorem Stream.ends_getLast {ends : Call → Call → Prop} {j : Json}
    (h : Stream ends (first :: calls) (.value j)) (hne : calls ≠ []) :
    ∃ last ∈ calls.getLast?, ends first last := by
  generalize heq : first :: calls = whole at h
  cases h with
  | write hvalue =>
      cases heq
      exact absurd rfl hne
  | collection hitems hends =>
      cases heq
      exact ⟨_, List.getLast?_concat, hends⟩
  | object hfirst hmembers hends =>
      cases heq
      exact ⟨_, List.getLast?_concat, hends⟩

/-- An object that is ended as a map is accepted, and so is a name without a value; neither is a
stream of structures that are closed by ends of their own kinds. -/
theorem accepts_beyond_own_ends :
    (Accepts [.beginObject none, .endMap] (.object []) ∧
      ∀ document, ¬Stream Call.EndsOwn [.beginObject none, .endMap] (.value document)) ∧
    Accepts [.beginObject none, .propertyName "a", .endObject] (.object []) ∧
      ∀ document, ¬Stream Call.EndsOwn [.beginObject none, .propertyName "a", .endObject]
        (.value document) := by
  refine ⟨⟨⟨_, rfl, rfl⟩, ?_⟩, ⟨_, rfl, rfl⟩, ?_⟩
  · intro document h
    obtain ⟨last, hlast, hends⟩ := h.ends_getLast (by simp)
    cases hlast
    exact hends
  · intro document h
    have hchain := (h.mono Call.ends_of_endsOwn).followed.chain
    rcases hchain with _ | _ | ⟨-, _ | _ | ⟨hname, -⟩⟩
    rcases hname with hnone | hstarts
    · cases hnone
    · cases hstarts

end JsonOutput

end ResourceQuery
