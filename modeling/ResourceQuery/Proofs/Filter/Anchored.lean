import ResourceQuery.Proofs.Compile.Conditions
import ResourceQuery.Proofs.Filter.Calls
/-!
# Where conditions start

A base path is only set while there is no condition. So whichever calls put a filter together, all
of its conditions start at one container: at the resource, or where the base path leads.
-/

namespace ResourceQuery

namespace Filter

/-- A filter whose outermost group has no items has no conditions anywhere. -/
theorem Nested.not_contains_of_isEmpty {f : Filter} (h : Nested f.groups)
    (hempty : f.isEmpty = true) (c : Condition) : ¬ Contains f.groups root c := by
  obtain ⟨outermost, hroot, -⟩ := h.outermost
  have hitems : outermost.items = [] := by
    simpa [isEmpty, group?, hroot] using hempty
  have hnone : ∀ number, around? f.groups number ≠ some root := by
    intro number haround
    have hinner := (h.mem_inner hroot).2 haround
    rw [FilterGroup.inner, hitems] at hinner
    cases hinner
  have hself : ∀ {number outer}, Within f.groups number outer → outer = root → number = root := by
    intro number outer hwithin
    induction hwithin with
    | self _ => exact id
    | outward haround _ ih =>
        intro houter
        exact absurd (ih houter ▸ haround) (hnone _)
  rintro ⟨number, g, hwithin, hg, hc⟩
  rw [hself hwithin rfl, hroot] at hg
  cases hg
  rw [hitems] at hc
  cases hc

/-- All conditions start at the scope, which is the resource, or where the base path leads. -/
structure Anchored (s : Schema) (f : Filter) : Prop where
  nested : Nested f.groups
  based : f.Scoped s f.resourceType
  resolved : ∀ c, Contains f.groups root c → Path.resolve s f.scope c.path.text = .ok c.path

namespace Anchored

variable {s : Schema} {f f' : Filter} {call : FilterCall} {resourceType : String}

theorem all (h : Filter.all s resourceType = .ok f) : f.Anchored s := by
  have hnested := (Arranged.all h).nested
  obtain ⟨c, -, h⟩ := bind_eq_ok_iff.1 h
  cases h
  exact ⟨hnested, rfl, fun c hc => (hnested.not_contains_of_isEmpty rfl c hc).elim⟩

theorem apply (h : f.Anchored s) (hcall : call.apply s f = .ok f') : f'.Anchored s := by
  have hnested := h.nested.apply hcall
  cases hset : call.setsBasePath with
  | true =>
      obtain ⟨path, rfl⟩ := FilterCall.eq_basePath_of_sets hset
      have hbased : f'.Scoped s f.resourceType := scoped_of_withBasePath hcall
      obtain ⟨hempty, _, _, _, -, -, -, -, rfl⟩ := withBasePath_eq_ok_iff.1 hcall
      exact ⟨hnested, hbased, fun c hc => (h.nested.not_contains_of_isEmpty hempty c hc).elim⟩
  | false =>
      obtain ⟨hbase, htype, hscope⟩ := kept_of_apply hcall hset
      refine ⟨hnested, ?_, fun c hc => ?_⟩
      · have hbased := h.based
        unfold Scoped at hbased ⊢
        rwa [hbase, htype, hscope]
      · rw [hscope]
        rcases contains_of_apply h.nested hcall hc with hold | ⟨path, _, _, _, hmade⟩
        · exact h.resolved c hold
        · have hresolved := (makeCondition_eq_ok_iff.1 hmade).1
          rwa [(Path.resolve_ok hresolved).1]

theorem foldl_after {calls : List FilterCall} (h : f.Anchored s) :
    (calls.foldl (Filter.after s) f).Anchored s :=
  foldl_after_keeps h fun _ _ _ => apply

theorem resolve_of_mem (h : f.Anchored s) {c : Condition} (hc : c ∈ f.conditions) :
    Path.resolve s f.scope c.path.text = .ok c.path :=
  h.resolved c ((h.nested.mem_conditions_treeAt (by omega) h.nested.root_lt).1 hc)

end Anchored

end Filter

end ResourceQuery
