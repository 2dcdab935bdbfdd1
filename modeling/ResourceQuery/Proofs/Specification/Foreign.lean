import ResourceQuery.Proofs.Specification.Acceptance
/-!
# Parameters of others

A request may carry parameters that are none of this language: their names are not configured, and
no filter that counts has the key they begin with. They are as good as absent. Two requests that
differ in such parameters only are compiled to the same outcome (`Specification.compile_congr`), so
giving them values or leaving them out changes nothing (`Specification.compile_foreign`).
-/

namespace ResourceQuery

/-- A choice by name finds what it chooses, and nothing else. -/
theorem NameMap.find?_filter {α : Type} (p : String → Bool) (name : String) (m : NameMap α) :
    find? name (m.filter fun entry => p entry.1) = if p name then find? name m else none := by
  induction m with
  | nil => simp
  | cons entry rest ih =>
      obtain ⟨key, value⟩ := entry
      by_cases hkey : p key = true
      · rw [List.filter_cons_of_pos (by exact hkey), find?, ih, find?]
        by_cases hname : key = name
        · subst hname
          simp [hkey]
        · simp [hname]
      · rw [List.filter_cons_of_neg (by exact hkey), ih, find?]
        by_cases hname : key = name
        · subst hname
          simp [hkey]
        · simp [hname]

theorem NameMap.Sorted.filter {α : Type} {m : NameMap α} (h : Sorted m) (p : String × α → Bool) :
    Sorted (m.filter p) := by
  rw [Sorted, keys, List.pairwise_map] at h ⊢
  exact h.filter p

namespace Parameters

/-- Give a parameter further values, one after the other. -/
def give (p : Parameters) (name : String) (values : List String) : Parameters :=
  values.foldl (fun p value => p.add name value) p

/-- All parameters but the one of a name. -/
def without (p : Parameters) (name : String) : Parameters :=
  ⟨p.entries.filter fun entry => entry.1 ≠ name, p.sorted.filter _⟩

theorem find?_give {p : Parameters} {name other : String} (hne : other ≠ name)
    (values : List String) : (p.give name values).entries.find? other = p.entries.find? other := by
  induction values generalizing p with
  | nil => rfl
  | cons value rest ih =>
      have hstep : p.give name (value :: rest) = (p.add name value).give name rest := rfl
      rw [hstep, ih, add, NameMap.find?_insert_ne _ _ (Ne.symm hne)]

theorem find?_without {p : Parameters} {name other : String} (hne : other ≠ name) :
    (p.without name).entries.find? other = p.entries.find? other := by
  refine (NameMap.find?_filter (fun key => decide (key ≠ name)) other p.entries).trans ?_
  rw [if_pos (by simpa using hne)]

end Parameters

/-- Steps behind the same outcome agree if they agree on what it may be. -/
theorem bind_congr_of_ok {ε α β : Type} {x : Except ε α} {f g : α → Except ε β}
    (h : ∀ a, x = .ok a → f a = g a) : x >>= f = x >>= g := by
  cases x with
  | error fault => rfl
  | ok a => exact h a rfl

namespace FilterParameters

/-- The parameter belongs to someone else: it is none of the configured ones, and it is addressed
to no filter, or to one that neither is the main filter nor is referred to. -/
structure Foreign (config : Configuration) (params : Parameters) (name : String) : Prop where
  unnamed : name ∉ config.parameterNames
  unaddressed : ∀ root, FilterParameter.root? name = some root →
    root ≠ config.filterKey ∧ ¬Refers config params root

variable {config : Configuration} {params others : Parameters}

/-- Both requests have the same values under all names that are not foreign. -/
def Agree (config : Configuration) (params others : Parameters) : Prop :=
  ∀ name, ¬Foreign config params name →
    others.entries.find? name = params.entries.find? name

theorem Agree.values (h : Agree config params others) {name : String}
    (hname : name ∈ config.parameterNames) : others.values name = params.values name := by
  rw [Parameters.values, Parameters.values, h name fun hforeign => hforeign.unnamed hname]

theorem Agree.referredKeys_eq (h : Agree config params others) :
    referredKeys config others = referredKeys config params := by
  unfold referredKeys
  rw [h.values (by simp [Configuration.parameterNames]),
    h.values (by simp [Configuration.parameterNames])]

theorem not_foreign_of_isAddressed {keys : List String}
    (hkeys : referredKeys config params = .ok keys) {name : String}
    (hname : isAddressed config keys name = true) : ¬Foreign config params name := by
  obtain ⟨root, hroot, -, hcounts⟩ := isAddressed_iff.1 hname
  intro hforeign
  obtain ⟨hmain, hunreferred⟩ := hforeign.unaddressed root hroot
  rcases hcounts with hcounts | hcounts
  · exact hmain hcounts
  · exact hunreferred ((mem_referredKeys hkeys root).1 hcounts)

/-- The same parameters are sorted into filters. -/
theorem Agree.collect_eq (h : Agree config params others) {keys : List String}
    (hkeys : referredKeys config params = .ok keys) :
    collect config keys others = collect config keys params := by
  have hentries : (others.entries.filter fun entry => isAddressed config keys entry.1) =
      params.entries.filter fun entry => isAddressed config keys entry.1 := by
    refine (others.sorted.filter _).ext (params.sorted.filter _) fun name => ?_
    refine (NameMap.find?_filter (isAddressed config keys) name others.entries).trans ?_
    refine Eq.trans ?_ (NameMap.find?_filter (isAddressed config keys) name params.entries).symm
    by_cases hname : isAddressed config keys name = true
    · rw [if_pos hname, if_pos hname, h name (not_foreign_of_isAddressed hkeys hname)]
    · rw [if_neg hname, if_neg hname]
  rw [collect, collect, hentries]

end FilterParameters

namespace Specification

open FilterParameters

variable {config : Configuration} {params others : Parameters}

/-- What is foreign to a request does not take part in compiling it. -/
theorem compile_congr (h : Agree config params others) (s : Schema) (resourceType : String) :
    compile s config resourceType others = compile s config resourceType params := by
  unfold compile
  rw [h.referredKeys_eq]
  refine bind_congr_of_ok fun start _ => bind_congr_of_ok fun keys hkeys => ?_
  rw [h.collect_eq hkeys]
  have hvalues : ∀ name ∈ config.parameterNames, others.values name = params.values name :=
    fun _ => h.values
  have hrange : others.firstNonEmpty? config.rangeParam =
      params.firstNonEmpty? config.rangeParam := by
    rw [Parameters.firstNonEmpty?, Parameters.firstNonEmpty?,
      hvalues _ (by simp [Configuration.parameterNames])]
  rw [hvalues config.orderParam (by simp [Configuration.parameterNames]),
    hvalues config.propertiesParam (by simp [Configuration.parameterNames]),
    hvalues config.referencesParam (by simp [Configuration.parameterNames]), hrange]

/-- A foreign parameter has no influence: values that it is given are not looked at, and without it
the outcome is the same, be it a specification or a fault. -/
theorem compile_foreign {name : String} (h : Foreign config params name) (s : Schema)
    (resourceType : String) :
    (∀ values, compile s config resourceType (params.give name values) =
      compile s config resourceType params) ∧
    compile s config resourceType (params.without name) =
      compile s config resourceType params := by
  have hne : ∀ {other}, ¬Foreign config params other → other ≠ name := by
    rintro other hother rfl
    exact hother h
  constructor
  · intro values
    exact compile_congr (fun other hother => Parameters.find?_give (hne hother) values) s _
  · exact compile_congr (fun other hother => Parameters.find?_without (hne hother)) s _

/-- The order refers to another filter than the one that the parameter is addressed to. -/
theorem compile_foreign_filter :
    Foreign {} windowRequest "g$name" ∧
      (∀ values, compile orderSchema {} "User" (windowRequest.give "g$name" values) =
        compile orderSchema {} "User" windowRequest) ∧
      compile orderSchema {} "User" (windowRequest.without "g$name") =
        compile orderSchema {} "User" windowRequest := by
  have hroot : FilterParameter.root? "g$name" = some "g" := by decide +kernel
  have hread : (referredKeys {} windowRequest).toOption.any
      (fun keys => !keys.contains "g") = true := by
    decide +kernel
  obtain ⟨keys, hkeys, hother⟩ := (Option.any_eq_true _ _).1 hread
  have hforeign : Foreign {} windowRequest "g$name" := by
    refine ⟨by decide, fun root hsome => ?_⟩
    obtain rfl : "g" = root := Option.some.inj (hroot.symm.trans hsome)
    refine ⟨by decide, fun hrefers => ?_⟩
    rw [← mem_referredKeys (toOption_eq_some_iff.1 hkeys)] at hrefers
    simp [hrefers] at hother
  obtain ⟨hgive, hwithout⟩ := compile_foreign hforeign orderSchema "User"
  exact ⟨hforeign, hgive, hwithout⟩

end Specification

end ResourceQuery
