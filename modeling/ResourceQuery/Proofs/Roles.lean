import ResourceQuery.Proofs.NameMap
import ResourceQuery.Access
/-!
# Role lists

A list of roles stands for alternatives: a principal that one entry alone would let in is let in by
the list, however long it is. `authenticated` is the exception. It takes the place of all roles
that stand beside it, so a principal without a name is turned away, whatever roles it has
(`Access.Masks`). The main result, `Access.permits_alternatives`, says that nothing else differs,
and that access never shrinks with a further entry, masking apart, or with a further role.
-/

namespace ResourceQuery

/-- The principal with one more role. -/
def Principal.withRole (p : Principal) (role : String) : Principal :=
  { p with roles := NameSet.insert role p.roles }

namespace Access

variable {declared more : List String} {p : Principal}

/-- The list asks for a name that the principal does not have, and looks at no other role. -/
def Masks (declared : List String) (p : Principal) : Prop :=
  everyoneRole ∉ declared ∧ authenticatedRole ∈ declared ∧ p.name = none

/-- What the rule of a list asks of a principal. -/
theorem permits_ofRoles : (ofRoles declared).permits p = true ↔
    everyoneRole ∈ declared ∨
      (everyoneRole ∉ declared ∧ authenticatedRole ∈ declared ∧ p.name.isSome = true) ∨
      (everyoneRole ∉ declared ∧ authenticatedRole ∉ declared ∧
        ∃ role ∈ declared, role ∈ p.roles) := by
  unfold ofRoles
  cases declared with
  | nil => simp [permits]
  | cons first rest =>
      by_cases heveryone : everyoneRole ∈ first :: rest
      · simp [heveryone, permits]
      · by_cases hnamed : authenticatedRole ∈ first :: rest
        · simp [heveryone, hnamed, permits]
        · have hroles : (roles (NameSet.ofList (first :: rest))).permits p = true ↔
              ∃ role ∈ first :: rest, role ∈ p.roles := by
            simp only [permits, List.any_eq_true, NameSet.mem_ofList, List.contains_iff_mem]
          simpa [heveryone, hnamed] using hroles

/-- What a single entry asks of a principal. -/
theorem permits_entry {entry : String} : (ofRoles [entry]).permits p = true ↔
    entry = everyoneRole ∨ (entry = authenticatedRole ∧ p.name.isSome = true) ∨
      (entry ≠ everyoneRole ∧ entry ≠ authenticatedRole ∧ entry ∈ p.roles) := by
  have hdistinct : everyoneRole ≠ authenticatedRole := by decide
  rw [permits_ofRoles]
  simp only [List.mem_singleton, exists_eq_left]
  constructor
  · rintro (h | ⟨-, h, hname⟩ | ⟨hne, hne', hrole⟩)
    · exact .inl h.symm
    · exact .inr (.inl ⟨h.symm, hname⟩)
    · exact .inr (.inr ⟨Ne.symm hne, Ne.symm hne', hrole⟩)
  · rintro (h | ⟨rfl, hname⟩ | ⟨hne, hne', hrole⟩)
    · exact .inl h.symm
    · exact .inr (.inl ⟨hdistinct, rfl, hname⟩)
    · exact .inr (.inr ⟨Ne.symm hne, Ne.symm hne', hrole⟩)

/-- A list permits whom one of its entries permits, unless it masks that entry. -/
theorem permits_iff_exists_entry : (ofRoles declared).permits p = true ↔
    (∃ entry ∈ declared, (ofRoles [entry]).permits p = true) ∧ ¬Masks declared p := by
  simp only [permits_entry]
  rw [permits_ofRoles]
  constructor
  · rintro (heveryone | ⟨-, hnamed, hname⟩ | ⟨heveryone, hnamed, role, hrole, hmem⟩)
    · exact ⟨⟨_, heveryone, .inl rfl⟩, fun h => h.1 heveryone⟩
    · refine ⟨⟨_, hnamed, .inr (.inl ⟨rfl, hname⟩)⟩, fun h => ?_⟩
      simp [h.2.2] at hname
    · refine ⟨⟨role, hrole, .inr (.inr ⟨?_, ?_, hmem⟩)⟩, fun h => hnamed h.2.1⟩
      · exact fun heq => heveryone (heq ▸ hrole)
      · exact fun heq => hnamed (heq ▸ hrole)
  · rintro ⟨⟨entry, hentry, hpermits⟩, hunmasked⟩
    by_cases heveryone : everyoneRole ∈ declared
    · exact .inl heveryone
    · by_cases hnamed : authenticatedRole ∈ declared
      · refine .inr (.inl ⟨heveryone, hnamed, ?_⟩)
        rw [Option.isSome_iff_ne_none]
        exact fun hname => hunmasked ⟨heveryone, hnamed, hname⟩
      · refine .inr (.inr ⟨heveryone, hnamed, entry, hentry, ?_⟩)
        rcases hpermits with rfl | ⟨rfl, -⟩ | ⟨-, -, hrole⟩
        · exact absurd hentry heveryone
        · exact absurd hentry hnamed
        · exact hrole

/-- A longer list lets in everyone that the shorter one does, unless it masks them. -/
theorem permits_mono (h : declared ⊆ more) (hp : (ofRoles declared).permits p = true)
    (hunmasked : ¬Masks more p) : (ofRoles more).permits p = true := by
  obtain ⟨⟨entry, hentry, hpermits⟩, -⟩ := permits_iff_exists_entry.1 hp
  exact permits_iff_exists_entry.2 ⟨⟨entry, h hentry, hpermits⟩, hunmasked⟩

/-- No rule turns a principal away because of a role. -/
theorem permits_withRole {a : Access} (role : String) (h : a.permits p = true) :
    a.permits (p.withRole role) = true := by
  cases a with
  | everyone => rfl
  | nobody => cases h
  | authenticated => exact h
  | roles names =>
      simp only [permits, List.any_eq_true, List.contains_iff_mem] at h ⊢
      obtain ⟨name, hname, hrole⟩ := h
      exact ⟨name, hname, NameSet.mem_insert.2 (.inr hrole)⟩

/-- The entries of a role list are alternatives, as far as `authenticated` does not mask them, and
neither a further entry nor a further role of the principal takes access away. -/
theorem permits_alternatives (declared : List String) (p : Principal) :
    ((ofRoles declared).permits p = true ↔
      (∃ entry ∈ declared, (ofRoles [entry]).permits p = true) ∧ ¬Masks declared p) ∧
    (∀ front entry back, declared = front ++ back → (ofRoles declared).permits p = true →
      ¬Masks (front ++ entry :: back) p →
        (ofRoles (front ++ entry :: back)).permits p = true) ∧
    (∀ role, (ofRoles declared).permits p = true →
      (ofRoles declared).permits (p.withRole role) = true) ∧
    ∀ (rules : AccessRules) op role, rules.permits op (some p) = true →
      rules.permits op (some (p.withRole role)) = true := by
  refine ⟨permits_iff_exists_entry, ?_, fun role => permits_withRole role,
    fun rules op role => permits_withRole role⟩
  rintro front entry back rfl hp
  refine permits_mono ?_ hp
  intro other hother
  rcases List.mem_append.1 hother with hother | hother
  · exact List.mem_append.2 (.inl hother)
  · exact List.mem_append.2 (.inr (List.mem_cons_of_mem _ hother))

/-- Someone with a name is let in by a role that stands beside `authenticated`. -/
theorem permits_alternatives_named :
    (ofRoles ["admin"]).permits ⟨some "Ann", ["admin"]⟩ = true ∧
      ¬Masks ["admin", authenticatedRole] ⟨some "Ann", ["admin"]⟩ ∧
      (ofRoles ["admin", authenticatedRole]).permits ⟨some "Ann", ["admin"]⟩ = true ∧
      (ofRoles ["admin"]).permits (Principal.withRole ⟨some "Ann", ["admin"]⟩ "guest") = true := by
  have hunmasked : ¬Masks ["admin", authenticatedRole] ⟨some "Ann", ["admin"]⟩ := by
    rintro ⟨-, -, hname⟩
    cases hname
  have hadmin : (ofRoles ["admin"]).permits ⟨some "Ann", ["admin"]⟩ = true := by decide
  obtain ⟨-, hentry, hrole, -⟩ := permits_alternatives ["admin"] ⟨some "Ann", ["admin"]⟩
  exact ⟨hadmin, hunmasked, hentry ["admin"] authenticatedRole [] rfl hadmin hunmasked,
    hrole "guest" hadmin⟩

/-- A nameless principal loses what its role gives it once `authenticated` is declared too. -/
theorem authenticated_masks_admin :
    (ofRoles ["admin"]).permits ⟨none, ["admin"]⟩ = true ∧
      (ofRoles [authenticatedRole, "admin"]).permits ⟨none, ["admin"]⟩ = false ∧
      ¬∀ (declared : List String) (p : Principal), (ofRoles declared).permits p = true ↔
        ∃ entry ∈ declared, (ofRoles [entry]).permits p = true := by
  have hadmin : (ofRoles ["admin"]).permits ⟨none, ["admin"]⟩ = true := by decide
  have hmasked : (ofRoles [authenticatedRole, "admin"]).permits ⟨none, ["admin"]⟩ = false := by
    decide
  refine ⟨hadmin, hmasked, fun halternatives => ?_⟩
  have hboth := (halternatives [authenticatedRole, "admin"] ⟨none, ["admin"]⟩).2
    ⟨"admin", by simp, hadmin⟩
  rw [hmasked] at hboth
  cases hboth

end Access

end ResourceQuery
