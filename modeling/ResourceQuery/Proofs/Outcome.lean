import Mathlib.Data.List.Forall2
import Mathlib.Data.List.Perm.Basic
/-!
# Outcomes of chains

Steps that may fail are chained in `Except`. These lemmas take a chain apart from the end that was
reached; `FailsBy` says how it may fail.
-/

namespace ResourceQuery

variable {ε α β : Type}

theorem ok_bind (a : α) (f : α → Except ε β) : (Except.ok a >>= f) = f a := rfl

theorem error_bind (fault : ε) (f : α → Except ε β) :
    (Except.error fault >>= f) = Except.error fault := rfl

theorem throw_eq_error (fault : ε) : (throw fault : Except ε α) = .error fault := rfl

theorem throw_bind (fault : ε) (f : α → Except ε β) :
    ((throw fault : Except ε α) >>= f) = Except.error fault := rfl

/-- A check that is passed leaves what comes behind it. -/
theorem ite_error_eq_ok_iff {p : Prop} [Decidable p] {fault : ε} {x : Except ε α} {a : α} :
    (if p then Except.error fault else x) = .ok a ↔ ¬p ∧ x = .ok a := by
  by_cases hp : p
  · simp [hp]
  · simp [hp]

/-- A chain ends well if both of its parts do. -/
theorem bind_eq_ok_iff {x : Except ε α} {f : α → Except ε β} {b : β} :
    x >>= f = .ok b ↔ ∃ a, x = .ok a ∧ f a = .ok b := by
  cases x with
  | error fault => simp [error_bind]
  | ok a => simp [ok_bind]

theorem map_eq_ok_iff {x : Except ε α} {f : α → β} {b : β} :
    f <$> x = .ok b ↔ ∃ a, x = .ok a ∧ f a = b := by
  cases x with
  | error fault => simp [Functor.map, Except.map]
  | ok a => simp [Functor.map, Except.map]

theorem toOption_eq_some_iff {x : Except ε α} {a : α} : x.toOption = some a ↔ x = .ok a := by
  cases x <;> simp [Except.toOption]

theorem isSome_toOption_iff {x : Except ε α} : x.toOption.isSome = true ↔ ∃ a, x = .ok a := by
  simp only [Option.isSome_iff_exists, toOption_eq_some_iff]

theorem guard_of {p : Prop} [Decidable p] (h : p) : (guard p : Option Unit) = some () := if_pos h

theorem guard_of_not {p : Prop} [Decidable p] (h : ¬p) : (guard p : Option Unit) = none := if_neg h

theorem guard_eq_some_iff {p : Prop} [Decidable p] {u : Unit} :
    (guard p : Option Unit) = some u ↔ p := by
  by_cases h : p
  · rw [guard_of h]
    exact iff_of_true rfl h
  · rw [guard_of_not h]
    exact iff_of_false nofun h

theorem foldlM_singleton (f : β → α → Except ε β) (b : β) (a : α) : [a].foldlM f b = f b a := by
  rw [List.foldlM_cons]
  cases f b a <;> rfl

/-- What holds after each step holds after a run. -/
theorem foldlM_invariant {ε σ α : Type} {step : σ → α → Except ε σ} {P : σ → Prop}
    {items : List α} {s t : σ} (h : items.foldlM step s = .ok t) (hs : P s)
    (hstep : ∀ s a t, a ∈ items → P s → step s a = .ok t → P t) : P t := by
  induction items generalizing s with
  | nil =>
      obtain rfl : s = t := by simpa [pure, Except.pure] using h
      exact hs
  | cons a rest ih =>
      rw [List.foldlM_cons] at h
      obtain ⟨between, hfirst, hrest⟩ := bind_eq_ok_iff.1 h
      exact ih hrest (hstep s a between (by simp) hs hfirst)
        fun s b t hb hP hrun => hstep s b t (by simp [hb]) hP hrun

/-- What every step adds to, with its element, holds of all elements after a run. -/
theorem foldlM_accumulates {f : β → α → Except ε β} (I : List α → β → Prop)
    (hstep : ∀ before a b b', I before b → f b a = .ok b' → I (before ++ [a]) b') {items : List α}
    {before : List α} {b b' : β} (hb : I before b) (h : items.foldlM f b = .ok b') :
    I (before ++ items) b' := by
  induction items generalizing before b with
  | nil =>
      cases h
      simpa using hb
  | cons a rest ih =>
      rw [List.foldlM_cons, bind_eq_ok_iff] at h
      obtain ⟨next, hnext, hrest⟩ := h
      simpa using ih (hstep before a b next hb hnext) hrest

/-- Steps that never fail make a run that does not. -/
theorem foldlM_isOk {f : β → α → Except ε β} {items : List α}
    (h : ∀ b, ∀ a ∈ items, ∃ b', f b a = .ok b') (b : β) : ∃ b', items.foldlM f b = .ok b' := by
  induction items generalizing b with
  | nil => exact ⟨b, rfl⟩
  | cons a rest ih =>
      obtain ⟨next, hnext⟩ := h b a (by simp)
      rw [List.foldlM_cons, hnext]
      exact ih (fun b a ha => h b a (by simp [ha])) next

/-- A run along a plan does not fail, and keeps what each step adds to. -/
theorem foldlM_follows {γ : Type} {f : β → α → Except ε β} {R : γ → α → Prop}
    (I : List γ → β → Prop) {plan before : List γ} {items : List α} {b : β}
    (hstep : ∀ front c rest a b, before ++ plan = front ++ c :: rest → R c a → I front b →
      ∃ b', f b a = .ok b' ∧ I (front ++ [c]) b')
    (hplan : List.Forall₂ R plan items) (hb : I before b) :
    ∃ b', items.foldlM f b = .ok b' ∧ I (before ++ plan) b' := by
  induction hplan generalizing before b with
  | nil => exact ⟨b, rfl, by simpa using hb⟩
  | @cons c a rest items hca hrest ih =>
      obtain ⟨next, hnext, hinvariant⟩ := hstep before c rest a b rfl hca hb
      have hsame : (before ++ [c]) ++ rest = before ++ c :: rest := by simp
      rw [List.foldlM_cons, hnext, ok_bind, ← hsame]
      exact ih (by rwa [hsame]) hinvariant

theorem forM_eq_ok_iff {f : α → Except ε Unit} {items : List α} :
    items.forM f = .ok () ↔ ∀ a ∈ items, f a = .ok () := by
  induction items with
  | nil => simp [pure, Except.pure]
  | cons a rest ih =>
      have hcons : (a :: rest).forM f = f a >>= fun _ => rest.forM f := rfl
      rw [hcons, bind_eq_ok_iff, List.forall_mem_cons, ← ih]
      exact ⟨fun ⟨_, hfirst, hrest⟩ => ⟨hfirst, hrest⟩, fun h => ⟨(), h⟩⟩

/-- All elements are mapped, or the chain fails. -/
theorem mapM_eq_some_iff {f : α → Option β} {items : List α} {results : List β} :
    items.mapM f = some results ↔ items.map f = results.map some := by
  induction items generalizing results with
  | nil =>
      rw [List.mapM_nil, List.map_nil]
      cases results <;> simp [pure]
  | cons item rest ih =>
      simp only [List.mapM_cons, Option.bind_eq_bind, Option.bind_eq_some_iff, List.map_cons]
      constructor
      · rintro ⟨result, hresult, others, hothers, heq⟩
        obtain rfl : result :: others = results := by simpa using heq
        rw [List.map_cons, hresult, ih.1 hothers]
      · intro h
        cases results with
        | nil => simp at h
        | cons result others =>
            rw [List.map_cons, List.cons.injEq] at h
            exact ⟨result, h.1, others, ih.2 h.2, rfl⟩

/-- The results are those of the elements. -/
theorem mem_of_mapM_eq_some {f : α → Option β} {items : List α} {results : List β}
    (h : items.mapM f = some results) (result : β) :
    result ∈ results ↔ ∃ item ∈ items, f item = some result := by
  rw [mapM_eq_some_iff] at h
  calc
    result ∈ results ↔ some result ∈ results.map some := by simp
    _ ↔ some result ∈ items.map f := by rw [h]
    _ ↔ ∃ item ∈ items, f item = some result := List.mem_map

/-- Every result is that of some element. -/
theorem exists_of_forall₂ {R : α → β → Prop} {items : List α} {results : List β}
    (h : List.Forall₂ R items results) {b : β} (hb : b ∈ results) : ∃ a ∈ items, R a b := by
  induction h with
  | nil => cases hb
  | cons hfirst _ ih =>
      rcases List.mem_cons.1 hb with rfl | hb
      · exact ⟨_, by simp, hfirst⟩
      · obtain ⟨a, ha, hR⟩ := ih hb
        exact ⟨a, by simp [ha], hR⟩

/-- Elements that are all mapped have results, one for each. -/
theorem exists_mapM {f : α → Option β} {R : α → β → Prop} {items : List α}
    (h : ∀ a ∈ items, ∃ b, f a = some b ∧ R a b) :
    ∃ results, items.mapM f = some results ∧ List.Forall₂ R items results := by
  induction items with
  | nil => exact ⟨[], rfl, .nil⟩
  | cons a rest ih =>
      obtain ⟨b, hb, hR⟩ := h a (by simp)
      obtain ⟨results, hresults, hall⟩ := ih fun a ha => h a (by simp [ha])
      refine ⟨b :: results, ?_, .cons hR hall⟩
      rw [mapM_eq_some_iff] at hresults ⊢
      rw [List.map_cons, List.map_cons, hb, hresults]

theorem mapM_eq_ok_iff {f : α → Except ε β} {items : List α} {results : List β} :
    items.mapM f = .ok results ↔ items.map f = results.map .ok := by
  induction items generalizing results with
  | nil =>
      rw [List.mapM_nil, List.map_nil]
      cases results <;> simp [pure, Except.pure]
  | cons item rest ih =>
      simp only [List.mapM_cons, bind_eq_ok_iff, List.map_cons]
      constructor
      · rintro ⟨result, hresult, others, hothers, heq⟩
        obtain rfl : result :: others = results := by simpa [pure, Except.pure] using heq
        rw [List.map_cons, hresult, ih.1 hothers]
      · intro h
        cases results with
        | nil => simp at h
        | cons result others =>
            rw [List.map_cons, List.cons.injEq] at h
            exact ⟨result, h.1, others, ih.2 h.2, rfl⟩

/-- The results are those of the elements. -/
theorem mem_of_mapM_eq_ok {f : α → Except ε β} {items : List α} {results : List β}
    (h : items.mapM f = .ok results) (result : β) :
    result ∈ results ↔ ∃ item ∈ items, f item = .ok result := by
  rw [mapM_eq_ok_iff] at h
  calc
    result ∈ results ↔ Except.ok result ∈ results.map (Except.ok (ε := ε)) := by simp
    _ ↔ Except.ok result ∈ items.map f := by rw [h]
    _ ↔ ∃ item ∈ items, f item = .ok result := List.mem_map

theorem exists_of_mapM_eq_ok {f : α → Except ε β} {items : List α} {results : List β}
    (h : items.mapM f = .ok results) {item : α} (hitem : item ∈ items) :
    ∃ result ∈ results, f item = .ok result := by
  have hmem := List.mem_map_of_mem (f := f) hitem
  rw [mapM_eq_ok_iff.1 h] at hmem
  obtain ⟨result, hresult, heq⟩ := List.mem_map.1 hmem
  exact ⟨result, hresult, heq.symm⟩

theorem mapM_eq_ok_iff_forall₂ {f : α → Except ε β} {items : List α} {results : List β} :
    items.mapM f = .ok results ↔ List.Forall₂ (fun a b => f a = .ok b) items results := by
  rw [mapM_eq_ok_iff, ← List.forall₂_eq_eq_eq, List.forall₂_map_left_iff,
    List.forall₂_map_right_iff]

/-- Chains that end well with the same results do so for all elements, however they fail. -/
theorem mapM_eq_ok_congr {δ : Type} {f : α → Except ε β} {g : α → Except δ β}
    (h : ∀ a b, f a = .ok b ↔ g a = .ok b) {items : List α} {results : List β} :
    items.mapM f = .ok results ↔ items.mapM g = .ok results := by
  simp only [mapM_eq_ok_iff_forall₂, h]

/-- What is mapped to the same gives the same, or the same failure. -/
theorem mapM_eq_of_forall₂ {γ : Type} {f : α → Except ε γ} {g : β → Except ε γ} {items : List α}
    {others : List β} (h : List.Forall₂ (fun a b => f a = g b) items others) :
    items.mapM f = others.mapM g := by
  induction h with
  | nil => rfl
  | cons hfirst _ ih => rw [List.mapM_cons, List.mapM_cons, hfirst, ih]

/-- Elements whose chains all end well have results, one for each. -/
theorem exists_mapM_ok {f : α → Except ε β} {R : α → β → Prop} {items : List α}
    (h : ∀ a ∈ items, ∃ b, f a = .ok b ∧ R a b) :
    ∃ results, items.mapM f = .ok results ∧ List.Forall₂ R items results := by
  induction items with
  | nil => exact ⟨[], rfl, .nil⟩
  | cons a rest ih =>
      obtain ⟨b, hb, hR⟩ := h a (by simp)
      obtain ⟨results, hresults, hall⟩ := ih fun a ha => h a (by simp [ha])
      refine ⟨b :: results, ?_, .cons hR hall⟩
      rw [mapM_eq_ok_iff] at hresults ⊢
      rw [List.map_cons, List.map_cons, hb, hresults]

/-- Elements in another order have the same results in that order, if they have any. -/
theorem mapM_ok_perm {f : α → Except ε β} {items others : List α} {results : List β}
    (h : items.mapM f = .ok results) (hperm : items.Perm others) :
    ∃ others', others.mapM f = .ok others' ∧ results.Perm others' := by
  have hall : ∀ a ∈ others, ∃ b, f a = .ok b ∧ f a = .ok b := by
    intro a ha
    have hmem := List.mem_map_of_mem (f := f) (hperm.mem_iff.2 ha)
    rw [mapM_eq_ok_iff.1 h] at hmem
    obtain ⟨b, -, hb⟩ := List.mem_map.1 hmem
    exact ⟨b, hb.symm, hb.symm⟩
  obtain ⟨others', hothers, -⟩ := exists_mapM_ok hall
  refine ⟨others', hothers, ?_⟩
  have hmapped := hperm.map f
  rw [mapM_eq_ok_iff.1 h, mapM_eq_ok_iff.1 hothers] at hmapped
  exact (List.map_perm_map_iff fun _ _ => Except.ok.inj).1 hmapped

/-- Elements in another order are mapped too, in that order. -/
theorem mapM_perm {f : α → Option β} {items others : List α} {results : List β}
    (h : items.mapM f = some results) (hperm : others.Perm items) :
    ∃ others', others.mapM f = some others' ∧ others'.Perm results := by
  have hfilter : ∀ {items : List α} {results : List β},
      items.map f = results.map some → items.filterMap f = results := by
    intro items results hmap
    have heq : items.filterMap f = (items.map f).filterMap id := by
      rw [List.filterMap_map]
      rfl
    rw [heq, hmap, List.filterMap_map]
    exact List.filterMap_some
  rw [mapM_eq_some_iff] at h
  refine ⟨others.filterMap f, ?_, ?_⟩
  · have hsome : ∀ item ∈ others, (f item).isSome := by
      intro item hitem
      have hmem : f item ∈ items.map f := List.mem_map_of_mem (hperm.mem_iff.1 hitem)
      rw [h] at hmem
      obtain ⟨result, -, hresult⟩ := List.mem_map.1 hmem
      rw [← hresult]
      rfl
    rw [mapM_eq_some_iff]
    clear hperm
    induction others with
    | nil => rfl
    | cons item rest ih =>
        obtain ⟨result, hresult⟩ := Option.isSome_iff_exists.1 (hsome item (by simp))
        rw [List.map_cons, List.filterMap_cons_some hresult, List.map_cons, hresult,
          ih fun item hitem => hsome item (by simp [hitem])]
  · rw [← hfilter h]
    exact hperm.filterMap f

/-! ## Failures -/

/-- The outcome is a failure with a property, or there is none. -/
inductive FailsBy (P : ε → Prop) : Except ε α → Prop
  | ok {a : α} : FailsBy P (.ok a)
  | error {fault : ε} (h : P fault) : FailsBy P (.error fault)

namespace FailsBy

variable {P Q : ε → Prop}

theorem fault {fault : ε} (h : FailsBy P (.error fault : Except ε α)) : P fault := by
  cases h with
  | error hfault => exact hfault

theorem imp {x : Except ε α} (h : FailsBy P x) (hPQ : ∀ fault, P fault → Q fault) :
    FailsBy Q x := by
  cases h with
  | ok => exact .ok
  | error hfault => exact .error (hPQ _ hfault)

theorem bind {x : Except ε α} {f : α → Except ε β} (hx : FailsBy P x)
    (hf : ∀ a, x = .ok a → FailsBy P (f a)) : FailsBy P (x >>= f) := by
  cases hx with
  | ok => exact hf _ rfl
  | error hfault => exact .error hfault

/-- A check, and what comes behind it. -/
theorem check {p : Prop} [Decidable p] {fault : ε} {x : Except ε α} (hfault : P fault)
    (hx : FailsBy P x) : FailsBy P (if p then .error fault else x) := by
  split
  · exact .error hfault
  · exact hx

theorem mapM {f : α → Except ε β} {items : List α} (hf : ∀ a ∈ items, FailsBy P (f a)) :
    FailsBy P (items.mapM f) := by
  induction items with
  | nil => exact .ok
  | cons a rest ih =>
      rw [List.mapM_cons]
      refine (hf a (by simp)).bind fun b _ => ?_
      exact (ih fun a ha => hf a (by simp [ha])).bind fun _ _ => .ok

theorem forM {f : α → Except ε Unit} {items : List α} (hf : ∀ a ∈ items, FailsBy P (f a)) :
    FailsBy P (items.forM f) := by
  induction items with
  | nil => exact .ok
  | cons a rest ih =>
      exact (hf a (by simp)).bind fun _ _ => ih fun a ha => hf a (by simp [ha])

/-- A run fails in one of its steps, in a state that the steps before have led to. -/
theorem foldlM_keeping {I : β → Prop} {f : β → α → Except ε β} {items : List α} {b : β} (hb : I b)
    (hf : ∀ b, ∀ a ∈ items, I b → FailsBy P (f b a))
    (hkept : ∀ b, ∀ a ∈ items, ∀ b', I b → f b a = .ok b' → I b') :
    FailsBy P (items.foldlM f b) := by
  induction items generalizing b with
  | nil => exact .ok
  | cons a rest ih =>
      rw [List.foldlM_cons]
      refine (hf b a (by simp) hb).bind fun next hnext => ?_
      exact ih (hkept b a (by simp) next hb hnext) (fun b a ha => hf b a (by simp [ha]))
        fun b a ha => hkept b a (by simp [ha])

theorem foldlM {f : β → α → Except ε β} {items : List α} {b : β}
    (hf : ∀ b, ∀ a ∈ items, FailsBy P (f b a)) : FailsBy P (items.foldlM f b) :=
  foldlM_keeping (I := fun _ => True) trivial (fun b a ha _ => hf b a ha) fun _ _ _ _ _ _ => trivial

end FailsBy

end ResourceQuery
