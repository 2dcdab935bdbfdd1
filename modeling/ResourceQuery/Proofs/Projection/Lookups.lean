import ResourceQuery.Proofs.Projection.Replay
/-!
# Rules that are looked up

Whether a path is included is told by the rule on the longest path in front of it, and whether it is
entered by all rules below it. The walk upwards from separator to separator finds that rule, and the
scan of the rules that begin with the path leaves none of them out (`isIncluded_iff`,
`includesBelow_iff`).
-/

namespace ResourceQuery

namespace Text

/-- What ends in front of a separator of a text ends in front of the last one, or of one before. -/
theorem prefix_append_iff {separator : Char} {front before after : List Char}
    (h : separator ∉ after) :
    front ++ [separator] <+: before ++ separator :: after ↔
      front = before ∨ front ++ [separator] <+: before := by
  constructor
  · rintro ⟨rest, hrest⟩
    rcases List.append_eq_append_iff.1 hrest with ⟨more, hbefore, -⟩ | ⟨more, hfront, hafter⟩
    · exact .inr ⟨more, hbefore.symm⟩
    · cases more with
      | nil =>
          have hwhole : front ++ [separator] = before := by rw [hfront, List.append_nil]
          exact .inr ⟨[], by rw [hwhole, List.append_nil]⟩
      | cons c more =>
          rw [List.cons_append, List.cons.injEq] at hafter
          obtain ⟨rfl, rfl⟩ := hafter
          cases more using List.reverseRecOn with
          | nil => exact .inl (List.append_left_inj _ |>.1 hfront)
          | append_singleton more last =>
              -- the last separator of the front would stand behind the last one of the text
              rw [← List.cons_append, ← List.append_assoc] at hfront
              obtain ⟨-, hlast⟩ := List.append_inj' hfront rfl
              obtain rfl : separator = last := by simpa using hlast
              simp at h
  · rintro (rfl | hfront)
    · exact ⟨after, by simp⟩
    · exact hfront.trans (List.prefix_append _ _)

theorem startsWith_point_iff {text front : String} :
    startsWith text (front ++ ".") = true ↔ front.toList ++ ['.'] <+: text.toList := by
  rw [startsWith, List.isPrefixOf_iff_prefix, String.toList_append]
  rfl

end Text

namespace Path

variable {front text : String}

theorem leadsTo_iff :
    LeadsTo front text ↔ front.toList = text.toList ∨ front.toList ++ ['.'] <+: text.toList := by
  rw [LeadsTo, Text.startsWith_point_iff, String.toList_inj]

theorem LeadsTo.isPrefix (h : LeadsTo front text) : front.toList <+: text.toList := by
  rcases leadsTo_iff.1 h with heq | hstarts
  · exact heq ▸ List.prefix_rfl
  · exact (List.prefix_append _ _).trans hstarts

theorem LeadsTo.trans {between : String} (h : LeadsTo front between)
    (h' : LeadsTo between text) : LeadsTo front text := by
  rcases leadsTo_iff.1 h with heq | hfront
  · rwa [String.toList_inj.1 heq]
  · exact leadsTo_iff.2 (.inr (hfront.trans h'.isPrefix))

/-- What leads to a text is the text or leads to what is in front of its last separator. -/
theorem leadsTo_of_splitLast {chars before after : List Char}
    (h : Text.splitLast separator chars = some (before, after)) :
    LeadsTo front (String.ofList chars) ↔
      front = String.ofList chars ∨ LeadsTo front (String.ofList before) := by
  obtain ⟨rfl, hafter⟩ := Text.splitLast_eq_some h
  simp only [leadsTo_iff, ← String.toList_inj, String.toList_ofList]
  rw [show separator = '.' from rfl] at hafter ⊢
  rw [Text.prefix_append_iff hafter]

/-- Only the text itself leads to a text without a separator. -/
theorem leadsTo_of_splitLast_eq_none {chars : List Char}
    (h : Text.splitLast separator chars = none) (hfront : LeadsTo front (String.ofList chars)) :
    front = String.ofList chars := by
  rcases leadsTo_iff.1 hfront with heq | hstarts
  · exact String.toList_inj.1 heq
  · rw [String.toList_ofList] at hstarts
    have hmem : separator ∈ chars := hstarts.subset (by simp [separator])
    exact absurd hmem (Text.splitLast_eq_none.1 h)

end Path

namespace Projection

variable {rules : NameMap Bool} {path front : String} {p : Projection}

/-! ## The walk upwards -/

/-- Of all that leads to the path, the longest text with a rule. -/
structure IsNearest (rules : NameMap Bool) (path front : String) : Prop where
  leads : Path.LeadsTo front path
  ruled : rules.contains front = true
  longest : ∀ other, Path.LeadsTo other path → rules.contains other = true →
    other.toList.length ≤ front.toList.length

theorem IsNearest.unique {other : String} (h : IsNearest rules path front)
    (h' : IsNearest rules path other) : front = other := by
  have hlength : front.toList.length = other.toList.length :=
    Nat.le_antisymm (h'.longest front h.leads h.ruled) (h.longest other h'.leads h'.ruled)
  have hstarts := List.prefix_of_prefix_length_le h.leads.isPrefix h'.leads.isPrefix hlength.le
  exact String.toList_inj.1 (hstarts.eq_of_length hlength)

theorem isNearest_self (h : rules.contains path = true) : IsNearest rules path path :=
  ⟨.inl rfl, h, fun _ hother _ => hother.isPrefix.length_le⟩

/-- Each step of the walk leaves out a text without a rule, so it ends at the nearest rule or finds
that there is none. -/
theorem nearestRule?_finds (rules : NameMap Bool) {steps : Nat} {chars : List Char}
    (h : chars.length < steps) :
    match nearestRule? rules steps chars with
    | some rule => ∃ front, IsNearest rules (String.ofList chars) front ∧
        rules.find? front = some rule
    | Option.none => ∀ front, Path.LeadsTo front (String.ofList chars) →
        rules.find? front = Option.none := by
  induction steps generalizing chars with
  | zero => omega
  | succ steps ih =>
      rw [nearestRule?]
      cases hrule : rules.find? (String.ofList chars) with
      | some rule =>
          exact ⟨_, isNearest_self (by rw [NameMap.contains, hrule]; rfl), hrule⟩
      | none =>
          cases hsplit : Text.splitLast Path.separator chars with
          | none =>
              intro front hfront
              rwa [Path.leadsTo_of_splitLast_eq_none hsplit hfront]
          | some parts =>
              obtain ⟨before, after⟩ := parts
              have hshorter : before.length < steps := by
                have htext := (Text.splitLast_eq_some hsplit).1
                rw [htext, List.length_append, List.length_cons] at h
                omega
              have hbefore := ih hshorter
              simp only
              split at hbefore
              · obtain ⟨front, hnearest, hfront⟩ := hbefore
                refine ⟨front, ⟨?_, hnearest.ruled, ?_⟩, hfront⟩
                · exact (Path.leadsTo_of_splitLast hsplit).2 (.inr hnearest.leads)
                · intro other hother hruled
                  rcases (Path.leadsTo_of_splitLast hsplit).1 hother with rfl | hother
                  · rw [NameMap.contains, hrule] at hruled
                    cases hruled
                  · exact hnearest.longest other hother hruled
              · intro front hfront
                rcases (Path.leadsTo_of_splitLast hsplit).1 hfront with rfl | hfront
                · exact hrule
                · exact hbefore front hfront

/-- A path is included if the nearest rule says so, or if there is none and everything is. -/
theorem isIncluded_iff (p : Projection) (path : String) (rule : Bool) :
    p.isIncluded path = rule ↔
      (∃ front, IsNearest p.rules path front ∧ p.rules.find? front = some rule) ∨
      (∀ front, Path.LeadsTo front path → p.rules.find? front = Option.none) ∧
        p.includeByDefault = rule := by
  have hfinds := nearestRule?_finds p.rules (Nat.lt_succ_self path.toList.length)
  rw [String.ofList_toList] at hfinds
  rw [isIncluded, ruleFor?]
  split at hfinds
  · rename_i found hfound
    obtain ⟨front, hnearest, hfront⟩ := hfinds
    rw [hfound, Option.getD_some]
    constructor
    · rintro rfl
      exact .inl ⟨front, hnearest, hfront⟩
    · rintro (⟨other, hother, hrule⟩ | ⟨hnone, -⟩)
      · rw [hother.unique hnearest, hfront] at hrule
        exact Option.some.inj hrule
      · rw [hnone front hnearest.leads] at hfront
        cases hfront
  · rename_i hfound
    rw [hfound, Option.getD_none]
    constructor
    · exact fun heq => .inr ⟨hfinds, heq⟩
    · rintro (⟨front, hnearest, hrule⟩ | ⟨-, heq⟩)
      · rw [hfinds front hnearest.leads] at hrule
        cases hrule
      · exact heq

theorem isIncluded_of_rule {rule : Bool} (h : p.rules.find? path = some rule) :
    p.isIncluded path = rule := by
  have hruled : p.rules.contains path = true := by
    rw [NameMap.contains, h]
    rfl
  exact (isIncluded_iff p path rule).2 (.inl ⟨path, isNearest_self hruled, h⟩)

/-! ## The scan downwards -/

/-- In sorted rules the scan from the first possible rule meets all that begin with the path. -/
theorem includesBelow_iff (hsorted : p.rules.Sorted) : p.includesBelow path = true ↔
    ∃ below, Text.startsWith below (path ++ ".") = true ∧ p.rules.find? below = some true := by
  constructor
  · intro h
    obtain ⟨below, hstarts, hmem⟩ := exists_of_includesBelow h
    exact ⟨below, hstarts, NameMap.find?_of_mem hsorted hmem⟩
  · rintro ⟨below, hstarts, hrule⟩
    exact includesBelow_of_included hsorted hrule hstarts

/-- What is fetched by default is written if it is included or entered. -/
theorem isWritten_default_iff (p : Projection) (path : String) : p.isWritten path true = true ↔
    p.isIncluded path = true ∨ p.includesBelow path = true := by
  unfold isWritten
  cases p.includesBelow path with
  | true => simp
  | false =>
      rw [or_iff_left Bool.false_ne_true, if_neg Bool.false_ne_true]
      cases hrule : p.rules.find? path with
      | some rule => rw [isIncluded_of_rule hrule]
      | none =>
          rw [isIncluded]
          cases p.ruleFor? path with
          | some rule => cases rule <;> simp
          | none => simp

/-- Lookups mean what they say. A path is included by the rule on the longest path in front of it,
or by default; the scan for included paths below it finds one if there is one; what is fetched by
default is written if it is included or something below it is; and all that is above a path with an
inclusion on it or below it is written. -/
theorem lookups_plain (hsorted : p.rules.Sorted) (path : String) :
    (∀ rule, p.isIncluded path = rule ↔
      (∃ front, IsNearest p.rules path front ∧ p.rules.find? front = some rule) ∨
      (∀ front, Path.LeadsTo front path → p.rules.find? front = Option.none) ∧
        p.includeByDefault = rule) ∧
    (p.includesBelow path = true ↔ ∃ below, Text.startsWith below (path ++ ".") = true ∧
      p.rules.find? below = some true) ∧
    (p.isWritten path true = true ↔ p.isIncluded path = true ∨
      ∃ below, Text.startsWith below (path ++ ".") = true ∧ p.rules.find? below = some true) ∧
    ∀ included, Path.LeadsTo path included → p.rules.find? included = some true →
      ∀ above, Text.startsWith path (above ++ ".") = true →
        ∀ fetchedByDefault, p.isWritten above fetchedByDefault = true := by
  refine ⟨isIncluded_iff p path, includesBelow_iff hsorted, ?_, ?_⟩
  · rw [isWritten_default_iff, includesBelow_iff hsorted]
  · intro included hleads hrule above habove fetchedByDefault
    have hstarts : Text.startsWith included (above ++ ".") = true :=
      Text.startsWith_point_iff.2 ((Text.startsWith_point_iff.1 habove).trans hleads.isPrefix)
    rw [isWritten, includesBelow_of_included hsorted hrule hstarts, if_pos rfl]

/-- Everything of users but their addresses, of which the town is kept. -/
def townProjection : Projection :=
  ⟨"User", true, [("address", false), ("address-book", false), ("address.town", true)], [], []⟩

/-- The rule on the town comes behind one that does not belong to the address. -/
theorem townProjection_lookups : townProjection.rules.Sorted ∧
    townProjection.isIncluded "address.street" = false ∧
    townProjection.includesBelow "address" = true ∧
    townProjection.isWritten "address" true = true ∧
    townProjection.isWritten "address" false = true := by
  have hsorted : townProjection.rules.Sorted := by
    unfold NameMap.Sorted
    decide
  have hstreet : IsNearest townProjection.rules "address.street" "address" := by
    refine ⟨.inr (by decide), by decide, fun other hother hruled => ?_⟩
    have hkeys : other = "address" ∨ other = "address-book" ∨ other = "address.town" := by
      simpa [townProjection, NameMap.keys] using NameMap.contains_iff.1 hruled
    rcases hkeys with rfl | rfl | rfl
    · exact Nat.le_refl _
    · exact absurd hother.isPrefix (by decide)
    · exact absurd hother.isPrefix (by decide)
  have hbelow : ∃ below, Text.startsWith below ("address" ++ ".") = true ∧
      townProjection.rules.find? below = some true := ⟨"address.town", by decide, by decide⟩
  obtain ⟨hincluded, -⟩ := lookups_plain hsorted "address.street"
  obtain ⟨-, hscan, hdefault, -⟩ := lookups_plain hsorted "address"
  obtain ⟨-, -, -, habove⟩ := lookups_plain hsorted "address.town"
  exact ⟨hsorted, (hincluded false).2 (.inl ⟨"address", hstreet, by decide⟩), hscan.2 hbelow,
    hdefault.2 (.inr hbelow),
    habove "address.town" (.inl rfl) (by decide) "address" (by decide) false⟩

end Projection

end ResourceQuery
