import ResourceQuery.Proofs.Schema.Lookups
/-!
# Properties put in one after the other

Building puts properties into registered containers, one at a time. Each is made by the schema so
far. A run of additions in another order ends with the same properties, and it ends at all if no
property looks up one that is put in later (`Run.rerun`).
-/

namespace ResourceQuery

/-- A property that is put into a container. -/
inductive Addition
  | discriminator (container name : String) (variants : NameSet)
  | declared (container : String) (declaration : PropertyDeclaration)

namespace Addition

def container : Addition → String
  | discriminator container _ _ | declared container _ => container

/-- The name of the property. -/
def name : Addition → String
  | discriminator _ name _ => name
  | declared _ d => d.name

/-- Where the property is found afterwards. -/
def key (a : Addition) : String × String := (a.container, a.name)

/-- The property, as it is made by the schema so far. -/
def make (a : Addition) (s : Schema) (c : Container) : Except Fault Property :=
  match a with
  | discriminator _ name variants => .ok (Schema.discriminatorOf c name variants)
  | declared container d => d.effectiveKind container >>= d.build s c

/-- Making the property looks up another one. -/
def LooksUp (a : Addition) (c : Container) (container name : String) : Prop :=
  match a with
  | discriminator .. => False
  | declared _ d => d.LooksUp c container name

end Addition

namespace Schema

/-- Put a property into its container. -/
def put (s : Schema) (a : Addition) : Except Fault Schema := do
  let c ← s.container a.container
  let p ← a.make s c
  s.modify a.container fun c => c.add p

def putAll (s : Schema) (additions : List Addition) : Except Fault Schema := additions.foldlM put s

end Schema

/-! ## Making -/

namespace Addition

variable {a : Addition} {s t : Schema} {c c' : Container} {p : Property} {container name : String}

theorem name_of_make (h : a.make s c = .ok p) : p.name = a.name := by
  cases a with
  | discriminator _ _ _ =>
      cases h
      rfl
  | declared _ d =>
      obtain ⟨_, -, hbuild⟩ := bind_eq_ok_iff.1 h
      exact PropertyDeclaration.build_name hbuild

/-- Where the same properties are found, the same property is made. -/
theorem make_of_lookups (hheader : c'.header = c.header)
    (hregistered : ∀ name r, s.container? name = some r →
      ∃ r', t.container? name = some r' ∧ r'.header = r.header)
    (hfound : ∀ container name q, a.LooksUp c container name → s.lookup container name = some q →
      t.lookup container name = some q)
    (hc : s.container? a.container = some c) (hc' : t.container? a.container = some c')
    (h : a.make s c = .ok p) : a.make t c' = .ok p := by
  cases a with
  | discriminator _ name variants =>
      have hpersistent : c'.holdsPersistentData = c.holdsPersistentData := by
        rw [Container.holdsPersistentData, (Container.header_inj hheader).2.1,
          ← Container.holdsPersistentData]
      cases h
      simp only [make, Schema.discriminatorOf, hpersistent]
  | declared holder d =>
      obtain rfl : c.name = holder := (Schema.container?_some hc).2
      obtain ⟨kind, hkind, hbuild⟩ := bind_eq_ok_iff.1 h
      exact bind_eq_ok_iff.2 ⟨kind, hkind,
        PropertyDeclaration.build_of_lookups hheader hregistered hfound hc hc' hkind hbuild⟩

/-- What was looked up was there. -/
theorem found_of_make (hc : s.container? a.container = some c) (h : a.make s c = .ok p)
    (hlooks : a.LooksUp c container name) : ∃ q, s.lookup container name = some q := by
  cases a with
  | discriminator _ _ _ => cases hlooks
  | declared holder d =>
      obtain rfl : c.name = holder := (Schema.container?_some hc).2
      obtain ⟨kind, hkind, hbuild⟩ := bind_eq_ok_iff.1 h
      exact PropertyDeclaration.found_of_build hc hkind hbuild hlooks

section

variable (hst : s.Within t) (ht : Schema.IsOutline t.outline)
  (hc : s.container? a.container = some c) (hc' : t.container? a.container = some c')
  (h : a.make s c = .ok p)

include hst ht hc hc' h

theorem make_within : a.make t c' = .ok p := by
  obtain ⟨other, hother, hheader⟩ := hst.registered ht _ _ hc
  obtain rfl : c' = other := Option.some.inj (hc'.symm.trans hother)
  exact make_of_lookups hheader (hst.registered ht) (fun _ _ q _ => hst.kept _ _ q) hc hc' h

theorem looksUp_within : a.LooksUp c' container name ↔ a.LooksUp c container name := by
  obtain ⟨other, hother, hheader⟩ := hst.registered ht _ _ hc
  obtain rfl : c' = other := Option.some.inj (hc'.symm.trans hother)
  cases a with
  | discriminator _ _ _ => rfl
  | declared holder d =>
      obtain rfl : c.name = holder := (Schema.container?_some hc).2
      refine PropertyDeclaration.looksUp_iff_of_found hheader fun hkind aggregate haggregate => ?_
      obtain ⟨q, hq⟩ := found_of_make (a := .declared c.name d) hc h (.collection hkind haggregate)
      exact ⟨q, (Schema.lookup_of_container? hc _).symm.trans hq,
        (Schema.lookup_of_container? hc' _).symm.trans (hst.kept _ _ _ hq)⟩

end

end Addition

/-! ## Putting in -/

namespace Schema

theorem put_eq_ok_iff {s t : Schema} {a : Addition} (hs : IsOutline s.outline) :
    s.put a = .ok t ↔ ∃ c p, s.container? a.container = some c ∧ a.make s c = .ok p ∧
      (p.isId = true → c.identifier? = none) ∧ c.property? p.name = none ∧
        t = s.extended (single a.container p) := by
  simp only [put, bind_eq_ok_iff, container_eq_ok_iff]
  constructor
  · rintro ⟨c, hc, p, hp, hmodify⟩
    obtain ⟨hmem, hname⟩ := container?_some hc
    obtain ⟨c', hadd⟩ := modify_succeeds hmodify hmem hname
    obtain ⟨hfirst, hfresh, -⟩ := Container.add_eq_ok_iff.1 hadd
    exact ⟨c, p, hc, hp, hfirst, hfresh, modify_add_eq hmodify fun _ _ _ => rfl⟩
  · rintro ⟨c, p, hc, hp, hfirst, hfresh, rfl⟩
    obtain ⟨hmem, hname⟩ := container?_some hc
    refine ⟨c, hc, p, hp, modify_eq_ok fun d hd => ?_⟩
    by_cases hd' : d.name = a.container
    · obtain rfl := container_unique hs hd hmem (hd'.trans hname.symm)
      rw [if_pos hd', single, if_pos hd']
      exact Container.add_eq_ok_iff.2 ⟨hfirst, hfresh, rfl⟩
    · rw [if_neg hd', single, if_neg hd', Container.extended_nil]

theorem container?_extended (s : Schema) (more : String → List Property) (name : String) :
    (s.extended more).container? name =
      (s.container? name).map fun c => c.extended (more c.name) := by
  rw [container?, container?, extended, List.find?_map]
  rfl

theorem put_grows {s t : Schema} {a : Addition} (h : s.put a = .ok t) : s.Grows a.container t := by
  simp only [put, bind_eq_ok_iff] at h
  obtain ⟨_, -, p, -, hmodify⟩ := h
  exact .inr ⟨fun _ => p, hmodify⟩

section Put

variable {s t : Schema} {a : Addition} (hs : s.Ordered) (h : s.put a = .ok t)

include hs h

theorem put_ordered : t.Ordered := by
  refine ⟨?_, grows_named (put_grows h) hs.named⟩
  rw [grows_outline (put_grows h)]
  exact hs.outlined

/-- What is found after a property was put in: that property, and what was there before. -/
theorem put_ok : t.headers = s.headers ∧ ∃ c p, s.container? a.container = some c ∧
    a.make s c = .ok p ∧ s.lookup a.container a.name = none ∧
    ∀ container name q, t.lookup container name = some q ↔
      s.lookup container name = some q ∨ (container = a.container ∧ name = a.name ∧ q = p) := by
  obtain ⟨c, p, hc, hp, -, hfresh, rfl⟩ := (put_eq_ok_iff hs.outlined).1 h
  have hname := Addition.name_of_make hp
  rw [hname] at hfresh
  refine ⟨by simp [headers, extended, Container.header, Function.comp_def], c, p, hc, hp,
    by rw [lookup_of_container? hc, hfresh], fun container name q => ?_⟩
  by_cases hsame : container = a.container
  · subst hsame
    have hfound := (container?_some hc).2
    rw [lookup, lookup, container?_extended, hc, Option.map_some, Option.bind_some,
      Option.bind_some, hfound, single, if_pos rfl, Container.property?,
      Container.extended_properties, List.find?_append, ← Container.property?]
    by_cases hnamed : name = a.name
    · subst hnamed
      simp [hfresh, hname, eq_comm]
    · simp [hname, hnamed, Ne.symm hnamed]
  · rw [lookup, lookup, container?_extended]
    cases hd : s.container? container with
    | none => simp [hsame]
    | some d =>
        have hfound := (container?_some hd).2
        simp [hsame, hfound, single]

theorem put_within : s.Within t := by
  obtain ⟨hheaders, _, _, -, -, -, hlookup⟩ := put_ok hs h
  exact ⟨.of_eq hheaders.symm, fun container name q hq => (hlookup container name q).2 (.inl hq)⟩

end Put

/-! ## Runs -/

/-- A property that was there at first or has been put in since. -/
def Visible (s : Schema) (before : List Addition) (container name : String) : Prop :=
  (s.lookup container name).isSome = true ∨ (container, name) ∈ before.map Addition.key

theorem visible_append {s : Schema} {before after : List Addition} {container name : String} :
    s.Visible (before ++ after) container name ↔
      s.Visible before container name ∨ (container, name) ∈ after.map Addition.key := by
  rw [Visible, Visible, List.map_append, List.mem_append, or_assoc]

theorem Visible.append {s : Schema} {before : List Addition} {container name : String}
    (h : s.Visible before container name) (after : List Addition) :
    s.Visible (before ++ after) container name := visible_append.2 (.inl h)

/-- The addition makes the property that is there. -/
def Makes (s : Schema) (a : Addition) : Prop :=
  ∃ c p, s.container? a.container = some c ∧ a.make s c = .ok p ∧
    s.lookup a.container a.name = some p

theorem Makes.within {s t : Schema} {a : Addition} (h : s.Makes a) (hst : s.Within t)
    (ht : IsOutline t.outline) : t.Makes a := by
  obtain ⟨c, p, hc, hp, hfound⟩ := h
  obtain ⟨c', hc', -⟩ := hst.registered ht _ _ hc
  exact ⟨c', p, hc', Addition.make_within hst ht hc hc' hp, hst.kept _ _ _ hfound⟩

/-- What a run of additions has led to. -/
structure Run (s : Schema) (additions : List Addition) (t : Schema) : Prop where
  ordered : t.Ordered
  within : s.Within t
  complete : ∀ container name p, t.lookup container name = some p →
    s.Visible additions container name
  /-- Each property is the one that is made in the end. -/
  made : ∀ a ∈ additions, t.Makes a
  fresh : ∀ a ∈ additions, s.lookup a.container a.name = none
  distinct : (additions.map Addition.key).Nodup
  /-- No property looks up itself. -/
  direct : ∀ a ∈ additions, ∀ c, t.container? a.container = some c →
    ¬ a.LooksUp c a.container a.name

theorem Run.put {s u t : Schema} {before : List Addition} {a : Addition} (hs : s.Run before u)
    (h : u.put a = .ok t) : s.Run (before ++ [a]) t := by
  have ht := put_ordered hs.ordered h
  have hwithin := put_within hs.ordered h
  obtain ⟨-, c, p, hc, hp, hfresh, hlookup⟩ := put_ok hs.ordered h
  obtain ⟨c', hc', -⟩ := hwithin.registered ht.outlined _ _ hc
  have hfound : t.lookup a.container a.name = some p :=
    (hlookup _ _ _).2 (.inr ⟨rfl, rfl, rfl⟩)
  constructor
  case ordered => exact ht
  case within => exact hs.within.trans hwithin
  case complete =>
    intro container name q hq
    rcases (hlookup _ _ _).1 hq with hq | ⟨rfl, rfl, -⟩
    · exact (hs.complete _ _ _ hq).append _
    · exact visible_append.2 (.inr (by simp [Addition.key]))
  case made =>
    intro b hb
    rcases List.mem_append.1 hb with hb | hb
    · exact (hs.made b hb).within hwithin ht.outlined
    · obtain rfl := List.mem_singleton.1 hb
      exact ⟨c', p, hc', Addition.make_within hwithin ht.outlined hc hc' hp, hfound⟩
  case fresh =>
    intro b hb
    rcases List.mem_append.1 hb with hb | hb
    · exact hs.fresh b hb
    · obtain rfl := List.mem_singleton.1 hb
      rw [Option.eq_none_iff_forall_ne_some]
      intro q hq
      rw [hs.within.kept _ _ _ hq] at hfresh
      cases hfresh
  case distinct =>
    rw [List.map_append, List.nodup_append]
    refine ⟨hs.distinct, by simp, ?_⟩
    rintro key hkey other hother rfl
    obtain rfl : key = a.key := by simpa using hother
    obtain ⟨b, hb, hsame⟩ := List.mem_map.1 hkey
    obtain ⟨hcontainer, hname⟩ := Prod.mk.inj hsame
    obtain ⟨_, q, -, -, hq⟩ := hs.made b hb
    rw [hcontainer, hname, hfresh] at hq
    cases hq
  case direct =>
    intro b hb d' hd' hlooks
    rcases List.mem_append.1 hb with hb | hb
    · obtain ⟨d, q, hd, hq, -⟩ := hs.made b hb
      rw [Addition.looksUp_within hwithin ht.outlined hd hd' hq] at hlooks
      exact hs.direct b hb d hd hlooks
    · obtain rfl := List.mem_singleton.1 hb
      rw [Addition.looksUp_within hwithin ht.outlined hc hd' hp] at hlooks
      obtain ⟨q, hq⟩ := Addition.found_of_make hc hp hlooks
      rw [hfresh] at hq
      cases hq

theorem run_of_putAll {s t : Schema} {additions : List Addition} (hs : s.Ordered)
    (h : s.putAll additions = .ok t) : s.Run additions t := by
  have hstart : s.Run [] s :=
    { ordered := hs
      within := .refl s
      complete := fun container name p hp => .inl (by rw [hp]; rfl)
      made := fun a ha => by cases ha
      fresh := fun a ha => by cases ha
      distinct := .nil
      direct := fun a ha => by cases ha }
  exact foldlM_accumulates (fun before u => s.Run before u)
    (fun _ _ _ _ hu hw => hu.put hw) hstart h

/-! ## Runs in another order -/

/-- The property of an addition looks up that of another one. -/
def Consults (s : Schema) (a b : Addition) : Prop :=
  ∃ c, s.container? a.container = some c ∧ a.LooksUp c b.container b.name

theorem consults_within {s t : Schema} {a b : Addition} (ha : s.Makes a) (hst : s.Within t)
    (ht : IsOutline t.outline) : s.Consults a b ↔ t.Consults a b := by
  obtain ⟨c, p, hc, hp, -⟩ := ha
  obtain ⟨c', hc', -⟩ := hst.registered ht _ _ hc
  have hlooks : a.LooksUp c' b.container b.name ↔ a.LooksUp c b.container b.name :=
    Addition.looksUp_within hst ht hc hc' hp
  constructor
  · rintro ⟨d, hd, h⟩
    obtain rfl : c = d := Option.some.inj (hc.symm.trans hd)
    exact ⟨c', hc', hlooks.2 h⟩
  · rintro ⟨d, hd, h⟩
    obtain rfl : c' = d := Option.some.inj (hc'.symm.trans hd)
    exact ⟨c, hc, hlooks.1 h⟩

/-- Where another run stands between its start and the end of the first. -/
structure Stage (s t : Schema) (before : List Addition) (u : Schema) : Prop where
  ordered : u.Ordered
  headers : u.headers.Perm t.headers
  lookup : ∀ container name p, u.lookup container name = some p ↔
    s.Visible before container name ∧ t.lookup container name = some p

theorem Stage.within {s t u : Schema} {before : List Addition} (h : s.Stage t before u) :
    u.Within t := ⟨h.headers, fun container name p hp => ((h.lookup container name p).1 hp).2⟩

section Rerun

variable {s s' t u w : Schema} {additions before : List Addition} {a : Addition}
  (hrun : s.Run additions t) (hsame : s'.SameAs s) (ha : a ∈ additions)
  (hnew : a.key ∉ before.map Addition.key) (hu : s'.Stage t before u)

include hrun ha hu

/-- A property that can be put in is the one of the first run, and what it looks up is there. -/
theorem Run.stage_put (h : u.put a = .ok w) :
    (∀ c container name, t.container? a.container = some c → a.LooksUp c container name →
      s'.Visible before container name) ∧ s'.Stage t (before ++ [a]) w := by
  obtain ⟨hheaders, c, p, hc, hp, -, hlookup⟩ := put_ok hu.ordered h
  obtain ⟨c', p', hc', hp', hfound⟩ := hrun.made a ha
  have hsameMade := Addition.make_within hu.within hrun.ordered.outlined hc hc' hp
  obtain rfl : p = p' := Except.ok.inj (hsameMade.symm.trans hp')
  refine ⟨?_, put_ordered hu.ordered h, hheaders ▸ hu.headers, ?_⟩
  · intro d container name hd hlooks
    obtain rfl : c' = d := Option.some.inj (hc'.symm.trans hd)
    rw [Addition.looksUp_within hu.within hrun.ordered.outlined hc hc' hp] at hlooks
    obtain ⟨q, hq⟩ := Addition.found_of_make hc hp hlooks
    exact ((hu.lookup _ _ _).1 hq).1
  · intro container name q
    rw [hlookup, hu.lookup, visible_append, or_and_right]
    refine or_congr Iff.rfl ?_
    simp only [List.map_cons, List.map_nil, List.mem_singleton, Addition.key, Prod.mk.injEq]
    constructor
    · rintro ⟨rfl, rfl, rfl⟩
      exact ⟨⟨rfl, rfl⟩, hfound⟩
    · rintro ⟨⟨rfl, rfl⟩, hq⟩
      exact ⟨rfl, rfl, Option.some.inj (hq.symm.trans hfound)⟩

include hsame hnew

omit hu in
theorem Run.not_visible : ¬ s'.Visible before a.container a.name := by
  rintro (hvisible | hvisible)
  · rw [hsame.lookup, hrun.fresh a ha] at hvisible
    cases hvisible
  · exact hnew hvisible

/-- A property can be put in if what it looks up is there. -/
theorem Run.put_succeeds (hids : t.HasSingleIdentifiers)
    (h : ∀ c container name, t.container? a.container = some c → a.LooksUp c container name →
      s'.Visible before container name) : ∃ w, u.put a = .ok w := by
  obtain ⟨c, p, hc, hp, hfound⟩ := hrun.made a ha
  obtain ⟨c', hc', hheader⟩ := container?_of_headers hu.headers.symm hu.ordered.outlined hc
  have hmade : a.make u c' = .ok p := by
    refine Addition.make_of_lookups hheader
      (fun _ _ hr => container?_of_headers hu.headers.symm hu.ordered.outlined hr)
      (fun container name q hlooks hq => ?_) hc hc' hp
    exact (hu.lookup _ _ _).2 ⟨h c container name hc hlooks, hq⟩
  have hname := Addition.name_of_make hp
  have hfresh : c'.property? p.name = none := by
    rw [hname, ← lookup_of_container? hc', Option.eq_none_iff_forall_ne_some]
    intro q hq
    exact hrun.not_visible hsame ha hnew ((hu.lookup _ _ _).1 hq).1
  -- another identifier would be one in the end, too, and then it would be this property
  have hfirst : p.isId = true → c'.identifier? = none := by
    intro hid
    rw [Option.eq_none_iff_forall_ne_some]
    intro q hq
    have hfoundIn : c'.property? q.name = some q :=
      property?_of_mem (hu.ordered.named c' (container?_some hc').1) (List.mem_of_find?_eq_some hq)
    have hlookup := hu.within.kept _ _ _ ((lookup_of_container? hc' _).trans hfoundIn)
    have heq := hids _ _ _ _ _ hlookup hfound (List.find?_some hq) hid
    rw [heq, hfresh] at hfoundIn
    cases hfoundIn
  exact ⟨_, (put_eq_ok_iff hu.ordered.outlined).2 ⟨c', p, hc', hmade, hfirst, hfresh, rfl⟩⟩

end Rerun

section Rerun

variable {s s' t u : Schema} {additions before rest : List Addition} (hrun : s.Run additions t)
  (hsame : s'.SameAs s) (hperm : (before ++ rest).Perm additions) (hu : s'.Stage t before u)

include hrun hperm

/-- What is still to come has not been put in. -/
theorem Run.new_of_mem {a : Addition} (ha : a ∈ rest) :
    a ∈ additions ∧ a.key ∉ before.map Addition.key := by
  have hdistinct := ((hperm.map Addition.key).nodup_iff).2 hrun.distinct
  rw [List.map_append, List.nodup_append] at hdistinct
  exact ⟨hperm.mem_iff.1 (List.mem_append_right _ ha),
    fun hmem => hdistinct.2.2 _ hmem _ (List.mem_map_of_mem ha) rfl⟩

include hsame hu

/-- A run that ends has no property in front of one it looks up, and it ends where the first one
does. -/
theorem Run.rerun_ok {w : Schema} (h : rest.foldlM Schema.put u = .ok w) :
    rest.Pairwise (fun a b => ¬ t.Consults a b) ∧ s'.Stage t (before ++ rest) w := by
  induction rest generalizing before u with
  | nil =>
      cases h
      exact ⟨.nil, by rwa [List.append_nil]⟩
  | cons a after ih =>
      obtain ⟨ha, hnew⟩ := hrun.new_of_mem hperm List.mem_cons_self
      rw [List.foldlM_cons] at h
      obtain ⟨next, hnext, hafter⟩ := bind_eq_ok_iff.1 h
      obtain ⟨hvisible, hstage⟩ := hrun.stage_put ha hu hnext
      obtain ⟨hpairwise, hend⟩ := ih (by simpa using hperm) hstage hafter
      refine ⟨.cons (fun b hb => ?_) hpairwise, by simpa using hend⟩
      rintro ⟨c, hc, hlooks⟩
      obtain ⟨hb, hlater⟩ := hrun.new_of_mem hperm (List.mem_cons_of_mem a hb)
      exact hrun.not_visible hsame hb hlater (hvisible c _ _ hc hlooks)

/-- A run with no property in front of one it looks up ends. -/
theorem Run.rerun_succeeds (hids : t.HasSingleIdentifiers)
    (h : rest.Pairwise fun a b => ¬ t.Consults a b) : ∃ w, rest.foldlM Schema.put u = .ok w := by
  induction rest generalizing before u with
  | nil => exact ⟨u, rfl⟩
  | cons a after ih =>
      obtain ⟨ha, hnew⟩ := hrun.new_of_mem hperm List.mem_cons_self
      rw [List.pairwise_cons] at h
      have hvisible : ∀ c container name, t.container? a.container = some c →
          a.LooksUp c container name → s'.Visible before container name := by
        intro c container name hc hlooks
        obtain ⟨d, p, hd, hp, -⟩ := hrun.made a ha
        obtain rfl : c = d := Option.some.inj (hc.symm.trans hd)
        obtain ⟨q, hq⟩ := Addition.found_of_make hc hp hlooks
        rcases hrun.complete _ _ _ hq with hfirst | hadded
        · exact .inl (by rwa [hsame.lookup])
        · obtain ⟨b, hb, hkey⟩ := List.mem_map.1 hadded
          obtain ⟨rfl, rfl⟩ := Prod.mk.inj hkey
          rw [← hperm.mem_iff, List.mem_append, List.mem_cons] at hb
          rcases hb with hb | rfl | hb
          · exact .inr (List.mem_map_of_mem hb)
          · exact absurd hlooks (hrun.direct b ha c hc)
          · exact absurd ⟨c, hc, hlooks⟩ (h.1 b hb)
      obtain ⟨next, hnext⟩ := hrun.put_succeeds hsame ha hnew hu hids hvisible
      obtain ⟨-, hstage⟩ := hrun.stage_put ha hu hnext
      obtain ⟨w, hw⟩ := ih (by simpa using hperm) hstage h.2
      exact ⟨w, by rw [List.foldlM_cons, hnext]; exact hw⟩

end Rerun

/-- Additions in another order lead to the same schema, and they lead anywhere if and only if no
property stands in front of one that it looks up. -/
theorem Run.rerun {s s' t : Schema} {additions others : List Addition} (hrun : s.Run additions t)
    (hids : t.HasSingleIdentifiers) (hsame : s'.SameAs s) (hs' : s'.Ordered)
    (hperm : others.Perm additions) :
    ((∃ t', s'.putAll others = .ok t') ↔ others.Pairwise fun a b => ¬ t.Consults a b) ∧
      ∀ t', s'.putAll others = .ok t' → t'.Ordered ∧ t'.SameAs t := by
  have hstart : s'.Stage t [] s' := by
    refine ⟨hs', hsame.headers.trans hrun.within.headers, fun container name p => ?_⟩
    constructor
    · intro hp
      refine ⟨.inl (by rw [hp]; rfl), ?_⟩
      rw [hsame.lookup] at hp
      exact hrun.within.kept _ _ _ hp
    · rintro ⟨hvisible | hvisible, hp⟩
      · obtain ⟨q, hq⟩ := Option.isSome_iff_exists.1 hvisible
        have hq' := hrun.within.kept _ _ _ (hsame.lookup container name ▸ hq)
        rw [hq, ← hp, hq']
      · cases hvisible
  refine ⟨⟨fun ⟨t', h⟩ => (hrun.rerun_ok hsame (by simpa) hstart h).1,
    hrun.rerun_succeeds hsame (by simpa) hstart hids⟩, fun t' h => ?_⟩
  obtain ⟨-, hend⟩ := hrun.rerun_ok hsame (by simpa) hstart h
  refine ⟨hend.ordered, hend.headers, fun container name => Option.ext fun p => ?_⟩
  rw [hend.lookup, and_iff_right_iff_imp]
  intro hp
  rcases hrun.complete _ _ _ hp with hfirst | hadded
  · exact .inl (by rwa [hsame.lookup])
  · exact .inr ((hperm.map Addition.key).mem_iff.2 hadded)

end Schema

end ResourceQuery
