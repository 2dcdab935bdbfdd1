import ResourceQuery.Proofs.Filter.BasePath
import ResourceQuery.Proofs.Filter.Build
import ResourceQuery.Proofs.Outcome
/-!
# What a built filter means

A filter that is built of entries has the groups of the tree that their clauses declare, and read as
a tree it is that tree. Entries in another order build a filter with the same truth.
-/

namespace ResourceQuery

namespace Filter

/-! ## The filter as a tree -/

theorem treesAt_of_named {f : Filter} {depth : Nat} {places : List Place} {items : List FilterItem}
    {placed : List PlacedItem} {T : PlacedItem → FilterTree}
    (h : items.map (namedItem places) = placed.map some)
    (hcondition : ∀ c, T (.condition c) = .condition c)
    (hgroup : ∀ number place, FilterItem.group number ∈ items → places[number]? = some place →
      f.treeAt depth number = T (.group place)) :
    f.treesAt depth items = placed.map T := by
  induction items generalizing placed with
  | nil =>
      obtain rfl : placed = [] := by simpa using h.symm
      rw [treesAt, List.map_nil]
  | cons item rest ih =>
      cases placed with
      | nil => simp at h
      | cons p others =>
          simp only [List.map_cons, List.cons.injEq] at h
          have hrest := ih h.2 fun number place hmem hplace =>
            hgroup number place (List.mem_cons_of_mem _ hmem) hplace
          cases item with
          | condition c =>
              obtain rfl : .condition c = p := by simpa [namedItem] using h.1
              rw [treesAt, hrest, List.map_cons, hcondition]
          | group number =>
              obtain ⟨place, hplace, rfl⟩ := Option.map_eq_some_iff.1 h.1
              rw [treesAt, hrest, List.map_cons, hgroup number place List.mem_cons_self hplace]

/-- The depth is enough for all groups inside a place. -/
def IsDeep (clauses : List FilterClause) (depth : Nat) : Place → Prop
  | .key key => 0 < depth ∧ ∀ c ∈ clauses, c.key.length < depth + key.length
  | .alternatives _ => True

/-- Read from its group, a place is its declared tree; a group inside another one has a greater
number, so the number of groups bounds the depth. -/
theorem LaidOut.treeAt_eq {f : Filter} {places : List Place} {clauses : List FilterClause}
    (h : LaidOut f.groups places (Declared.junction clauses) (Declared.around? clauses)
      (Declared.items clauses))
    {depth deep number : Nat} {place : Place} (hplace : places[number]? = some place)
    (hdepth : f.groups.length ≤ number + depth) (hdeep : IsDeep clauses deep place) :
    f.treeAt depth number =
      Declared.itemTree clauses (Declared.tree clauses deep) (.group place) := by
  induction depth generalizing deep number place with
  | zero =>
      have := h.number_lt hplace
      omega
  | succ depth ih =>
      obtain ⟨g, hg, hj, -, hitems⟩ := h.group number place hplace
      have htree : f.treeAt (depth + 1) number = .group g.junction (f.treesAt depth g.items) := by
        simp only [treeAt, group?, hg]
      have hinward : ∀ inner, FilterItem.group inner ∈ g.items →
          f.groups.length ≤ inner + depth := by
        intro inner hinner
        have := h.inward number g inner hg hinner
        omega
      rw [htree, hj]
      cases place with
      | alternatives n =>
          simp only [Declared.itemTree, Declared.junction]
          rw [treesAt_of_named (T := Declared.itemTree clauses (Declared.tree clauses 0)) hitems
            (fun _ => rfl)]
          · simp [Declared.items, Declared.itemTree, Function.comp_def]
          · intro inner p hinner hp
            have hmem : some (PlacedItem.group p) ∈ g.items.map (namedItem places) := by
              rw [List.mem_map]
              exact ⟨_, hinner, by rw [namedItem, hp, Option.map_some]⟩
            rw [hitems] at hmem
            simp [Declared.items] at hmem
      | key key =>
          obtain ⟨hpositive, hlength⟩ := hdeep
          obtain ⟨deep, rfl⟩ : ∃ d, deep = d + 1 := ⟨deep - 1, by omega⟩
          simp only [Declared.itemTree, Declared.tree]
          rw [treesAt_of_named (T := Declared.itemTree clauses (Declared.tree clauses deep)) hitems
            (fun _ => rfl)]
          intro inner p hinner hp
          apply ih hp (hinward inner hinner)
          cases p with
          | alternatives _ => trivial
          | key innerKey =>
              have hmem : some (PlacedItem.group (.key innerKey)) ∈
                  g.items.map (namedItem places) := by
                rw [List.mem_map]
                exact ⟨_, hinner, by rw [namedItem, hp, Option.map_some]⟩
              rw [hitems] at hmem
              obtain ⟨segment, rfl, ⟨c, hc, hunder⟩, -⟩ :=
                Declared.key_mem_itemsFrom.1 (by simpa [Declared.items] using hmem)
              have hkey := hunder.length_le
              have hclause := hlength c hc
              simp only [List.length_append, List.length_singleton] at hkey
              constructor
              · omega
              · intro other hother
                have := hlength other hother
                simp only [List.length_append, List.length_singleton]
                omega

/-- The filter is the tree that the clauses declare below the outermost key. -/
theorem LaidOut.tree_eq {f : Filter} {places : List Place} {clauses : List FilterClause}
    {root : String}
    (h : LaidOut f.groups places (Declared.junction clauses) (Declared.around? clauses)
      (Declared.items clauses)) (hrooted : places[Filter.root]? = some (.key [root]))
    {depth : Nat} (hpositive : 0 < depth) (hdeep : ∀ c ∈ clauses, c.key.length ≤ depth) :
    f.tree = Declared.tree clauses depth [root] := by
  apply h.treeAt_eq hrooted (by omega)
  refine ⟨hpositive, ?_⟩
  intro c hc
  have := hdeep c hc
  simp only [List.length_singleton]
  omega

/-! ## All entries -/

theorem addEntries_declare (s : Schema) (config : Configuration) {root : String}
    {clauses : List FilterClause} {d : Draft} {entries : List FilterEntry}
    (h : d.Declares root clauses) (hroot : ∀ e ∈ entries, e.group.segments.head? = some root) :
    match entries.mapM (FilterEntry.clause? s config d.filter.scope) with
    | some more => ∃ d', entries.foldlM (Draft.addEntry s config) d = .ok d' ∧
        d'.Declares root (clauses ++ more) ∧ d'.filter.subject = d.filter.subject
    | none => ∃ fault, entries.foldlM (Draft.addEntry s config) d = .error fault := by
  induction entries generalizing clauses d with
  | nil => exact ⟨d, rfl, by simpa using h, rfl⟩
  | cons e rest ih =>
      have hentry := addEntry_declares s config h (hroot e (by simp))
      rw [List.mapM_cons, List.foldlM_cons]
      cases hclause : e.clause? s config d.filter.scope with
      | none =>
          simp only [hclause] at hentry
          obtain ⟨fault, hfault⟩ := hentry
          rw [hfault]
          exact ⟨fault, rfl⟩
      | some c =>
          simp only [hclause] at hentry
          obtain ⟨d', hadd, hdeclares, hsubject⟩ := hentry
          have hscope : d'.filter.scope = d.filter.scope := congrArg Prod.fst hsubject
          have hrest := ih hdeclares fun e he => hroot e (by simp [he])
          rw [hscope] at hrest
          rw [hadd]
          simp only [Option.bind_eq_bind, Option.bind_some]
          cases hmore : rest.mapM (FilterEntry.clause? s config d.filter.scope) with
          | none =>
              simp only [hmore] at hrest
              exact hrest
          | some more =>
              simp only [hmore] at hrest
              obtain ⟨d'', hfold, hdeclares', hsubject'⟩ := hrest
              exact ⟨d'', hfold, by simpa using hdeclares', hsubject'.trans hsubject⟩

/-- Before any entry, there is the outermost group. -/
theorem declares_nil (root : String) {f : Filter}
    (hgroups : f.groups = [⟨.conjunction, none, [], []⟩]) :
    Draft.Declares root [] ⟨f, []⟩ := by
  have hlaid : LaidOut f.groups [.key [root]] (Declared.junction []) (Declared.around? [])
      (Declared.items []) := by
    refine ⟨by simp, by simp [hgroups], ?_, ?_⟩
    · intro number g inner hg hinner
      rw [hgroups] at hg
      have hmem := List.mem_of_getElem? hg
      obtain rfl : g = ⟨.conjunction, none, [], []⟩ := by simpa using hmem
      simp at hinner
    · intro number place hplace
      have hlt := (List.getElem?_eq_some_iff.1 hplace).1
      obtain rfl : number = 0 := by
        simp at hlt
        omega
      obtain rfl : .key [root] = place := by simpa using hplace
      refine ⟨⟨.conjunction, none, [], []⟩, by simp [hgroups], ?_, ?_, ?_⟩
      · simp [Declared.junction]
      · simp [Declared.around?]
      · simp [Declared.items, Declared.itemsFrom]
  refine ⟨[.key [root]], ⟨hlaid, rfl, ?_, ?_⟩, ?_⟩
  · intro key number hlookup
    simp at hlookup
  · intro key hkey
    exact .inl (by simpa using hkey)
  · intro p
    cases p <;> simp [Declared.IsPlace]

/-- The filter that entries are added to. -/
def start (s : Schema) (resourceType : String) (base : Option String) : Except Fault Filter := do
  let unrestricted ← Filter.all s resourceType
  match base with
  | some path => unrestricted.withBasePath s path
  | none => return unrestricted

theorem build_eq (s : Schema) (config : Configuration) (resourceType : String)
    (base : Option String) (entries : List FilterEntry) :
    build s config resourceType ⟨base, entries⟩ = do
      let f ← start s resourceType base
      return (← entries.foldlM (Draft.addEntry s config) ⟨f, []⟩).filter := by
  have hbuild : build s config resourceType ⟨base, entries⟩ = do
      let f ← start s resourceType base
      return (← entries.foldlM (Builder.addEntry s config) (.start f)).filter := by
    simp only [build, start]
    cases Filter.all s resourceType with
    | error fault => rfl
    | ok f => cases base <;> rfl
  rw [hbuild]
  refine bind_congr fun f => ?_
  have hentries : _ = entries.foldlM (Draft.addEntry s config) ⟨f, []⟩ :=
    Builder.draft_addEntries (Builder.tracks_start f) entries
  rw [← hentries]
  cases entries.foldlM (Builder.addEntry s config) (.start f) <;> rfl

theorem start_groups {s : Schema} {resourceType : String} {base : Option String} {f : Filter}
    (h : start s resourceType base = .ok f) : f.groups = [⟨.conjunction, none, [], []⟩] := by
  simp only [start, Filter.all, bind_eq_ok_iff] at h
  obtain ⟨all, ⟨c, -, hall⟩, h⟩ := h
  have hgroups : all.groups = [⟨.conjunction, none, [], []⟩] := by
    cases hall
    rfl
  cases base with
  | none =>
      cases h
      exact hgroups
  | some path => rw [withBasePath_groups h, hgroups]

/-- A built filter is a draft of the clauses of its entries. -/
theorem build_declares {s : Schema} {config : Configuration} {resourceType root : String}
    {base : Option String} {entries : List FilterEntry} {f : Filter}
    (hroot : ∀ e ∈ entries, e.group.segments.head? = some root)
    (h : build s config resourceType ⟨base, entries⟩ = .ok f) :
    ∃ f₀ clauses opened, start s resourceType base = .ok f₀ ∧ f.subject = f₀.subject ∧
      entries.mapM (FilterEntry.clause? s config f.scope) = some clauses ∧
      Draft.Declares root clauses ⟨f, opened⟩ := by
  rw [build_eq] at h
  simp only [bind_eq_ok_iff] at h
  obtain ⟨f₀, hstart, d, hfold, heq⟩ := h
  have hentries := addEntries_declare s config (declares_nil root (start_groups hstart)) hroot
  obtain rfl : d.filter = f := by simpa [pure, Except.pure] using heq
  cases hclauses : entries.mapM (FilterEntry.clause? s config f₀.scope) with
  | none =>
      simp only [hclauses] at hentries
      obtain ⟨fault, hfault⟩ := hentries
      rw [hfault] at hfold
      cases hfold
  | some clauses =>
      simp only [hclauses] at hentries
      obtain ⟨d', hfold', hdeclares, hsubject⟩ := hentries
      have hscope : d'.filter.scope = f₀.scope := congrArg Prod.fst hsubject
      obtain rfl : d' = d := by
        rw [hfold'] at hfold
        exact Except.ok.inj hfold
      exact ⟨f₀, clauses, d'.opened, hstart, hsubject, by rw [hscope, hclauses],
        by simpa using hdeclares⟩

/-- Entries that are clauses build a filter. -/
theorem build_of_clauses {s : Schema} {config : Configuration} {resourceType root : String}
    {base : Option String} {entries : List FilterEntry} {f₀ : Filter} {clauses : List FilterClause}
    (hroot : ∀ e ∈ entries, e.group.segments.head? = some root)
    (hstart : start s resourceType base = .ok f₀)
    (hclauses : entries.mapM (FilterEntry.clause? s config f₀.scope) = some clauses) :
    ∃ f, build s config resourceType ⟨base, entries⟩ = .ok f ∧ f.subject = f₀.subject := by
  have hentries := addEntries_declare s config (declares_nil root (start_groups hstart)) hroot
  simp only [hclauses] at hentries
  obtain ⟨d, hfold, -, hsubject⟩ := hentries
  refine ⟨d.filter, ?_, hsubject⟩
  rw [build_eq, hstart, ok_bind, hfold]
  rfl

/-! ## Main statement -/

theorem clause?_eq_some_iff {s : Schema} {config : Configuration} {scope : String} {e : FilterEntry}
    {c : FilterClause} : e.clause? s config scope = some c ↔
      c.key = e.group.segments ∧ e.content? s config scope = some c.content ∧
        e.group.depth ≤ config.maxGroupDepth := by
  simp only [FilterEntry.clause?, Option.bind_eq_bind, Option.bind_eq_some_iff, ↓guard_eq_some_iff]
  constructor
  · rintro ⟨_, hdepth, content, hcontent, heq⟩
    cases heq
    exact ⟨rfl, hcontent, hdepth⟩
  · rintro ⟨hkey, hcontent, hdepth⟩
    exact ⟨(), hdepth, c.content, hcontent, by rw [← hkey]; rfl⟩

/-- Keys are no longer than those of the entries. -/
theorem length_key_le {s : Schema} {config : Configuration} {scope : String}
    {entries : List FilterEntry} {clauses : List FilterClause} {depth : Nat}
    (h : entries.mapM (FilterEntry.clause? s config scope) = some clauses)
    (hdepth : ∀ e ∈ entries, e.group.depth ≤ depth) : ∀ c ∈ clauses, c.key.length ≤ depth := by
  intro c hc
  obtain ⟨e, he, hclause⟩ := (mem_of_mapM_eq_some h c).1 hc
  rw [(clause?_eq_some_iff.1 hclause).1]
  exact hdepth e he

/-- Groups of entries that are clauses are within the bound. -/
theorem depth_le_of_clauses {s : Schema} {config : Configuration} {scope : String}
    {entries : List FilterEntry} {clauses : List FilterClause}
    (h : entries.mapM (FilterEntry.clause? s config scope) = some clauses) :
    ∀ e ∈ entries, e.group.depth ≤ config.maxGroupDepth := by
  intro e he
  have hmem : e.clause? s config scope ∈ clauses.map some := by
    rw [← mapM_eq_some_iff.1 h]
    exact List.mem_map_of_mem he
  obtain ⟨c, -, hc⟩ := List.mem_map.1 hmem
  exact (clause?_eq_some_iff.1 hc.symm).2.2

/-- Only a junction entry gives a group its junction. -/
theorem content_of_junctionFor? {s : Schema} {config : Configuration} {scope : String}
    {e : FilterEntry} {c : FilterClause} (key : List String)
    (h : e.clause? s config scope = some c) (hjunction : (c.junctionFor? key).isSome) :
    e.content = .junction ∧ e.group = ⟨key⟩ := by
  obtain ⟨hkey, hcontent, -⟩ := clause?_eq_some_iff.1 h
  obtain ⟨j, hj⟩ := Option.isSome_iff_exists.1 hjunction
  obtain rfl := FilterClause.junctionFor?_eq_some_iff.1 hj
  exact ⟨FilterEntry.content_of_content?_junction hcontent, congrArg GroupKey.mk hkey.symm⟩

theorem junctions_le_one {s : Schema} {config : Configuration} {scope : String}
    {entries : List FilterEntry} {clauses : List FilterClause} {key : List String}
    (h : entries.mapM (FilterEntry.clause? s config scope) = some clauses)
    (hone : (entries.filter fun e => e.content = .junction ∧ e.group = ⟨key⟩).length ≤ 1) :
    (clauses.filterMap (FilterClause.junctionFor? key)).length ≤ 1 := by
  refine Nat.le_trans ?_ hone
  clear hone
  rw [mapM_eq_some_iff] at h
  induction entries generalizing clauses with
  | nil =>
      obtain rfl : clauses = [] := by simpa using h.symm
      simp
  | cons e rest ih =>
      cases clauses with
      | nil => simp at h
      | cons c others =>
          simp only [List.map_cons, List.cons.injEq] at h
          have hrest := ih h.2
          cases hjunction : c.junctionFor? key with
          | none =>
              rw [List.filterMap_cons_none hjunction]
              refine Nat.le_trans hrest ?_
              exact ((List.sublist_cons_self e rest).filter _).length_le
          | some j =>
              have hentry := content_of_junctionFor? key h.1 (by rw [hjunction]; rfl)
              rw [List.filterMap_cons_some hjunction, List.filter_cons_of_pos (by simpa using hentry)]
              simp only [List.length_cons]
              omega

/-- A filter has the groups that its entries declare: each place of the tree has one group, and
each group has one place. Entries in another order build a filter too, with the same truth. -/
theorem build_eq_declared {s : Schema} {config : Configuration} {resourceType root : String}
    {base : Option String} {entries : List FilterEntry} {f : Filter}
    (hroot : ∀ e ∈ entries, e.group.segments.head? = some root)
    (hone : ∀ group, (entries.filter fun e => e.content = .junction ∧ e.group = group).length ≤ 1)
    (h : build s config resourceType ⟨base, entries⟩ = .ok f) :
    (∃ clauses places,
      entries.mapM (FilterEntry.clause? s config f.scope) = some clauses ∧
      places[Filter.root]? = some (.key [root]) ∧
      (∀ p, p ∈ places ↔ Declared.IsPlace root clauses p) ∧
      LaidOut f.groups places (Declared.junction clauses) (Declared.around? clauses)
        (Declared.items clauses) ∧
      ∀ depth, 0 < depth → (∀ e ∈ entries, e.group.depth ≤ depth) →
        f.tree = Declared.tree clauses depth [root]) ∧
    ∀ others, others.Perm entries → ∃ g,
      build s config resourceType ⟨base, others⟩ = .ok g ∧ ∀ v, g.holds v = f.holds v := by
  obtain ⟨f₀, clauses, opened, hstart, hsubject, hclauses, places, hlays, hplaces⟩ :=
    build_declares hroot h
  have hscope : f.scope = f₀.scope := congrArg Prod.fst hsubject
  refine ⟨⟨clauses, places, hclauses, hlays.rooted, hplaces, hlays.laid,
    fun depth hpositive hdepth =>
      hlays.laid.tree_eq hlays.rooted hpositive (length_key_le hclauses hdepth)⟩, ?_⟩
  intro others hperm
  have hroot' : ∀ e ∈ others, e.group.segments.head? = some root :=
    fun e he => hroot e (hperm.mem_iff.1 he)
  obtain ⟨clauses', hclauses', hperm'⟩ := mapM_perm hclauses hperm
  have hclauses₀ : others.mapM (FilterEntry.clause? s config f₀.scope) = some clauses' := by
    rw [← hscope, hclauses']
  obtain ⟨g, hg, hgsubject⟩ := build_of_clauses hroot' hstart hclauses₀
  have hgscope : g.scope = f₀.scope := congrArg Prod.fst hgsubject
  obtain ⟨_, clauses'', opened', -, -, hclauses'', places', hlays', -⟩ := build_declares hroot' hg
  obtain rfl : clauses'' = clauses' := by
    rw [hgscope, ← hscope, hclauses'] at hclauses''
    exact (Option.some.inj hclauses'').symm
  refine ⟨g, hg, ?_⟩
  intro v
  have hdepth : ∀ e ∈ entries, e.group.depth ≤ config.maxGroupDepth + 1 :=
    fun e he => Nat.le_succ_of_le (depth_le_of_clauses hclauses e he)
  have hdepth' : ∀ e ∈ others, e.group.depth ≤ config.maxGroupDepth + 1 :=
    fun e he => hdepth e (hperm.mem_iff.1 he)
  have hpositive : 0 < config.maxGroupDepth + 1 := by omega
  rw [Filter.holds, Filter.holds,
    hlays.laid.tree_eq hlays.rooted hpositive (length_key_le hclauses hdepth),
    hlays'.laid.tree_eq hlays'.rooted hpositive (length_key_le hclauses'' hdepth')]
  apply Declared.holds_tree_perm hperm'
  intro key
  apply junctions_le_one hclauses''
  refine Nat.le_trans (Nat.le_of_eq ?_) (hone ⟨key⟩)
  exact (hperm.filter _).length_eq

/-- Members with two texts to test. -/
def memberSchema : Schema :=
  ⟨[{ name := "Member", role := .resource true, shape := .plain
      table := .ofList
        [{ name := "name", kind := .simple, type := .string, settable := true,
            persistence := some ⟨"name", none⟩ },
          { name := "city", kind := .simple, type := .string, settable := true,
            persistence := some ⟨"city", none⟩ }] }]⟩

/-- A group inside the outermost one comes first, with alternatives in it. -/
def memberEntries : List FilterEntry :=
  [⟨"f.1.2$name,city:prefix", ⟨["f", "1", "2"]⟩,
      .condition ⟨[⟨"name", .start⟩, ⟨"city", .start⟩], [⟨"prefix", [], .start⟩], false⟩, ["A"]⟩,
    ⟨"f$name!", ⟨["f"]⟩, .condition ⟨[⟨"name", .start⟩], [], true⟩, ["Bob"]⟩,
    ⟨"f$", ⟨["f"]⟩, .junction, ["or"]⟩,
    ⟨"f.1$city", ⟨["f", "1"]⟩, .condition ⟨[⟨"city", .start⟩], [], false⟩, [""]⟩]

theorem build_members :
    ∃ f, build memberSchema {} "Member" ⟨none, memberEntries⟩ = .ok f ∧
      (∀ e ∈ memberEntries, e.group.segments.head? = some "f") ∧
      (∀ group, (memberEntries.filter fun e =>
        e.content = .junction ∧ e.group = group).length ≤ 1) ∧
      ∃ g, build memberSchema {} "Member" ⟨none, memberEntries.reverse⟩ = .ok g ∧
        ∀ v, g.holds v = f.holds v := by
  have hroot : ∀ e ∈ memberEntries, e.group.segments.head? = some "f" := by decide
  have hone : ∀ group, (memberEntries.filter fun e =>
      e.content = .junction ∧ e.group = group).length ≤ 1 := by
    intro group
    by_cases hgroup : (⟨["f"]⟩ : GroupKey) = group
    · simp [memberEntries, List.filter, hgroup]
    · simp [memberEntries, List.filter, hgroup]
  have hok : (build memberSchema {} "Member" ⟨none, memberEntries⟩).toOption.isSome = true := rfl
  obtain ⟨f, hf⟩ := Option.isSome_iff_exists.1 hok
  have hbuild := toOption_eq_some_iff.1 hf
  exact ⟨f, hbuild, hroot, hone,
    (build_eq_declared hroot hone hbuild).2 memberEntries.reverse (List.reverse_perm _)⟩

end Filter

end ResourceQuery
