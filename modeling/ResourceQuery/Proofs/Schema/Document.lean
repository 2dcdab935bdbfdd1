import ResourceQuery.DocumentText
import ResourceQuery.Proofs.Json.RoundTrip
import ResourceQuery.Proofs.Outcome
/-!
# Documents written as trees

A record is written with every field in its place, so it is read as it was, whatever is left to its
default: `ofTree?` undoes `toJson` for each declaration and for configurations. Tables of roles are
kept in the order of operations, and every table that is read is (`SchemaDocument.Ordered`).
-/

namespace ResourceQuery

open Json (Fits)

/-! ## Records -/

namespace DocumentTree

/-- What is read of a field is its default, or read of the tree of the field. -/
theorem of_withDefault {ν α : Type} {name : String} {fields : List (String × ν)}
    {read : ν → Option α} {P : α → Prop} {default a : α}
    (h : withDefault name default read fields = some a) (hdefault : P default)
    (hread : ∀ tree, read tree = some a → P a) : P a := by
  unfold withDefault at h
  split at h
  · exact hread _ h
  · cases h
    exact hdefault

theorem forall_mem_of_mapM {ν α : Type} {read : ν → Option α} {P : α → Prop} {trees : List ν}
    {items : List α} (h : trees.mapM read = some items)
    (hread : ∀ tree a, read tree = some a → P a) : ∀ a ∈ items, P a := by
  induction trees generalizing items with
  | nil =>
      cases h
      exact List.forall_mem_nil _
  | cons first rest ih =>
      rw [List.mapM_cons] at h
      obtain ⟨a, ha, hrest⟩ := Option.bind_eq_some_iff.1 h
      obtain ⟨others, hothers, heq⟩ := Option.bind_eq_some_iff.1 hrest
      cases heq
      exact List.forall_mem_cons.2 ⟨hread first a ha, ih hothers⟩

/-- A list that may be left out holds what is read of its items. -/
theorem forall_mem_of_withDefault {ν α : Type} [DocumentTree ν] {name : String}
    {fields : List (String × ν)} {read : ν → Option α} {P : α → Prop} {items : List α}
    (h : withDefault name [] (listOf read) fields = some items)
    (hread : ∀ tree a, read tree = some a → P a) : ∀ a ∈ items, P a := by
  refine of_withDefault (P := fun items => ∀ a ∈ items, P a) h (List.forall_mem_nil _) ?_
  intro tree hitems
  obtain ⟨trees, -, hitems⟩ := Option.bind_eq_some_iff.1 hitems
  exact forall_mem_of_mapM hitems hread

variable {α : Type} {name : String} {fields : List (String × Json)} {tree : Json}
  {read : Json → Option α}

theorem eraseDups_of_nodup {names : List String} (h : names.Nodup) : names.eraseDups = names := by
  induction names with
  | nil => rfl
  | cons name rest ih =>
      obtain ⟨hname, hrest⟩ := List.nodup_cons.1 h
      have hall : rest.filter (fun other => !other == name) = rest := by
        rw [List.filter_eq_self]
        intro other hother
        have hne : other ≠ name := fun heq => hname (heq ▸ hother)
        simpa using hne
      rw [List.eraseDups_cons, hall, ih hrest]

/-- An object of exactly the known fields is read as these. -/
theorem record?_object {names : List String} (hnodup : names.Nodup)
    (hnames : fields.map Prod.fst = names) : record? names (Json.object fields) = some fields := by
  have hknown : fields.filter (fun member => names.contains member.1) = fields := by
    rw [List.filter_eq_self]
    intro member hmember
    rw [List.contains_iff_mem, ← hnames]
    exact List.mem_map_of_mem hmember
  have hfields : fields? names (Json.object fields) = some fields := rfl
  simp only [record?, hfields, Option.bind_eq_bind, Option.bind_some, hknown, hnames,
    eraseDups_of_nodup hnodup]
  rw [if_pos]
  rw [← hnames, List.length_map]

theorem required_of_lookup (h : fields.lookup name = some tree) :
    required name read fields = read tree := by
  rw [required, h]
  rfl

theorem withDefault_of_lookup (h : fields.lookup name = some tree) (default : α) :
    withDefault name default read fields = read tree := by
  rw [withDefault, h]

/-- A field that may be left out is written as nothing, or as what is read again. -/
theorem optional_of_lookup {write : α → Json} {a : Option α}
    (h : fields.lookup name = some (Json.ofOption write a))
    (hread : ∀ x ∈ a, isMissing (write x) = false ∧ read (write x) = some x) :
    optional name read fields = some a := by
  rw [optional, h]
  cases a with
  | none => rfl
  | some x =>
      obtain ⟨hmissing, hread⟩ := hread x rfl
      change (if isMissing (write x) then some none else (read (write x)).map some) = _
      rw [hmissing, hread]
      rfl

theorem optional_text {a : Option String}
    (h : fields.lookup name = some (Json.ofOption .string a)) :
    optional name text? fields = some a := optional_of_lookup h fun _ _ => ⟨rfl, rfl⟩

theorem optional_choice {ofName? : String → Option α} {nameOf : α → String} {a : Option α}
    (h : fields.lookup name = some (Json.ofOption (fun x => .string (nameOf x)) a))
    (hname : ∀ x, ofName? (nameOf x) = some x) :
    optional name (choiceOf ofName?) fields = some a :=
  optional_of_lookup h fun x _ => ⟨rfl, hname x⟩

theorem mapM_map_eq_some {β : Type} {write : α → β} {read : β → Option α} {items : List α}
    (h : ∀ a ∈ items, read (write a) = some a) : (items.map write).mapM read = some items := by
  induction items with
  | nil => rfl
  | cons a rest ih =>
      rw [List.map_cons, List.mapM_cons, h a (by simp), ih fun b hb => h b (by simp [hb])]
      rfl

theorem listOf_array {write : α → Json} {items : List α}
    (h : ∀ a ∈ items, read (write a) = some a) :
    listOf read (.array (items.map write)) = some items := mapM_map_eq_some h

end DocumentTree

open DocumentTree

theorem Json.fits_ofOption {α : Type} {levels : Nat} {write : α → Json} {a : Option α}
    (h : ∀ x ∈ a, Fits levels (write x)) : Fits levels (Json.ofOption write a) := by
  cases a with
  | none => exact .null
  | some x => exact h x rfl

theorem Json.fits_map {α : Type} {levels : Nat} {write : α → Json} {items : List α}
    (h : ∀ a ∈ items, Fits levels (write a)) : Fits (levels + 1) (.array (items.map write)) := by
  refine .array fun item hitem => ?_
  obtain ⟨a, ha, rfl⟩ := List.mem_map.1 hitem
  exact h a ha

/-! ## Choices by their names -/

theorem Operation.ofName?_name (op : Operation) : ofName? op.name = some op := by
  cases op <;> rfl

theorem AggregateFunction.ofName?_name (f : AggregateFunction) : ofName? f.name = some f := by
  cases f <;> rfl

theorem DeclaredKind.ofName?_name (k : DeclaredKind) : ofName? k.name = some k := by
  cases k <;> rfl

theorem Stamp.ofName?_name (stamp : Stamp) : ofName? stamp.name = some stamp := by
  cases stamp <;> rfl

/-! ## Tables of roles -/

theorem Operation.rank_injective : Function.Injective rank := by
  intro op other h
  cases op <;> cases other <;> first | rfl | cases h

namespace RoleTable

/-- The rows stand in the order of operations, one for each. -/
def Ordered (table : RoleTable) : Prop := table.Pairwise fun row other => row.1.rank < other.1.rank

theorem insert_last {op : Operation} {table : RoleTable}
    (h : ∀ row ∈ table, row.1.rank < op.rank) (declared : List String) :
    insert op declared table = table ++ [(op, declared)] := by
  induction table with
  | nil => rfl
  | cons row rest ih =>
      obtain ⟨key, old⟩ := row
      have hlt : key.rank < op.rank := h (key, old) (by simp)
      have hne : key ≠ op := by
        rintro rfl
        exact Nat.lt_irrefl _ hlt
      rw [insert, if_neg (by omega), if_neg hne, ih fun row hrow => h row (by simp [hrow])]
      rfl

theorem foldl_insert_ordered (front : RoleTable) {rest : RoleTable} (h : Ordered (front ++ rest)) :
    rest.foldl (fun table row => insert row.1 row.2 table) front = front ++ rest := by
  induction rest generalizing front with
  | nil => simp
  | cons row rest ih =>
      have hlast : ∀ other ∈ front, other.1.rank < row.1.rank := fun other hother =>
        (List.pairwise_append.1 h).2.2 other hother row (by simp)
      rw [List.foldl_cons, insert_last hlast, ih _ (by simpa using h)]
      simp

theorem mem_insert {table : RoleTable} {op : Operation} {declared : List String}
    {row : Operation × List String} (h : row ∈ insert op declared table) :
    row = (op, declared) ∨ row ∈ table := by
  induction table with
  | nil => exact .inl (List.mem_singleton.1 h)
  | cons first rest ih =>
      obtain ⟨key, old⟩ := first
      rw [insert] at h
      split at h
      · exact (List.mem_cons.1 h).imp id id
      · split at h
        · exact (List.mem_cons.1 h).imp id (List.mem_cons_of_mem _)
        · rcases List.mem_cons.1 h with rfl | hrest
          · exact .inr List.mem_cons_self
          · exact (ih hrest).imp id (List.mem_cons_of_mem _)

theorem ordered_insert {table : RoleTable} (h : table.Ordered) (op : Operation)
    (declared : List String) : (insert op declared table).Ordered := by
  induction table with
  | nil => exact List.pairwise_singleton _ _
  | cons first rest ih =>
      obtain ⟨key, old⟩ := first
      obtain ⟨hfirst, hrest⟩ := List.pairwise_cons.1 h
      rw [insert]
      split
      · rename_i hlt
        refine List.pairwise_cons.2 ⟨List.forall_mem_cons.2 ⟨hlt, fun row hrow => ?_⟩, h⟩
        exact Nat.lt_trans hlt (hfirst row hrow)
      · rename_i hle
        split
        · rename_i heq
          subst heq
          exact List.pairwise_cons.2 ⟨hfirst, hrest⟩
        · rename_i hne
          have hrank : key.rank ≠ op.rank := fun heq => hne (Operation.rank_injective heq)
          refine List.pairwise_cons.2 ⟨fun row hrow => ?_, ih hrest⟩
          rcases mem_insert hrow with rfl | hrow
          · exact Nat.lt_of_le_of_ne (Nat.not_lt.1 hle) hrank
          · exact hfirst row hrow

/-- Every table that is read is ordered. -/
theorem ordered_of_ofTree? {ν : Type} [DocumentTree ν] {tree : ν} {table : RoleTable}
    (h : ofTree? tree = some table) : table.Ordered := by
  have hfold : ∀ (rows front : RoleTable), front.Ordered →
      (rows.foldl (fun table row => insert row.1 row.2 table) front).Ordered := by
    intro rows
    induction rows with
    | nil => exact fun _ hfront => hfront
    | cons row rest ih => exact fun front hfront => ih _ (ordered_insert hfront _ _)
  obtain ⟨members, -, h⟩ := Option.bind_eq_some_iff.1 h
  obtain ⟨rows, -, h⟩ := Option.bind_eq_some_iff.1 h
  cases h
  exact hfold rows [] List.Pairwise.nil

/-- An ordered table is read as it was written. -/
theorem ofTree?_toJson {table : RoleTable} (h : table.Ordered) :
    ofTree? (toJson table) = some table := by
  have hmembers : members? (toJson table) =
      some (table.map fun row => (row.1.name, Json.array (row.2.map .string))) := rfl
  rw [ofTree?, hmembers, Option.bind_eq_bind, Option.bind_some, mapM_map_eq_some]
  · exact congrArg some (foldl_insert_ordered [] h)
  · intro row _
    have hroles : listOf text? (Json.array (row.2.map .string)) = some row.2 :=
      listOf_array fun _ _ => rfl
    simp only [Operation.ofName?_name, hroles]
    rfl

theorem fits_toJson (levels : Nat) (table : RoleTable) : Fits (levels + 2) (toJson table) := by
  refine .object fun member hmember => ?_
  obtain ⟨row, -, rfl⟩ := List.mem_map.1 hmember
  exact Json.fits_map fun role _ => .string role

end RoleTable

/-! ## Declarations -/

namespace StorageDeclaration

theorem ofTree?_toJson (d : StorageDeclaration) : ofTree? (toJson d) = some d := by
  have hfields : record? fieldNames (toJson d) = some _ := record?_object (by decide) rfl
  rw [ofTree?, hfields, Option.bind_eq_bind, Option.bind_some, required_of_lookup rfl,
    optional_text rfl, optional_text rfl]
  rfl

theorem fits_toJson (levels : Nat) (d : StorageDeclaration) : Fits (levels + 1) (toJson d) := by
  have htext : ∀ a : Option String, Fits levels (Json.ofOption .string a) :=
    fun _ => Json.fits_ofOption fun text _ => .string text
  refine .object ?_
  simp only [List.forall_mem_cons]
  exact ⟨.string _, htext _, htext _, List.forall_mem_nil _⟩

end StorageDeclaration

namespace Aggregate

theorem ofTree?_toJson (a : Aggregate) : ofTree? (toJson a) = some a := by
  have hfields : record? fieldNames (toJson a) = some _ := record?_object (by decide) rfl
  have hfunction : choiceOf AggregateFunction.ofName? (Json.string a.function.name) =
      some a.function := a.function.ofName?_name
  rw [ofTree?, hfields, Option.bind_eq_bind, Option.bind_some, required_of_lookup rfl, hfunction,
    required_of_lookup rfl, optional_text rfl]
  rfl

theorem fits_toJson (levels : Nat) (a : Aggregate) : Fits (levels + 1) (toJson a) := by
  refine .object ?_
  simp only [List.forall_mem_cons]
  exact ⟨.string _, .string _, Json.fits_ofOption fun text _ => .string text,
    List.forall_mem_nil _⟩

end Aggregate

namespace PropertyDeclaration

def Ordered (d : PropertyDeclaration) : Prop := d.access.Ordered

theorem ofTree?_toJson {d : PropertyDeclaration} (h : d.Ordered) : ofTree? (toJson d) = some d := by
  have hfields : record? fieldNames (toJson d) = some _ := record?_object (by decide) rfl
  have hstorage : ∀ x ∈ d.storage, isMissing (StorageDeclaration.toJson x) = false ∧
      StorageDeclaration.ofTree? (StorageDeclaration.toJson x) = some x :=
    fun x _ => ⟨rfl, x.ofTree?_toJson⟩
  have haggregate : ∀ x ∈ d.aggregate, isMissing (Aggregate.toJson x) = false ∧
      Aggregate.ofTree? (Aggregate.toJson x) = some x := fun x _ => ⟨rfl, x.ofTree?_toJson⟩
  rw [ofTree?, hfields, Option.bind_eq_bind, Option.bind_some, required_of_lookup rfl,
    optional_choice rfl DeclaredKind.ofName?_name, required_of_lookup rfl,
    withDefault_of_lookup rfl, RoleTable.ofTree?_toJson h, withDefault_of_lookup rfl,
    withDefault_of_lookup rfl, withDefault_of_lookup rfl, withDefault_of_lookup rfl,
    withDefault_of_lookup rfl, optional_text rfl, optional_of_lookup rfl hstorage,
    optional_text rfl, optional_choice rfl Stamp.ofName?_name,
    optional_of_lookup rfl haggregate]
  rfl

theorem ordered_of_ofTree? {ν : Type} [DocumentTree ν] {tree : ν} {d : PropertyDeclaration}
    (h : ofTree? tree = some d) : d.Ordered := by
  -- the fields, and the three in front of the access table
  iterate 4 obtain ⟨_, -, h⟩ := Option.bind_eq_some_iff.1 h
  obtain ⟨access, haccess, h⟩ := Option.bind_eq_some_iff.1 h
  have hordered : RoleTable.Ordered access := of_withDefault haccess List.Pairwise.nil
    fun _ => RoleTable.ordered_of_ofTree?
  iterate 10 obtain ⟨_, -, h⟩ := Option.bind_eq_some_iff.1 h
  cases h
  exact hordered

theorem fits_toJson (levels : Nat) (d : PropertyDeclaration) : Fits (levels + 3) (toJson d) := by
  have htext : ∀ a : Option String, Fits (levels + 2) (Json.ofOption .string a) :=
    fun _ => Json.fits_ofOption fun text _ => .string text
  refine .object ?_
  simp only [List.forall_mem_cons]
  exact ⟨.string _, Json.fits_ofOption fun kind _ => .string kind.name, .string _,
    RoleTable.fits_toJson levels d.access, .bool _, .bool _, .bool _, .bool _, .bool _, htext _,
    Json.fits_ofOption fun storage _ => storage.fits_toJson (levels + 1), htext _,
    Json.fits_ofOption fun stamp _ => .string stamp.name,
    Json.fits_ofOption fun a _ => a.fits_toJson (levels + 1), List.forall_mem_nil _⟩

end PropertyDeclaration

namespace VariantDeclaration

def Ordered (d : VariantDeclaration) : Prop := ∀ p ∈ d.properties, p.Ordered

theorem ofTree?_toJson {d : VariantDeclaration} (h : d.Ordered) : ofTree? (toJson d) = some d := by
  have hfields : record? fieldNames (toJson d) = some _ := record?_object (by decide) rfl
  rw [ofTree?, hfields, Option.bind_eq_bind, Option.bind_some, required_of_lookup rfl,
    withDefault_of_lookup rfl, listOf_array fun p hp => PropertyDeclaration.ofTree?_toJson (h p hp)]
  rfl

theorem ordered_of_ofTree? {ν : Type} [DocumentTree ν] {tree : ν} {d : VariantDeclaration}
    (h : ofTree? tree = some d) : d.Ordered := by
  simp only [ofTree?, Option.bind_eq_bind, Option.bind_eq_some_iff] at h
  obtain ⟨fields, -, name, -, properties, hproperties, heq⟩ := h
  cases heq
  exact forall_mem_of_withDefault hproperties fun _ _ => PropertyDeclaration.ordered_of_ofTree?

theorem fits_toJson (levels : Nat) (d : VariantDeclaration) : Fits (levels + 5) (toJson d) := by
  refine .object ?_
  simp only [List.forall_mem_cons]
  exact ⟨.string _, Json.fits_map fun p _ => p.fits_toJson levels, List.forall_mem_nil _⟩

end VariantDeclaration

namespace TypeDeclaration

structure Ordered (d : TypeDeclaration) : Prop where
  properties : ∀ p ∈ d.properties, p.Ordered
  variants : ∀ v ∈ d.variants, v.Ordered

theorem ofTree?_toJson {d : TypeDeclaration} (h : d.Ordered) : ofTree? (toJson d) = some d := by
  have hfields : record? fieldNames (toJson d) = some _ := record?_object (by decide) rfl
  rw [ofTree?, hfields, Option.bind_eq_bind, Option.bind_some, required_of_lookup rfl,
    withDefault_of_lookup rfl, optional_text rfl, withDefault_of_lookup rfl,
    listOf_array fun p hp => PropertyDeclaration.ofTree?_toJson (h.properties p hp),
    withDefault_of_lookup rfl,
    listOf_array fun v hv => VariantDeclaration.ofTree?_toJson (h.variants v hv)]
  rfl

theorem ordered_of_ofTree? {ν : Type} [DocumentTree ν] {tree : ν} {d : TypeDeclaration}
    (h : ofTree? tree = some d) : d.Ordered := by
  simp only [ofTree?, Option.bind_eq_bind, Option.bind_eq_some_iff] at h
  obtain ⟨fields, -, name, -, persistent, -, discriminator, -, properties, hproperties, variants,
    hvariants, heq⟩ := h
  cases heq
  exact ⟨forall_mem_of_withDefault hproperties fun _ _ => PropertyDeclaration.ordered_of_ofTree?,
    forall_mem_of_withDefault hvariants fun _ _ => VariantDeclaration.ordered_of_ofTree?⟩

theorem fits_toJson (levels : Nat) (d : TypeDeclaration) : Fits (levels + 7) (toJson d) := by
  refine .object ?_
  simp only [List.forall_mem_cons]
  exact ⟨.string _, .bool _, Json.fits_ofOption fun text _ => .string text,
    Json.fits_map fun p _ => p.fits_toJson (levels + 2),
    Json.fits_map fun v _ => v.fits_toJson levels, List.forall_mem_nil _⟩

end TypeDeclaration

namespace SchemaDocument

/-- All tables of roles stand in the order of operations. -/
structure Ordered (d : SchemaDocument) : Prop where
  resources : ∀ t ∈ d.resources, t.Ordered
  objects : ∀ t ∈ d.objects, t.Ordered

/-- A document is read as it was written. -/
theorem ofTree?_toJson {d : SchemaDocument} (h : d.Ordered) : ofTree? (toJson d) = some d := by
  have hfields : record? fieldNames (toJson d) = some _ := record?_object (by decide) rfl
  rw [ofTree?, hfields, Option.bind_eq_bind, Option.bind_some, withDefault_of_lookup rfl,
    listOf_array fun t ht => TypeDeclaration.ofTree?_toJson (h.resources t ht),
    withDefault_of_lookup rfl,
    listOf_array fun t ht => TypeDeclaration.ofTree?_toJson (h.objects t ht)]
  rfl

theorem ordered_of_ofTree? {ν : Type} [DocumentTree ν] {tree : ν} {d : SchemaDocument}
    (h : ofTree? tree = some d) : d.Ordered := by
  simp only [ofTree?, Option.bind_eq_bind, Option.bind_eq_some_iff] at h
  obtain ⟨fields, -, resources, hresources, objects, hobjects, heq⟩ := h
  cases heq
  exact ⟨forall_mem_of_withDefault hresources fun _ _ => TypeDeclaration.ordered_of_ofTree?,
    forall_mem_of_withDefault hobjects fun _ _ => TypeDeclaration.ordered_of_ofTree?⟩

theorem fits_toJson (levels : Nat) (d : SchemaDocument) : Fits (levels + 9) (toJson d) := by
  refine .object ?_
  simp only [List.forall_mem_cons]
  exact ⟨Json.fits_map fun t _ => t.fits_toJson levels,
    Json.fits_map fun t _ => t.fits_toJson levels, List.forall_mem_nil _⟩

end SchemaDocument

/-! ## Configurations -/

namespace Configuration

/-- The limits are numbers of eight octets. -/
structure Bounded (c : Configuration) : Prop where
  maxGroupDepth : c.maxGroupDepth ≤ Json.significandBound
  maxOperands : c.maxOperands ≤ Json.significandBound

theorem natural?_ofNat (n : Nat) : natural? (Json.ofNat n) = some n := by
  change (if (0 : Int) ≤ n then some (n : Int).toNat else none) = _
  rw [if_pos (Int.natCast_nonneg n), Int.toNat_natCast]

/-- A configuration is read as it was written, whether it is valid or not. -/
theorem ofTree?_toJson (c : Configuration) : ofTree? (toJson c) = some c := by
  have hfields : record? fieldNames (toJson c) = some _ := record?_object (by decide) rfl
  rw [ofTree?, hfields, Option.bind_eq_bind, Option.bind_some]
  dsimp only
  rw [withDefault_of_lookup rfl, withDefault_of_lookup rfl, withDefault_of_lookup rfl,
    withDefault_of_lookup rfl, withDefault_of_lookup rfl, withDefault_of_lookup rfl,
    natural?_ofNat, withDefault_of_lookup rfl, natural?_ofNat]
  rfl

theorem fits_toJson (levels : Nat) {c : Configuration} (h : c.Bounded) :
    Fits (levels + 1) (toJson c) := by
  have hnumber : ∀ n : Nat, n ≤ Json.significandBound → Fits levels (Json.ofNat n) := by
    intro n hn
    refine .integer ⟨?_, ?_⟩ <;> omega
  refine .object ?_
  simp only [List.forall_mem_cons]
  exact ⟨.string _, .string _, .string _, .string _, .string _, hnumber _ h.maxGroupDepth,
    hnumber _ h.maxOperands, List.forall_mem_nil _⟩

end Configuration

end ResourceQuery
