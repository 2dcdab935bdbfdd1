import ResourceQuery.Proofs.Parameters
import ResourceQuery.Proofs.Text.Order
/-!
# Parameters by the start of their names

Names are kept in the order of their octets, so those that begin alike stand next to each other. The
scan from a start on, up to the first name that does not begin with it, therefore finds what a look
at every parameter would find (`withPrefix_exact`).
-/

namespace ResourceQuery.Parameters

/-- The scan looks at one stretch of the names and leaves none out. -/
theorem withPrefix_eq_filter (p : Parameters) (start : String) :
    p.withPrefix start = p.entries.filter fun entry => start.toList <+: entry.1.toList := by
  rw [withPrefix, NameMap.scan_eq_filter p.sorted]
  apply List.filter_congr
  intro entry _
  rw [Text.startsWith, Bool.eq_iff_iff, List.isPrefixOf_iff_prefix, decide_eq_true_eq]

theorem pairwise_octets (p : Parameters) :
    (p.entries.map fun entry => Text.toOctets entry.1.toList).Pairwise (· < ·) := by
  have hnames : p.entries.Pairwise fun entry other => entry.1 < other.1 :=
    List.pairwise_map.1 p.sorted
  rw [List.pairwise_map]
  refine hnames.imp ?_
  intro entry other hless
  exact Text.toOctets_lt_iff.2 (String.lt_iff.1 hless)

/-- The scan for a start is complete and bounded, whatever was given in which order and whatever the
start is. It finds those of all parameters whose names begin with the start, in the order in which
all stand, that of the octets of their names; and it finds exactly the names with that start that
were given a value, each with all of its values in the order they were given. -/
theorem withPrefix_exact (pairs : List (String × String)) (start : String) :
    (ofPairs pairs).withPrefix start =
        (ofPairs pairs).entries.filter (fun entry => start.toList <+: entry.1.toList) ∧
      ((ofPairs pairs).entries.map fun entry =>
        Text.toOctets entry.1.toList).Pairwise (· < ·) ∧
      ∀ name values, (name, values) ∈ (ofPairs pairs).withPrefix start ↔
        start.toList <+: name.toList ∧ (∃ value, (name, value) ∈ pairs) ∧
          values = given name pairs := by
  refine ⟨withPrefix_eq_filter _ start, pairwise_octets _, ?_⟩
  intro name values
  rw [withPrefix_eq_filter, List.mem_filter, decide_eq_true_eq, mem_entries_ofPairs]
  constructor
  · rintro ⟨⟨hne, rfl⟩, hstart⟩
    exact ⟨hstart, given_ne_nil_iff.1 hne, rfl⟩
  · rintro ⟨hstart, hgiven, rfl⟩
    exact ⟨⟨given_ne_nil_iff.2 hgiven, rfl⟩, hstart⟩

/-- Two groups of a filter, one of them not in ASCII, between other parameters. -/
example : (ofPairs [("f.é$z", "1"), ("g$x", "2"), ("f.b$y", "3"), ("f$z", "4"),
    ("f.b$y", "")]).withPrefix "f." = [("f.b$y", ["3", ""]), ("f.é$z", ["1"])] := by decide

end ResourceQuery.Parameters
