import ResourceQuery.Proofs.Parameters
import ResourceQuery.Proofs.Text.Form
/-!
# Query strings and back

Parameters that were given by name and value are read of the query string that they are written as.
The query string has the pairs in the order of names, and so in another order than they were given
in; but the values of one name keep theirs, and more is not noted of them.
-/

namespace ResourceQuery.Parameters

/-- The pairs of parameters give each name the values that it was given. -/
theorem given_toPairs_ofPairs (name : String) (pairs : List (String × String)) :
    given name (ofPairs pairs).toPairs = given name pairs := by
  by_cases hempty : given name pairs = []
  · rw [hempty]
    apply given_eq_nil
    intro pair hpair hname
    obtain ⟨entry, hentry, hvalue⟩ := List.mem_flatMap.1 hpair
    obtain ⟨value, -, rfl⟩ := List.mem_map.1 hvalue
    obtain ⟨hne, hgiven⟩ := mem_entries_ofPairs.1 hentry
    have hsame : entry.1 = name := hname
    rw [hgiven, hsame] at hne
    exact hne hempty
  · have hentry : (name, given name pairs) ∈ (ofPairs pairs).entries :=
      mem_entries_ofPairs.2 ⟨hempty, rfl⟩
    have hnodup : ((ofPairs pairs).entries.map Prod.fst).Nodup :=
      List.Pairwise.imp String.ne_of_lt (ofPairs pairs).sorted
    show given name ((ofPairs pairs).entries.flatMap fun entry =>
      entry.2.map fun value => (entry.1, value)) = given name pairs
    exact given_of_nodup hnodup hentry

theorem ofPairs_toPairs_ofPairs (pairs : List (String × String)) :
    ofPairs (ofPairs pairs).toPairs = ofPairs pairs :=
  ofPairs_congr fun name => given_toPairs_ofPairs name pairs

/-- What is read of a written query string are its pairs: nothing in front of it is left out. -/
theorem parse_encode (p : Parameters) : parse p.encode = ofPairs p.toPairs := by
  have hhead : p.encode.toList.head? ≠ some '?' := by
    rw [encode, String.toList_ofList]
    exact Text.Form.head?_print_ne _
  have hpairs : (Text.Form.parse p.encode.toList).map (fun pair =>
      (String.ofList pair.1, String.ofList pair.2)) = p.toPairs := by
    rw [encode, String.toList_ofList, Text.Form.parse_print, List.map_map]
    calc
      _ = p.toPairs.map id := by
        apply List.map_congr_left
        intro pair _
        simp only [Function.comp, String.ofList_toList, id]
      _ = p.toPairs := List.map_id _
  rw [parse]
  split
  · rename_i rest hquery
    rw [hquery] at hhead
    exact absurd rfl hhead
  · exact congrArg ofPairs hpairs

/-- Parameters are read of their query string: those that were given by any sequence of names and
values, and those that were read of any query string. -/
theorem queryString_roundtrip :
    (∀ pairs : List (String × String), parse (ofPairs pairs).encode = ofPairs pairs) ∧
      ∀ query : String, parse (parse query).encode = parse query := by
  have hpairs : ∀ pairs, parse (ofPairs pairs).encode = ofPairs pairs := by
    intro pairs
    rw [parse_encode, ofPairs_toPairs_ofPairs]
  exact ⟨hpairs, fun query => hpairs _⟩

end ResourceQuery.Parameters
