import ResourceQuery.Compile.Filter
import ResourceQuery.Proofs.Outcome
/-!
# Groups reached from the outermost one

A filter is built with a stack of groups. The same groups are reached, under the same numbers, by a
walk from the outermost one through the groups met so far (`Draft.reach`): what lies on the stack is
what the walk finds (`Builder.Follows`). So a filter is built as if every parameter was looked for
from the root (`Builder.draft_addEntries`), and the groups at hand need not be known.
-/

namespace ResourceQuery

namespace GroupKey

theorem take_sharedLength (a b : List String) :
    a.take (sharedLength a b) = b.take (sharedLength a b) := by
  induction a generalizing b with
  | nil => cases b <;> rfl
  | cons x rest ih =>
      cases b with
      | nil => rfl
      | cons y others =>
          unfold sharedLength
          split
          · rename_i hxy
            rw [List.take_succ_cons, List.take_succ_cons, hxy, ih]
          · rfl

theorem sharedLength_le_left (a b : List String) : sharedLength a b ≤ a.length := by
  induction a generalizing b with
  | nil => cases b <;> exact Nat.le_refl 0
  | cons x rest ih =>
      cases b with
      | nil => exact Nat.zero_le _
      | cons y others =>
          unfold sharedLength
          split
          · exact Nat.succ_le_succ (ih others)
          · exact Nat.zero_le _

end GroupKey

namespace Filter

/-- A filter while it is built, with the groups opened so far by their segments. -/
structure Draft where
  filter : Filter
  opened : List (List String × Nat)

namespace Draft

/-- The group with the given segments; the groups in front of them are open. -/
def reach (d : Draft) (around : Option Nat) (front : List String) :
    List String → Except Fault (Nat × Draft)
  | [] => .ok (around.getD root, d)
  | segment :: rest =>
    let key := front ++ [segment]
    match d.opened.lookup key with
    | some number => d.reach (some number) key rest
    | none =>
      match around with
      | none => reach { d with opened := (key, root) :: d.opened } (some root) key rest
      | some parent => do
        let (number, filter) ← d.filter.openGroup parent .conjunction
        reach ⟨filter, (key, number) :: d.opened⟩ (some number) key rest

/-- What a parameter adds to a filter, its group reached from the outermost one. -/
def addEntry (s : Schema) (config : Configuration) (d : Draft) (entry : FilterEntry) :
    Except Fault Draft := do
  if config.maxGroupDepth < entry.group.depth then
    throw ((Fault.of (.request (.groupTooDeep entry.group.encode config.maxGroupDepth))).about
      entry.name)
  let (number, d) ← d.reach none [] entry.group.segments
  return { d with filter := ← d.filter.addContent s config number entry }

end Draft

namespace Builder

variable {b b' : Builder} {front : List String}

/-- What is built, without the stack. -/
def draft (b : Builder) : Draft := ⟨b.filter, b.opened⟩

/-- On the stack lie the groups of the fronts of a key. -/
structure Follows (b : Builder) (front : List String) : Prop where
  length : b.stack.length = front.length
  number : ∀ n < front.length, b.opened.lookup (front.take (n + 1)) = b.stack[n]?

theorem Follows.cut (h : b.Follows front) (keep : Nat) :
    Follows { b with stack := b.stack.take keep } (front.take keep) where
  length := by simp [h.length]
  number := by
    intro n hn
    rw [List.length_take] at hn
    show b.opened.lookup _ = (b.stack.take keep)[n]?
    rw [List.take_take, Nat.min_eq_left (by omega), List.getElem?_take_of_lt (by omega)]
    exact h.number n (by omega)

/-- A group is pushed with the number that it has from then on; the others keep theirs. -/
theorem push_ok {key : List String} (h : b.push key = .ok b') :
    ∃ number, b'.stack = b.stack ++ [number] ∧ b'.opened.lookup key = some number ∧
      ∀ other, other ≠ key → b'.opened.lookup other = b.opened.lookup other := by
  unfold push at h
  split at h
  · rename_i number hnumber
    cases h
    exact ⟨number, rfl, hnumber, fun _ _ => rfl⟩
  · obtain ⟨⟨number, filter⟩, -, h⟩ := bind_eq_ok_iff.1 h
    cases h
    refine ⟨number, rfl, by simp, fun other hother => ?_⟩
    have hne : (other == key) = false := by simpa using hother
    rw [List.lookup_cons, hne]

theorem Follows.push {segment : String} (h : b.Follows front)
    (hpush : b.push (front ++ [segment]) = .ok b') : b'.Follows (front ++ [segment]) := by
  obtain ⟨number, hstack, hnumber, hothers⟩ := push_ok hpush
  refine ⟨by simp [hstack, h.length], fun n hn => ?_⟩
  rw [List.length_append, List.length_singleton] at hn
  rcases Nat.lt_succ_iff_lt_or_eq.1 hn with hn | rfl
  · rw [List.take_append_of_le_length hn, hstack, List.getElem?_append_left (h.length ▸ hn)]
    rw [hothers, h.number n hn]
    intro heq
    have hlength := congrArg List.length heq
    simp at hlength
    omega
  · rw [← List.length_singleton (a := segment), ← List.length_append, List.take_length, hnumber,
      hstack, ← h.length, List.getElem?_concat_length]

/-- A walk goes on in the group that is pushed. -/
theorem reach_push (b : Builder) (front : List String) (segment : String) (rest : List String) :
    b.draft.reach b.stack.getLast? front (segment :: rest) =
      b.push (front ++ [segment]) >>= fun next =>
        next.draft.reach next.stack.getLast? (front ++ [segment]) rest := by
  conv => lhs; unfold Draft.reach
  simp only [draft, push, openInside]
  cases b.opened.lookup (front ++ [segment]) with
  | some number => simp [ok_bind]
  | none =>
      cases b.stack.getLast? with
      | none => simp [ok_bind, pure, Except.pure]
      | some parent =>
          simp only [bind_assoc]
          refine bind_congr fun opened => ?_
          simp [pure_bind]

/-- The groups on the stack are those that a walk finds. -/
theorem Follows.reach (h : b.Follows front) (rest : List String) :
    b.draft.reach none [] (front ++ rest) = b.draft.reach b.stack.getLast? front rest := by
  have hfronts : ∀ n ≤ front.length, b.draft.reach none [] (front ++ rest) =
      b.draft.reach (b.stack.take n).getLast? (front.take n) (front.drop n ++ rest) := by
    intro n
    induction n with
    | zero => simp
    | succ n ih =>
        intro hn
        have hlt : n < b.stack.length := h.length ▸ hn
        have hfound : b.draft.opened.lookup (front.take n ++ [front[n]]) = some b.stack[n] := by
          rw [List.take_append_getElem hn, draft, h.number n hn, List.getElem?_eq_getElem hlt]
        rw [ih (Nat.le_of_succ_le hn), List.drop_eq_getElem_cons hn, List.cons_append]
        conv => lhs; unfold Draft.reach
        simp only [hfound]
        rw [List.take_append_getElem, ← List.take_append_getElem hlt, List.getLast?_concat]
  have hwhole := hfronts front.length (Nat.le_refl _)
  rwa [List.take_length, List.drop_length, List.nil_append, ← h.length, List.take_length] at hwhole

/-- To push the groups of a key one after the other is to walk through them. -/
theorem Follows.pushAt {key : GroupKey} (h : b.Follows front) (rest : List String)
    (hkey : key.segments = front ++ rest) :
    ((List.range' front.length rest.length).foldlM (Builder.pushAt key) b).map
        (fun next => (next.number, next.draft)) =
      b.draft.reach b.stack.getLast? front rest ∧
    ∀ next, (List.range' front.length rest.length).foldlM (Builder.pushAt key) b = .ok next →
      next.Follows key.segments := by
  induction rest generalizing b front with
  | nil =>
      refine ⟨rfl, fun next hnext => ?_⟩
      cases hnext
      rwa [hkey, List.append_nil]
  | cons segment rest ih =>
      have hpushAt : b.pushAt key front.length = b.push (front ++ [segment]) := by
        rw [Builder.pushAt, GroupKey.ancestor, hkey, List.take_length_add_append]
        rfl
      rw [List.length_cons, List.range'_succ, List.foldlM_cons, hpushAt, reach_push]
      cases hpush : b.push (front ++ [segment]) with
      | error fault => exact ⟨rfl, fun next hnext => by cases hnext⟩
      | ok between =>
          have hrest := ih (h.push hpush) (by simp [hkey])
          rwa [List.length_append, List.length_singleton] at hrest

/-- The stack holds the groups of the last parameter. -/
def Tracks (b : Builder) : Prop := b.Follows ((b.current.map GroupKey.segments).getD [])

theorem tracks_start (f : Filter) : (start f).Tracks := ⟨rfl, fun _ hn => by cases hn⟩

/-- To go to a group from the one before is to walk to it from the outermost one. -/
theorem Tracks.enter (h : b.Tracks) (key : GroupKey) :
    (b.enter key).map (fun next => (next.number, next.draft)) =
      b.draft.reach none [] key.segments ∧
    ∀ next, b.enter key = .ok next → next.Tracks := by
  let last := (b.current.map GroupKey.segments).getD []
  have hkeep : (b.current.map fun last => last.commonPrefix key).getD 0 =
      GroupKey.sharedLength last key.segments := by
    cases hcurrent : b.current <;>
      simp [last, hcurrent, GroupKey.commonPrefix, GroupKey.sharedLength]
  let keep := GroupKey.sharedLength last key.segments
  have hfollows : Follows { b with stack := b.stack.take keep } (key.segments.take keep) :=
    GroupKey.take_sharedLength last key.segments ▸ Follows.cut h keep
  have hlength : (key.segments.take keep).length = keep := by
    rw [← GroupKey.take_sharedLength, List.length_take,
      Nat.min_eq_left (GroupKey.sharedLength_le_left _ _)]
  have hcut : key.segments = key.segments.take keep ++ key.segments.drop keep :=
    (List.take_append_drop _ _).symm
  obtain ⟨hreach, htracks⟩ := hfollows.pushAt (key.segments.drop keep) hcut
  rw [← hfollows.reach, ← hcut] at hreach
  rw [hlength, List.length_drop] at hreach htracks
  have henter : b.enter key = ((List.range' keep (key.segments.length - keep)).foldlM
      (Builder.pushAt key) { b with stack := b.stack.take keep }).map
        fun next => { next with current := some key } := by
    unfold Builder.enter
    rw [hkeep]
    exact bind_pure_comp _ _
  rw [henter]
  constructor
  · refine Eq.trans ?_ hreach
    cases List.foldlM (Builder.pushAt key) { b with stack := b.stack.take keep }
      (List.range' keep (key.segments.length - keep)) <;> rfl
  · intro next hnext
    obtain ⟨between, hbetween, rfl⟩ := map_eq_ok_iff.1 hnext
    exact ⟨(htracks between hbetween).length, (htracks between hbetween).number⟩

variable {s : Schema} {config : Configuration}

/-- What is built with the stack is what is built by walks. -/
theorem Tracks.addEntry (h : b.Tracks) (e : FilterEntry) :
    (b.addEntry s config e).map draft = b.draft.addEntry s config e ∧
    ∀ next, b.addEntry s config e = .ok next → next.Tracks := by
  obtain ⟨henter, htracks⟩ := h.enter e.group
  unfold Builder.addEntry Draft.addEntry
  rw [← henter]
  by_cases hdepth : config.maxGroupDepth < e.group.depth
  · simp only [if_pos hdepth]
    exact ⟨rfl, fun next hnext => by cases hnext⟩
  simp only [if_neg hdepth]
  cases hbetween : b.enter e.group with
  | error fault => exact ⟨rfl, fun next hnext => by cases hnext⟩
  | ok between =>
      constructor
      · simp only [Except.map, ok_bind, draft]
        cases addContent s config between.filter between.number e <;> rfl
      · intro next hnext
        rw [ok_bind] at hnext
        obtain ⟨f, -, heq⟩ := bind_eq_ok_iff.1 hnext
        cases heq
        exact ⟨(htracks between hbetween).length, (htracks between hbetween).number⟩

theorem draft_addEntries (h : b.Tracks) (entries : List FilterEntry) :
    (entries.foldlM (addEntry s config) b).map draft =
      entries.foldlM (Draft.addEntry s config) b.draft := by
  induction entries generalizing b with
  | nil => rfl
  | cons e rest ih =>
      have hentry : (b.addEntry s config e).map draft = b.draft.addEntry s config e :=
        (h.addEntry e).1
      rw [List.foldlM_cons, List.foldlM_cons, ← hentry]
      cases hnext : b.addEntry s config e with
      | error fault => rfl
      | ok next => exact ih ((h.addEntry e).2 next hnext)

end Builder

end Filter

end ResourceQuery
