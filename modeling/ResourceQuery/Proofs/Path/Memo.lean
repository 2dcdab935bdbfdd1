import Mathlib.Data.List.Dedup
import ResourceQuery.Path.Memo
import ResourceQuery.Proofs.Path.Steps
/-!
# What a memo knows

A memo answers every call as following the path does, since it remembers only paths that were
followed (`Memo.Sound`). After a run of calls it knows the paths of those that were answered, each
once, and nothing of those that failed.
-/

namespace ResourceQuery

namespace Memo

variable {s : Schema} {m : Memo}

/-- Every remembered path is the one that its start and its text name, and none stands twice. -/
structure Sound (s : Schema) (m : Memo) : Prop where
  followed : ∀ p ∈ m.paths, Path.resolve s p.start p.text = .ok p
  nodup : m.paths.Nodup

theorem sound_empty (s : Schema) : empty.Sound s := ⟨by simp [empty], List.nodup_nil⟩

theorem Sound.find?_eq_some_iff (hm : m.Sound s) {start text : String} {p : Path} :
    m.find? start text = some p ↔ p ∈ m.paths ∧ Path.resolve s start text = .ok p := by
  constructor
  · intro h
    have hmem := List.mem_of_find?_eq_some h
    obtain ⟨rfl, rfl⟩ : p.start = start ∧ p.text = text := by simpa using List.find?_some h
    exact ⟨hmem, hm.followed p hmem⟩
  · rintro ⟨hmem, hp⟩
    obtain ⟨rfl, rfl, -⟩ := Path.resolve_ok hp
    have hsome : (m.find? p.start p.text).isSome := List.find?_isSome.2 ⟨p, hmem, by simp⟩
    obtain ⟨q, hq⟩ := Option.isSome_iff_exists.1 hsome
    have hqmem := List.mem_of_find?_eq_some hq
    obtain ⟨hstart, htext⟩ : q.start = p.start ∧ q.text = p.text := by
      simpa using List.find?_some hq
    have hsame := hm.followed q hqmem
    rw [hstart, htext, hp] at hsame
    rw [hq, Except.ok.inj hsame]

/-- What a call does: it answers as following the path does, and remembers the answer. -/
theorem Sound.resolve (hm : m.Sound s) (start text : String) :
    (m.resolve s start text).1 = Path.resolve s start text ∧ (m.resolve s start text).2.Sound s ∧
      ∀ p, p ∈ (m.resolve s start text).2.paths ↔
        p ∈ m.paths ∨ Path.resolve s start text = .ok p := by
  unfold Memo.resolve
  split
  · rename_i p hp
    obtain ⟨hmem, hfollowed⟩ := hm.find?_eq_some_iff.1 hp
    refine ⟨hfollowed.symm, hm, fun q => ⟨.inl, ?_⟩⟩
    rintro (hq | hq)
    · exact hq
    · rw [hfollowed] at hq
      exact Except.ok.inj hq ▸ hmem
  · rename_i hnone
    split
    · rename_i p hp
      obtain ⟨htext, hstart, -⟩ := Path.resolve_ok hp
      have hfresh : p ∉ m.paths := fun hmem => by
        rw [hm.find?_eq_some_iff.2 ⟨hmem, hp⟩] at hnone
        cases hnone
      refine ⟨hp.symm, ⟨?_, ?_⟩, fun q => ?_⟩
      · rw [List.forall_mem_append, List.forall_mem_singleton, hstart, htext]
        exact ⟨hm.followed, hp⟩
      · exact List.nodup_append_comm.1 (List.nodup_cons.2 ⟨hfresh, hm.nodup⟩)
      · rw [List.mem_append, List.mem_singleton, hp, Except.ok.injEq, eq_comm]
    · rename_i fault hfault
      exact ⟨hfault.symm, hm, fun q => by simp [hfault]⟩

/-- The answers to calls that are made one after the other, and what is remembered then. -/
def run (s : Schema) (m : Memo) : List (String × String) → List (Except Fault Path) × Memo
  | [] => ([], m)
  | (start, text) :: calls =>
    let (answer, next) := m.resolve s start text
    let (answers, last) := run s next calls
    (answer :: answers, last)

theorem run_cons (s : Schema) (m : Memo) (start text : String) (calls : List (String × String)) :
    m.run s ((start, text) :: calls) = ((m.resolve s start text).1 ::
      ((m.resolve s start text).2.run s calls).1, ((m.resolve s start text).2.run s calls).2) := rfl

theorem run_append (s : Schema) (m : Memo) (calls more : List (String × String)) :
    m.run s (calls ++ more) =
      ((m.run s calls).1 ++ ((m.run s calls).2.run s more).1,
        ((m.run s calls).2.run s more).2) := by
  induction calls generalizing m with
  | nil => rfl
  | cons call calls ih => rw [List.cons_append, run_cons, run_cons, ih, List.cons_append]

/-- What a run does: each call is answered as if nothing was remembered, and the paths of the
answers are remembered. -/
theorem Sound.run (hm : m.Sound s) (calls : List (String × String)) :
    (m.run s calls).1 = calls.map (fun call => Path.resolve s call.1 call.2) ∧
      (m.run s calls).2.Sound s ∧
      ∀ p, p ∈ (m.run s calls).2.paths ↔
        p ∈ m.paths ∨ ∃ call ∈ calls, Path.resolve s call.1 call.2 = .ok p := by
  induction calls generalizing m with
  | nil => exact ⟨rfl, hm, fun p => by simp [Memo.run]⟩
  | cons call calls ih =>
      obtain ⟨start, text⟩ := call
      obtain ⟨hanswer, hnext, hpaths⟩ := hm.resolve start text
      obtain ⟨hanswers, hlast, hrest⟩ := ih hnext
      rw [run_cons]
      refine ⟨by rw [hanswer, hanswers, List.map_cons], hlast, fun p => ?_⟩
      rw [hrest, hpaths, List.exists_mem_cons_iff, or_assoc]

variable (s) (calls : List (String × String))

theorem mem_run_empty {p : Path} : p ∈ (empty.run s calls).2.paths ↔
    ∃ call ∈ calls, Path.resolve s call.1 call.2 = .ok p := by
  rw [((sound_empty s).run calls).2.2]
  simp [empty]

/-- A path is known if it was called for and could be followed. -/
theorem find?_run_empty (start text : String) :
    (empty.run s calls).2.find? start text =
      if (start, text) ∈ calls then (Path.resolve s start text).toOption else none := by
  have hsound := ((sound_empty s).run calls).2.1
  apply Option.ext
  intro p
  rw [hsound.find?_eq_some_iff, mem_run_empty]
  constructor
  · rintro ⟨⟨⟨start', text'⟩, hcall, hp'⟩, hp⟩
    obtain ⟨rfl, rfl, -⟩ := Path.resolve_ok hp
    obtain ⟨rfl, rfl, -⟩ := Path.resolve_ok hp'
    rw [if_pos hcall, toOption_eq_some_iff, hp]
  · intro h
    split at h
    · rename_i hcall
      have hp := toOption_eq_some_iff.1 h
      exact ⟨⟨_, hcall, hp⟩, hp⟩
    · cases h

/-- The texts that were followed from a start. -/
def followed (start : String) : List String :=
  (calls.filter fun call => call.1 = start ∧ (Path.resolve s start call.2).isOk).map Prod.snd

theorem count_run_empty (start : String) :
    (empty.run s calls).2.count start = (followed s calls start).dedup.length := by
  obtain ⟨hfollowed, hnodup⟩ := ((sound_empty s).run calls).2.1
  have hmem := fun p => mem_run_empty s calls (p := p)
  set paths := (empty.run s calls).2.paths
  have hdistinct : ((paths.filter fun p => p.start == start).map Path.text).Nodup := by
    refine (hnodup.filter _).map_on fun p hp q hq htext => ?_
    simp only [List.mem_filter, beq_iff_eq] at hp hq
    -- a start and a text name one path
    have hsame := hfollowed p hp.1
    rw [hp.2, htext, ← hq.2, hfollowed q hq.1] at hsame
    exact (Except.ok.inj hsame).symm
  have hsame : ∀ text, text ∈ (paths.filter fun p => p.start == start).map Path.text ↔
      text ∈ (followed s calls start).dedup := by
    intro text
    simp only [List.mem_dedup, followed, List.mem_map, List.mem_filter, beq_iff_eq,
      decide_eq_true_eq, Prod.exists]
    constructor
    · rintro ⟨p, ⟨hp, rfl⟩, rfl⟩
      obtain ⟨⟨start', text'⟩, hcall, hp'⟩ := (hmem p).1 hp
      obtain ⟨rfl, rfl, -⟩ := Path.resolve_ok hp'
      exact ⟨p.start, p.text, ⟨hcall, rfl, by rw [hp']; rfl⟩, rfl⟩
    · rintro ⟨start', text', ⟨hcall, rfl, hok⟩, rfl⟩
      cases hp : Path.resolve s start' text' with
      | error fault =>
          rw [hp] at hok
          cases hok
      | ok p =>
          obtain ⟨htext, hstart, -⟩ := Path.resolve_ok hp
          exact ⟨p, ⟨(hmem p).2 ⟨_, hcall, hp⟩, hstart⟩, htext⟩
  have hperm := (List.perm_ext_iff_of_nodup hdistinct (List.nodup_dedup _)).2 hsame
  rw [← hperm.length_eq, List.length_map]
  rfl

end Memo

end ResourceQuery
