import Mathlib.Data.List.Perm.Subperm
import Mathlib.Order.Bounds.Basic
import MemberAccess.Binding.Search
import MemberAccess.Proofs.Registry.Rooted

/-!
# Distances are shortest paths

A climb looks at one layer of classes after another, so the layer in which it first meets a class is as far away as
a shortest path to that class is long. A search with a queue comes to the same. It meets a class when it puts it in
the queue, so that each comes there once, and takes the classes out again in the order of their distances.

* `Registry.Path`: paths with the number of their edges.
* `climb_eq_some_iff`, `steps_eq_some_iff`: a climb finds the length of a shortest path.
* `Registry.Searches`: the search with a queue, with no bound on it.
* `Registry.Waiting`: what holds while it goes on. `Waiting.onward` keeps it, class by class, and `Searches.shortest`
  has from it what is answered at the end.
* `searches_iff`: the search comes to an end, in one way, with what a climb finds.
* `Store.distance_shortest`: distances in a store, those between arrays apart, are lengths of shortest paths.
-/

namespace MemberAccess

namespace Registry

variable {r : Registry} {c b s source target : ClassId} {n m : Nat}

/-- A path of so many edges leads up from a class to another. -/
inductive Path (r : Registry) : Nat → ClassId → ClassId → Prop
  | here (c : ClassId) : Path r 0 c c
  | up {n : Nat} {c b s : ClassId} (edge : r.Edge c b) (rest : Path r n b s) : Path r (n + 1) c s

/-! ## Paths -/

theorem Path.tail (h : r.Path n c b) (edge : r.Edge b s) : r.Path (n + 1) c s := by
  induction h with
  | here c => exact .up edge (.here s)
  | up first _ ih => exact .up first (ih edge)

theorem reaches_iff_path : r.Reaches c s ↔ ∃ n, r.Path n c s := by
  constructor
  · intro h
    induction h with
    | refl => exact ⟨0, .here c⟩
    | tail _ edge ih =>
      obtain ⟨n, hpath⟩ := ih
      exact ⟨n + 1, hpath.tail edge⟩
  · rintro ⟨n, hpath⟩
    induction hpath with
    | here c => exact .refl
    | up edge _ ih => exact .head edge ih

/-- Every edge leads lower, so a path is no longer than the class it starts from is high. -/
theorem Proper.path_le (hp : r.Proper) (h : r.Path n c s) : s.height + n ≤ c.height := by
  induction h with
  | here c => exact Nat.le_refl _
  | up edge _ ih =>
    have hlt := (hp.edge edge).2.2
    omega

/-- A path to a class that is not in a collection leaves the collection somewhere. -/
theorem Path.leaves (h : r.Path n c s) {met : List ClassId} (hc : c ∈ met) (hs : s ∉ met) :
    ∃ m a b, m < n ∧ r.Path m c a ∧ a ∈ met ∧ r.Edge a b ∧ b ∉ met := by
  induction h with
  | here c => exact absurd hc hs
  | @up n c b s edge rest ih =>
    by_cases hb : b ∈ met
    · obtain ⟨m, a, x, hm, hpath, ha, hedge, hx⟩ := ih hb hs
      exact ⟨m + 1, a, x, by omega, .up edge hpath, ha, hedge, hx⟩
    · exact ⟨0, c, b, by omega, .here c, hc, edge, hb⟩

/-! ## Layers -/

/-- **A climb finds the length of a shortest path** from its layer, among those that are shorter than its bound. -/
theorem climb_eq_some_iff {layer : List ClassId} {k : Nat} :
    r.climb target n layer = some k ↔ k < n ∧ IsLeast {m | ∃ c ∈ layer, r.Path m c target} k := by
  induction n generalizing layer k with
  | zero => simp [climb]
  | succ n ih =>
    unfold climb
    split
    · rename_i hmem
      have hzero : IsLeast {m | ∃ c ∈ layer, r.Path m c target} 0 :=
        ⟨⟨target, hmem, .here target⟩, fun m _ => Nat.zero_le m⟩
      constructor
      · intro h
        cases h
        exact ⟨Nat.succ_pos n, hzero⟩
      · rintro ⟨-, h⟩
        rw [h.unique hzero]
    · rename_i hnot
      -- the first edge leads into the next layer
      have hnext : ∀ m, (∃ c ∈ layer, r.Path m c target) ↔
          ∃ m', m = m' + 1 ∧ ∃ b ∈ r.above layer, r.Path m' b target := by
        intro m
        constructor
        · rintro ⟨c, hc, hpath⟩
          cases hpath with
          | here => exact absurd hc hnot
          | up edge rest => exact ⟨_, rfl, _, mem_above_iff.2 ⟨c, hc, edge⟩, rest⟩
        · rintro ⟨m', rfl, b, hb, hpath⟩
          obtain ⟨c, hc, edge⟩ := mem_above_iff.1 hb
          exact ⟨c, hc, .up edge hpath⟩
      rw [Option.map_eq_some_iff]
      constructor
      · rintro ⟨k', hk', rfl⟩
        obtain ⟨hlt, hmem, hleast⟩ := ih.1 hk'
        refine ⟨by omega, (hnext _).2 ⟨k', rfl, hmem⟩, ?_⟩
        intro m hm
        obtain ⟨m', rfl, hm'⟩ := (hnext m).1 hm
        have := hleast hm'
        omega
      · rintro ⟨hlt, hmem, hleast⟩
        obtain ⟨k', rfl, hk'⟩ := (hnext k).1 hmem
        refine ⟨k', ih.2 ⟨by omega, hk', ?_⟩, rfl⟩
        intro m' hm'
        have := hleast ((hnext (m' + 1)).2 ⟨m', rfl, hm'⟩)
        omega

/-- No path is as long as there are classes, so the bound of a climb from a class is enough. -/
theorem steps_eq_some_iff (hp : r.Proper) (hc : c.index < r.size) {k : Nat} :
    r.steps c s = some k ↔ IsLeast {n | r.Path n c s} k := by
  have hset : {m | ∃ b ∈ [c], r.Path m b s} = {n | r.Path n c s} := by
    ext m
    simp
  unfold steps
  rw [climb_eq_some_iff, hset]
  constructor
  · exact fun h => h.2
  · intro h
    have hle := hp.path_le h.1
    have hheight := ClassId.height_lt hp.core hc
    exact ⟨by omega, h⟩

theorem steps_eq_none_iff (hp : r.Proper) (hc : c.index < r.size) :
    r.steps c s = none ↔ ¬∃ n, r.Path n c s := by
  rw [← reaches_iff_path, ← steps_isSome_iff hp hc, Option.not_isSome_iff_eq_none]

/-! ## A queue -/

/-- The classes of a list that are met now: those that have not been met yet, each at its first occurrence. -/
def fresh : List ClassId → List ClassId → List ClassId
  | [], _ => []
  | s :: rest, met => if s ∈ met then fresh rest met else s :: fresh rest (s :: met)

/-- The direct supertypes of a class that have not been met. -/
def unmet (r : Registry) (c : ClassId) (met : List ClassId) : List ClassId := fresh (r.supertypes c) met

/-- A search for a class with a queue of classes that wait, each with its depth, and the classes that have been met. It
takes the first one out of the queue and, unless that is the one it looks for, puts its unmet supertypes at the end. -/
inductive Searches (r : Registry) (target : ClassId) :
    List (ClassId × Nat) → List ClassId → Option Nat → Prop
  | exhausted {met} : Searches r target [] met none
  | found {n queue met} : Searches r target ((target, n) :: queue) met (some n)
  | onward {c n queue met answer} (hc : c ≠ target)
      (hrest : Searches r target (queue ++ (r.unmet c met).map (·, n + 1)) (met ++ r.unmet c met) answer) :
      Searches r target ((c, n) :: queue) met answer

/-- What holds while a search goes on: whatever waits is as deep as it is far from the source, and comes in order of
depth, within one level; and what has been met and does not wait any more is not the target, and its supertypes have
been met. -/
structure Waiting (r : Registry) (source target : ClassId) (queue : List (ClassId × Nat)) (met : List ClassId) :
    Prop where
  start : source ∈ met
  depth : ∀ p ∈ queue, IsLeast {n | r.Path n source p.1} p.2
  sorted : queue.Pairwise fun p q => p.2 ≤ q.2
  level : ∀ p ∈ queue, ∀ q ∈ queue, q.2 ≤ p.2 + 1
  settled : ∀ c ∈ met, (∃ n, (c, n) ∈ queue) ∨ c ≠ target ∧ ∀ s, r.Edge c s → s ∈ met

theorem mem_fresh_iff {supers met : List ClassId} : s ∈ fresh supers met ↔ s ∈ supers ∧ s ∉ met := by
  induction supers generalizing met with
  | nil => simp [fresh]
  | cons a rest ih =>
    unfold fresh
    split
    · rename_i ha
      rw [ih, List.mem_cons]
      constructor
      · rintro ⟨hs, hmet⟩
        exact ⟨.inr hs, hmet⟩
      · rintro ⟨rfl | hs, hmet⟩
        · exact absurd ha hmet
        · exact ⟨hs, hmet⟩
    · rename_i ha
      rw [List.mem_cons, ih, List.mem_cons, List.mem_cons]
      by_cases heq : s = a
      · simp [heq, ha]
      · simp [heq]

theorem nodup_fresh {supers met : List ClassId} : (fresh supers met).Nodup := by
  induction supers generalizing met with
  | nil => exact List.nodup_nil
  | cons a rest ih =>
    unfold fresh
    split
    · exact ih
    · rw [List.nodup_cons]
      exact ⟨fun ha => (mem_fresh_iff.1 ha).2 List.mem_cons_self, ih⟩

theorem mem_unmet_iff {met : List ClassId} : s ∈ r.unmet c met ↔ r.Edge c s ∧ s ∉ met := mem_fresh_iff

theorem waiting_start (r : Registry) (source target : ClassId) : r.Waiting source target [(source, 0)] [source] where
  start := List.mem_singleton_self source
  depth p hp := by
    rw [List.mem_singleton.1 hp]
    exact ⟨.here source, fun m _ => Nat.zero_le m⟩
  sorted := List.pairwise_singleton _ _
  level p hp q hq := by
    rw [List.mem_singleton.1 hp, List.mem_singleton.1 hq]
    exact Nat.zero_le _
  settled c hc := .inl ⟨0, by rw [List.mem_singleton.1 hc]; exact List.mem_singleton_self _⟩

section Queue

variable {queue : List (ClassId × Nat)} {met : List ClassId} {answer : Option Nat}

/-- **A supertype that is met now is one edge farther away**: any shorter path to it would leave what has been met at a
class that still waits, and nothing that waits is nearer than the first in the queue. -/
theorem Waiting.unmet_depth (h : r.Waiting source target ((c, n) :: queue) met) (hs : s ∈ r.unmet c met) :
    IsLeast {m | r.Path m source s} (n + 1) := by
  obtain ⟨edge, hunmet⟩ := mem_unmet_iff.1 hs
  refine ⟨(h.depth _ List.mem_cons_self).1.tail edge, fun m hpath => ?_⟩
  obtain ⟨k, a, x, hk, hpath', ha, hedge, hx⟩ := Path.leaves hpath h.start hunmet
  rcases h.settled a ha with ⟨j, hj⟩ | ⟨-, hclosed⟩
  · have hnear : j ≤ k := (h.depth _ hj).2 hpath'
    have hfirst : n ≤ j := by
      rcases List.mem_cons.1 hj with heq | hj
      · exact Nat.le_of_eq (Prod.mk.inj heq).2.symm
      · exact List.rel_of_pairwise_cons h.sorted hj
    omega
  · exact absurd (hclosed x hedge) hx

/-- **One class is taken out of the queue.** -/
theorem Waiting.onward (h : r.Waiting source target ((c, n) :: queue) met) (hc : c ≠ target) :
    r.Waiting source target (queue ++ (r.unmet c met).map (·, n + 1)) (met ++ r.unmet c met) where
  start := List.mem_append_left _ h.start
  depth p hp := by
    rcases List.mem_append.1 hp with hp | hp
    · exact h.depth p (List.mem_cons_of_mem _ hp)
    · obtain ⟨s, hs, rfl⟩ := List.mem_map.1 hp
      exact h.unmet_depth hs
  sorted := by
    rw [List.pairwise_append]
    refine ⟨(List.pairwise_cons.1 h.sorted).2, ?_, ?_⟩
    · rw [List.pairwise_map]
      exact List.pairwise_of_forall fun _ _ => Nat.le_refl _
    · intro p hp q hq
      obtain ⟨s, -, rfl⟩ := List.mem_map.1 hq
      exact h.level _ List.mem_cons_self p (List.mem_cons_of_mem _ hp)
  level p hp q hq := by
    have hlow : ∀ p ∈ queue ++ (r.unmet c met).map (·, n + 1), n ≤ p.2 := by
      intro p hp
      rcases List.mem_append.1 hp with hp | hp
      · exact List.rel_of_pairwise_cons h.sorted hp
      · obtain ⟨s, -, rfl⟩ := List.mem_map.1 hp
        exact Nat.le_succ n
    have hhigh : ∀ q ∈ queue ++ (r.unmet c met).map (·, n + 1), q.2 ≤ n + 1 := by
      intro q hq
      rcases List.mem_append.1 hq with hq | hq
      · exact h.level _ List.mem_cons_self q (List.mem_cons_of_mem _ hq)
      · obtain ⟨s, -, rfl⟩ := List.mem_map.1 hq
        exact Nat.le_refl _
    have := hlow p hp
    have := hhigh q hq
    omega
  settled a ha := by
    rcases List.mem_append.1 ha with ha | ha
    · rcases h.settled a ha with ⟨j, hj⟩ | ⟨hother, hclosed⟩
      · rcases List.mem_cons.1 hj with heq | hj
        · -- the class that is taken out: its supertypes have all been met by now
          rw [(Prod.mk.inj heq).1]
          refine .inr ⟨hc, fun s edge => ?_⟩
          by_cases hs : s ∈ met
          · exact List.mem_append_left _ hs
          · exact List.mem_append_right _ (mem_unmet_iff.2 ⟨edge, hs⟩)
        · exact .inl ⟨j, List.mem_append_left _ hj⟩
      · exact .inr ⟨hother, fun s edge => List.mem_append_left _ (hclosed s edge)⟩
    · exact .inl ⟨n + 1, List.mem_append_right _ (List.mem_map.2 ⟨a, ha, rfl⟩)⟩

/-- **What a search answers** is the length of a shortest path, and nothing when there is no path. -/
theorem Searches.shortest (hsearch : r.Searches target queue met answer) (h : r.Waiting source target queue met) :
    (answer = none → ∀ n, ¬r.Path n source target) ∧ ∀ n, answer = some n → IsLeast {n | r.Path n source target} n := by
  induction hsearch with
  | @exhausted met =>
    refine ⟨fun _ n hpath => ?_, fun n hn => by cases hn⟩
    have hclosed : ∀ c ∈ met, c ≠ target ∧ ∀ s, r.Edge c s → s ∈ met := by
      intro c hc
      rcases h.settled c hc with ⟨n, hn⟩ | hclosed
      · cases hn
      · exact hclosed
    by_cases htarget : target ∈ met
    · exact (hclosed target htarget).1 rfl
    · obtain ⟨m, a, x, -, -, ha, hedge, hx⟩ := hpath.leaves h.start htarget
      exact hx ((hclosed a ha).2 x hedge)
  | found =>
    refine ⟨nofun, fun m hm => ?_⟩
    cases hm
    exact h.depth _ List.mem_cons_self
  | onward hc _ ih => exact ih (h.onward hc)

/-- The registered classes that have not been met. -/
def left (r : Registry) (met : List ClassId) : List ClassId :=
  ((List.range r.size).map ClassId.mk).filter (· ∉ met)

theorem mem_left_iff : s ∈ r.left met ↔ s.index < r.size ∧ s ∉ met := by
  unfold left
  rw [List.mem_filter, decide_eq_true_iff, List.mem_map]
  simp only [List.mem_range]
  constructor
  · rintro ⟨⟨i, hi, rfl⟩, hs⟩
    exact ⟨hi, hs⟩
  · rintro ⟨hi, hs⟩
    exact ⟨⟨s.index, hi, rfl⟩, hs⟩

theorem nodup_left : (r.left met).Nodup := by
  refine List.Nodup.filter _ (List.nodup_range.map fun i j h => ?_)
  cases h
  rfl

/-- What is met now was left before, and is not left afterwards. -/
theorem Proper.length_left (hp : r.Proper) (c : ClassId) (met : List ClassId) :
    (r.unmet c met).length + (r.left (met ++ r.unmet c met)).length ≤ (r.left met).length := by
  have hnodup : (r.unmet c met ++ r.left (met ++ r.unmet c met)).Nodup := by
    refine List.nodup_append'.2 ⟨nodup_fresh, nodup_left, fun s hs hleft => ?_⟩
    exact (mem_left_iff.1 hleft).2 (List.mem_append_right _ hs)
  have hsubset : r.unmet c met ++ r.left (met ++ r.unmet c met) ⊆ r.left met := by
    intro s hs
    rw [mem_left_iff]
    rcases List.mem_append.1 hs with hs | hs
    · obtain ⟨edge, hunmet⟩ := mem_unmet_iff.1 hs
      exact ⟨(hp.edge edge).2.1, hunmet⟩
    · obtain ⟨hknown, hunmet⟩ := mem_left_iff.1 hs
      exact ⟨hknown, fun hs => hunmet (List.mem_append_left _ hs)⟩
  have hlength := (List.subperm_of_subset hnodup hsubset).length_le
  rwa [List.length_append] at hlength

/-- **A search comes to an end**: with every class that is taken out, fewer classes wait or are left. -/
theorem exists_searches (hp : r.Proper) (target : ClassId) (queue : List (ClassId × Nat)) (met : List ClassId) :
    ∃ answer, r.Searches target queue met answer := by
  generalize hn : queue.length + (r.left met).length = n
  induction n using Nat.strongRecOn generalizing queue met with
  | ind n ih =>
    cases queue with
    | nil => exact ⟨none, .exhausted⟩
    | cons first queue =>
      obtain ⟨c, depth⟩ := first
      by_cases hc : c = target
      · rw [hc]
        exact ⟨some depth, .found⟩
      · have hleft := hp.length_left c met
        obtain ⟨answer, hanswer⟩ := ih _ (by
          rw [← hn, List.length_append, List.length_map, List.length_cons]
          omega) (queue ++ (r.unmet c met).map (·, depth + 1)) (met ++ r.unmet c met) rfl
        exact ⟨answer, .onward hc hanswer⟩

end Queue

/-- **The search with a queue comes to an end** with the length of a shortest path, and in no other way. -/
theorem searches_iff (hp : r.Proper) (hs : source.index < r.size) {answer : Option Nat} :
    r.Searches target [(source, 0)] [source] answer ↔ answer = r.steps source target := by
  have hsteps : ∀ answer, r.Searches target [(source, 0)] [source] answer → answer = r.steps source target := by
    intro answer h
    obtain ⟨hnone, hsome⟩ := h.shortest (waiting_start r source target)
    cases answer with
    | none =>
      refine ((steps_eq_none_iff hp hs).2 ?_).symm
      rintro ⟨n, hpath⟩
      exact hnone rfl n hpath
    | some n => exact ((steps_eq_some_iff hp hs).2 (hsome n rfl)).symm
  constructor
  · exact hsteps answer
  · rintro rfl
    obtain ⟨answer, hanswer⟩ := exists_searches hp target [(source, 0)] [source]
    rwa [← hsteps answer hanswer]

/-! ## Distances -/

/-- The distance between two registered classes that are not both arrays is a matter of edges alone. -/
theorem distance_of_not_arrays (hs : source.index < r.size) (ht : target.index < r.size) (hne : source ≠ target)
    (harray : ¬(r.isArray source = true ∧ r.isArray target = true)) :
    r.distance source target = r.steps source target := by
  obtain ⟨d, hd⟩ := exists_class hs
  obtain ⟨e, he⟩ := exists_class ht
  have hcomponents : d.component = none ∨ e.component = none := by
    simp only [isArray, hd, he, ClassDef.isArray, Option.map_some, Option.getD_some] at harray
    rcases not_and_or.1 harray with h | h
    · exact .inl (Option.not_isSome_iff_eq_none.1 h)
    · exact .inr (Option.not_isSome_iff_eq_none.1 h)
  unfold distance distanceWithin
  rw [if_neg hne]
  rcases hcomponents with h | h
  · simp only [hd, he, h]
  · simp only [hd, he, h]
    cases d.component with
    | none => rfl
    | some t => cases t <;> rfl

/-- The distance to or from a class that is not registered. -/
theorem distance_unknown (hne : source ≠ target) (h : ¬(source.index < r.size ∧ target.index < r.size)) :
    r.distance source target = none := by
  unfold distance distanceWithin
  rw [if_neg hne]
  rcases not_and_or.1 h with h | h
  · rw [class?, List.getElem?_eq_none (Nat.le_of_not_lt h)]
  · have hnone : r.class? target = none := List.getElem?_eq_none (Nat.le_of_not_lt h)
    rw [hnone]
    cases r.class? source <;> rfl

/-- Distances, other than those between arrays, are lengths of shortest paths. -/
structure Shortest (r : Registry) : Prop where
  /-- every edge is declared, a superclass, or the one to the root that a class without a superclass has -/
  edges : ∀ {c s}, r.Edge c s ↔ r.Declares c s ∨ r.Extends c s ∨
    (c.index < r.size ∧ r.superclass? c = none ∧ c ≠ .object ∧ s = .object)
  some_iff : ∀ {source target : ClassId}, source ≠ target →
    ¬(r.isArray source = true ∧ r.isArray target = true) → ∀ n, r.distance source target = some n ↔
      (source.index < r.size ∧ target.index < r.size) ∧ IsLeast {m | r.Path m source target} n
  none_iff : ∀ {source target : ClassId}, source ≠ target →
    ¬(r.isArray source = true ∧ r.isArray target = true) → (r.distance source target = none ↔
      (¬∃ n, r.Path n source target) ∨ ¬source.index < r.size ∨ ¬target.index < r.size)
  /-- the search with a queue comes to an end, with the distance -/
  searched : ∀ {source target : ClassId}, source.index < r.size → target.index < r.size → source ≠ target →
    ¬(r.isArray source = true ∧ r.isArray target = true) → ∀ answer,
      r.Searches target [(source, 0)] [source] answer ↔ answer = r.distance source target

theorem Proper.shortest (hp : r.Proper) : r.Shortest where
  edges := hp.edge_cases
  some_iff {source target} hne harray n := by
    by_cases hknown : source.index < r.size ∧ target.index < r.size
    · rw [distance_of_not_arrays hknown.1 hknown.2 hne harray, steps_eq_some_iff hp hknown.1]
      exact (and_iff_right hknown).symm
    · rw [distance_unknown hne hknown]
      exact ⟨nofun, fun h => absurd h.1 hknown⟩
  none_iff {source target} hne harray := by
    by_cases hknown : source.index < r.size ∧ target.index < r.size
    · rw [distance_of_not_arrays hknown.1 hknown.2 hne harray, steps_eq_none_iff hp hknown.1]
      exact (or_iff_left (not_or.2 ⟨not_not.2 hknown.1, not_not.2 hknown.2⟩)).symm
    · exact ⟨fun _ => .inr (not_and_or.1 hknown), fun _ => distance_unknown hne hknown⟩
  searched {source target} hs ht hne harray answer := by
    rw [distance_of_not_arrays hs ht hne harray]
    exact searches_iff hp hs

end Registry

/-- **Distances in every store are lengths of shortest paths**, whatever it has been asked to do. -/
theorem Store.distance_shortest (heap : Heap) (qs : List Request) :
    ((start heap).serveAll qs).registry.Shortest :=
  (served heap qs).1.shortest

end MemberAccess
