import Mathlib.Data.List.Nodup
import MemberAccess.Proofs.Introspection.Query

/-!
# Memories in order

A memory is **in order** when it holds one map per class, filed under that class, and every map that
someone may hold has a serial of its own.

* `Introspector.InOrder`: this, as a property of a memory.
* `inOrder_touch`: touches keep it.
-/

namespace MemberAccess

variable {k : Introspector} {r : Registry}

namespace Introspector

structure InOrder (k : Introspector) : Prop where
  keys : (k.maps.map (·.1)).Nodup
  own : ∀ {c m}, (c, some m) ∈ k.maps → m.cls = c
  serials : (k.held.map (·.serial)).Nodup
  next : ∀ m ∈ k.held, m.serial < k.serials

theorem inOrder_new (P : Policy) : InOrder { policy := P } where
  keys := List.nodup_nil
  own h := by cases h
  serials := List.nodup_nil
  next _ h := by cases h

/-- A map that is kept under a class is its own. -/
theorem InOrder.cls_eq (h : k.InOrder) {c : ClassId} {m : ClassMap} (hm : Assoc.get? c k.maps = some (some m)) :
    m.cls = c :=
  h.own (Assoc.mem_of_get? hm)

/-- Two maps with one serial are the same. -/
theorem InOrder.eq_of_serial (h : k.InOrder) {m n : ClassMap} (hm : m ∈ k.held) (hn : n ∈ k.held)
    (hs : m.serial = n.serial) : m = n :=
  List.inj_on_of_nodup_map h.serials hm hn hs

/-- Taking out what is kept at a key leaves the other maps. -/
theorem perm_erase {c : ClassId} {l : List (ClassId × Option ClassMap)} (hl : (l.map (·.1)).Nodup) :
    ((Assoc.erase c l).filterMap (·.2) ++ ((Assoc.get? c l).bind id).toList).Perm (l.filterMap (·.2)) := by
  induction l with
  | nil => exact .refl _
  | cons e rest ih =>
    obtain ⟨c', kept⟩ := e
    rw [List.map_cons, List.nodup_cons] at hl
    by_cases hc : c' = c
    · subst hc
      -- the key is nowhere in the rest
      have hrest : Assoc.erase c' rest = rest := by
        unfold Assoc.erase
        rw [List.filter_eq_self]
        intro e he
        simp only [decide_not, Bool.not_eq_eq_eq_not, Bool.not_true, decide_eq_false_iff_not]
        exact fun heq => hl.1 (List.mem_map.2 ⟨e, he, heq⟩)
      have herase : Assoc.erase c' ((c', kept) :: rest) = rest := by
        unfold Assoc.erase at hrest ⊢
        rw [List.filter_cons_of_neg (by simp), hrest]
      rw [herase]
      cases kept with
      | none => simp [Assoc.get?]
      | some m =>
        simp only [Assoc.get?, if_true, Option.bind_some, id_eq, Option.toList_some]
        exact List.perm_append_singleton m _
    · -- an entry with another key stays, and the rest is as before
      have herase : Assoc.erase c ((c', kept) :: rest) = (c', kept) :: Assoc.erase c rest := by
        unfold Assoc.erase
        rw [List.filter_cons_of_pos (by simpa using hc)]
      rw [herase]
      simp only [Assoc.get?, hc, if_false]
      cases kept with
      | none => exact ih hl.2
      | some m => exact (ih hl.2).cons m

/-- Dropping a map changes the order of the maps that someone may hold, and nothing else about them. -/
theorem perm_held_purge (hk : (k.maps.map (·.1)).Nodup) (r : Registry) (c : ClassId) :
    (k.purge r c).2.held.Perm k.held := by
  unfold held purge
  simp only
  rw [← List.append_assoc]
  exact (perm_erase hk).append_right _

theorem InOrder.purge (h : k.InOrder) (r : Registry) (c : ClassId) : (k.purge r c).2.InOrder where
  keys := h.keys.sublist (List.filter_sublist.map _)
  own hm := h.own (List.mem_of_mem_filter hm)
  serials := ((perm_held_purge h.keys r c).map _).nodup_iff.2 h.serials
  next m hm := h.next m ((perm_held_purge h.keys r c).mem_iff.1 hm)

/-- A map put in the place of one with its serial, under the class of both. -/
theorem serials_put {c : ClassId} {m n : ClassMap} {l : List (ClassId × Option ClassMap)}
    (hm : Assoc.get? c l = some (some m)) (hs : n.serial = m.serial) :
    ((Assoc.put c (some n) l).filterMap (·.2)).map (·.serial) = (l.filterMap (·.2)).map (·.serial) := by
  induction l with
  | nil => cases hm
  | cons e rest ih =>
    obtain ⟨c', kept⟩ := e
    unfold Assoc.get? at hm
    split at hm
    · rename_i hc
      cases hm
      simp [Assoc.put, hc, hs]
    · rename_i hc
      cases kept with
      | none => simpa [Assoc.put, hc] using ih hm
      | some m' => simpa [Assoc.put, hc] using ih hm

theorem InOrder.replace (h : k.InOrder) {c : ClassId} {m n : ClassMap}
    (hm : Assoc.get? c k.maps = some (some m)) (hs : n.serial = m.serial) (hc : n.cls = m.cls) :
    InOrder { k with maps := Assoc.put c (some n) k.maps } where
  keys := by
    simp only
    rw [Assoc.keys_put_of_mem (List.mem_map_of_mem (Assoc.mem_of_get? hm))]
    exact h.keys
  own hmem := by
    rcases Assoc.mem_put hmem with heq | hmem
    · cases heq
      rw [hc, h.cls_eq hm]
    · exact h.own hmem
  serials := by
    have := h.serials
    unfold held at this ⊢
    rw [List.map_append] at this ⊢
    rw [serials_put hm hs]
    exact this
  next n' hn' := by
    rcases mem_held_put hn' with heq | hmem
    · cases heq
      rw [hs]
      exact h.next m (mem_held_of_get? hm)
    · exact h.next n' hmem

/-- A new entry, with the next serial. -/
theorem InOrder.add (h : k.InOrder) {c : ClassId} (hc : Assoc.get? c k.maps = none) {made : Option ClassMap}
    (hm : ∀ m ∈ made, m.cls = c ∧ m.serial = k.serials) :
    InOrder { k with maps := Assoc.put c made k.maps, serials := k.serials + 1 } := by
  -- the maps that are held are those from before and the one that is made
  have hheld : ∀ m ∈ held { k with maps := Assoc.put c made k.maps, serials := k.serials + 1 },
      m ∈ made ∨ m ∈ k.held := fun _ => mem_held_put
  rw [Assoc.put_of_get?_eq_none hc] at hheld ⊢
  refine ⟨?_, ?_, ?_, ?_⟩
  · simp only [List.map_append, List.map_cons, List.map_nil]
    rw [List.nodup_append]
    refine ⟨h.keys, List.nodup_singleton c, ?_⟩
    intro a ha b hb hab
    rw [List.mem_singleton.1 hb] at hab
    exact Assoc.get?_eq_none_iff.1 hc (hab ▸ ha)
  · intro c' m hmem
    rcases List.mem_append.1 hmem with hmem | hmem
    · exact h.own hmem
    · cases List.mem_singleton.1 hmem
      exact (hm m rfl).1
  · cases made with
    | none =>
      have := h.serials
      unfold held at this ⊢
      simpa using this
    | some m =>
      have hperm : (held { k with maps := k.maps ++ [(c, some m)], serials := k.serials + 1 }).Perm
          (m :: k.held) := by
        unfold held
        simp only [List.filterMap_append, List.append_assoc]
        exact List.perm_middle
      -- every serial so far is below the next one
      rw [(hperm.map _).nodup_iff, List.map_cons, List.nodup_cons]
      refine ⟨?_, h.serials⟩
      intro hmem
      obtain ⟨m', hm', hs⟩ := List.mem_map.1 hmem
      have := h.next m' hm'
      rw [hs, (hm m rfl).2] at this
      exact Nat.lt_irrefl _ this
  · intro m hmem
    rcases hheld m hmem with hmem | hmem
    · rw [(hm m hmem).2]
      exact Nat.lt_succ_self _
    · exact Nat.lt_succ_of_lt (h.next m hmem)

theorem InOrder.mapOf (h : k.InOrder) (r : Registry) (c : ClassId) : (k.mapOf r c).2.InOrder := by
  rcases mapOf_cases k r c with ⟨kept, -, -, e⟩ | ⟨m, -, -, e⟩ | ⟨hc, e⟩ <;> rw [e]
  · exact h
  · exact h.purge r c
  · apply h.add hc
    intro m hm
    obtain ⟨m', hm', rfl⟩ := Option.map_eq_some_iff.1 hm
    obtain ⟨d, -, -, -, rfl⟩ := ClassMap.build_eq_some hm'
    exact ⟨rfl, rfl⟩

theorem InOrder.findMethod (h : k.InOrder) (r : Registry) (c : ClassId) (s : Signature) :
    (k.findMethod r c s).2.InOrder := by
  have hk := h.mapOf r c
  rcases findMethod_cases k r c s with ⟨-, e⟩ | ⟨m, k', hmap, e⟩ <;> rw [e]
  · exact hk
  · rw [hmap] at hk
    exact hk.replace (get?_mapOf hmap).1 rfl rfl

theorem InOrder.findConstructor (h : k.InOrder) (r : Registry) (name : String) (args : List Value) :
    (k.findConstructor r name args).2.InOrder := by
  rcases findConstructor_cases k r name args with e | ⟨d, -, -, e⟩ <;> rw [e]
  · exact h
  · exact ⟨h.keys, h.own, h.serials, h.next⟩

theorem InOrder.findInHeld (h : k.InOrder) (r : Registry) {m : ClassMap} (hm : m ∈ k.held) (s : Signature) :
    (k.findInHeld r m s).2.InOrder := by
  -- a renewed map has the serial of the one it takes the place of
  have hserial : ∀ n : ClassMap, (if n.serial = m.serial then m.remember r s else n).serial = n.serial := by
    intro n
    split
    · rename_i hs
      exact hs.symm
    · rfl
  refine ⟨?_, ?_, ?_, ?_⟩
  · have hkeys : (k.findInHeld r m s).2.maps.map (·.1) = k.maps.map (·.1) := by
      unfold Introspector.findInHeld
      simp only [List.map_map]
      rfl
    rw [hkeys]
    exact h.keys
  · intro c n hn
    obtain ⟨⟨c', kept⟩, hmem, heq⟩ := List.mem_map.1 hn
    cases kept with
    | none => cases heq
    | some n' =>
      cases heq
      have hn' : n' ∈ k.held := mem_held.2 (Or.inl ⟨c', hmem⟩)
      have hown := h.own hmem
      simp only
      split
      · rename_i hs
        rw [h.eq_of_serial hn' hm hs] at hown
        exact hown
      · exact hown
  · rw [held_findInHeld, List.map_map]
    have hcomp : ((·.serial) ∘ fun n : ClassMap => if n.serial = m.serial then m.remember r s else n) =
        (·.serial) := funext hserial
    rw [hcomp]
    exact h.serials
  · intro n hn
    rw [held_findInHeld] at hn
    obtain ⟨n', hn', rfl⟩ := List.mem_map.1 hn
    rw [hserial]
    exact h.next n' hn'

/-- **A touch keeps a memory in order.** -/
theorem inOrder_touch (h : k.InOrder) (r : Registry) (t : Touch) : (k.touch r t).InOrder := by
  cases t with
  | map c => exact h.mapOf r c
  | method c s => exact h.findMethod r c s
  | constructor name args => exact h.findConstructor r name args
  | purge c => exact h.purge r c
  | held serial s =>
    simp only [touch]
    split
    · rename_i m hm
      exact h.findInHeld r (mem_held_of_held? hm).1 s
    · exact h

end Introspector

end MemberAccess
