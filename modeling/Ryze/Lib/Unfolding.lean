import Mathlib.Data.Fintype.Card
import Mathlib.Data.Set.Finite.Basic
import Mathlib.Data.List.Nodup
import Mathlib.Data.List.Pairwise
import Mathlib.Logic.Relation
import Ryze.Lib.Transition

set_option autoImplicit false

/-! # Unfolding a graph

A worklist that expands whatever it takes off its agenda, without remembering what it has met
before. It unfolds the graph into the tree of the paths from the entry: it finds each node once
exactly when the reachable part of the graph is such a tree already, and it comes to an end exactly
when that part has no cycle. -/

namespace Unfolding

open Relation Transition

/-- What has been expanded, in this order, and what is still to be expanded. -/
structure Progress (α : Type) where
  expanded : List α
  agenda : List α

section Definitions

variable {α : Type} (edges : α → List α) (entry : α)

def Edge (p q : α) : Prop := q ∈ edges p

/-- `p` can be reached from the entry. -/
def Reach (p : α) : Prop := ReflTransGen (Edge edges) entry p

/-- All that has been found. -/
def Progress.found (s : Progress α) : List α := entry :: s.expanded.flatMap edges

def unfolding : System (Progress α) Unit where
  init := ⟨[], [entry]⟩
  step s _ :=
    match s.agenda with
    | [] => none
    | p :: rest => some ⟨s.expanded ++ [p], edges p ++ rest⟩

/-- No edge leads back to the entry, no node has two edges to the same node, and no two nodes have
    edges to the same node. -/
structure FoundOnce : Prop where
  entry_not : ∀ p, Reach edges entry p → entry ∉ edges p
  nodup : ∀ p, Reach edges entry p → (edges p).Nodup
  unique : ∀ p q r, Reach edges entry p → Reach edges entry q → r ∈ edges p → r ∈ edges q → p = q

/-- A cycle can be reached. -/
def Cyclic : Prop := ∃ p, Reach edges entry p ∧ TransGen (Edge edges) p p

end Definitions

variable {α : Type} {edges : α → List α} {entry : α} {s : Progress α}

theorem unfolding_step {s' : Progress α} {u : Unit}
    (h : (unfolding edges entry).step s u = some s') :
    ∃ p rest, s.agenda = p :: rest ∧ s' = ⟨s.expanded ++ [p], edges p ++ rest⟩ := by
  simp only [unfolding] at h
  split at h
  · cases h
  · next p rest hagenda =>
      cases h
      exact ⟨p, rest, hagenda, rfl⟩

theorem unfolding_next {p : α} {rest : List α} (hs : Reachable (unfolding edges entry) s)
    (hagenda : s.agenda = p :: rest) :
    Reachable (unfolding edges entry) ⟨s.expanded ++ [p], edges p ++ rest⟩ := by
  refine hs.step () ?_
  simp only [unfolding, hagenda]

theorem found_next (p : α) (rest : List α) :
    Progress.found edges entry ⟨s.expanded ++ [p], edges p ++ rest⟩
      = s.found edges entry ++ edges p := by
  simp only [Progress.found, List.flatMap_append, List.flatMap_singleton, List.cons_append]

/-! ## What every state keeps -/

/-- What has been found is what has been expanded and what is still to be expanded. -/
theorem found_perm (hs : Reachable (unfolding edges entry) s) :
    (s.found edges entry).Perm (s.expanded ++ s.agenda) := by
  refine hs.invariant (fun s => (s.found edges entry).Perm (s.expanded ++ s.agenda))
    (List.Perm.refl _) ?_
  intro s a s' hinv hstep
  obtain ⟨p, rest, hagenda, rfl⟩ := unfolding_step hstep
  rw [hagenda] at hinv
  simp only [found_next, List.append_assoc, List.singleton_append]
  have hperm := hinv.append_right (edges p)
  rw [List.append_assoc, List.cons_append] at hperm
  exact hperm.trans ((List.perm_append_comm.cons p).append_left s.expanded)

theorem reach_of_mem (hs : Reachable (unfolding edges entry) s) {p : α}
    (hp : p ∈ s.expanded ++ s.agenda) : Reach edges entry p := by
  refine hs.invariant (fun s => ∀ p ∈ s.expanded ++ s.agenda, Reach edges entry p) ?_ ?_ p hp
  · intro p hp
    rw [List.mem_singleton.1 hp]
    exact ReflTransGen.refl
  · intro s a s' hinv hstep q hq
    obtain ⟨p, rest, hagenda, rfl⟩ := unfolding_step hstep
    rw [hagenda] at hinv
    simp only [List.mem_append, List.mem_cons, List.not_mem_nil, or_false] at hinv hq
    rcases hq with (hq | rfl) | hq | hq
    · exact hinv q (Or.inl hq)
    · exact hinv q (Or.inr (Or.inl rfl))
    · exact ReflTransGen.tail (hinv p (Or.inr (Or.inl rfl))) hq
    · exact hinv q (Or.inr (Or.inr hq))

theorem reach_of_found (hs : Reachable (unfolding edges entry) s) {p : α}
    (hp : p ∈ s.found edges entry) : Reach edges entry p :=
  reach_of_mem hs ((found_perm hs).mem_iff.1 hp)

/-- The nodes an expanded node leads to are expanded after it. -/
theorem expanded_later (hs : Reachable (unfolding edges entry) s) {i : Nat} {p q : α}
    (hp : s.expanded[i]? = some p) (hq : q ∈ edges p) :
    q ∈ s.agenda ∨ ∃ j, i < j ∧ s.expanded[j]? = some q := by
  refine hs.invariant (fun s => ∀ i p q, s.expanded[i]? = some p → q ∈ edges p →
    q ∈ s.agenda ∨ ∃ j, i < j ∧ s.expanded[j]? = some q) ?_ ?_ i p q hp hq
  · intro i p q hp
    cases hp
  · intro s a s' hinv hstep i p q hp hq
    obtain ⟨t, rest, hagenda, rfl⟩ := unfolding_step hstep
    simp only [hagenda, List.mem_cons] at hinv
    rcases Nat.lt_or_ge i s.expanded.length with hi | hi
    · rw [List.getElem?_append_left hi] at hp
      rcases hinv i p q hp hq with (rfl | hrest) | ⟨j, hij, hj⟩
      · exact Or.inr ⟨s.expanded.length, hi, List.getElem?_concat_length⟩
      · exact Or.inl (List.mem_append_right _ hrest)
      · have hlen : j < s.expanded.length := (List.getElem?_eq_some_iff.1 hj).1
        exact Or.inr ⟨j, hij, by rw [List.getElem?_append_left hlen, hj]⟩
    · -- `i` is where the last node was expanded
      rw [List.getElem?_append_right hi] at hp
      have hzero : i - s.expanded.length = 0 := by
        have hlt := (List.getElem?_eq_some_iff.1 hp).1
        rw [List.length_singleton] at hlt
        omega
      rw [hzero] at hp
      cases hp
      exact Or.inl (List.mem_append_left _ hq)

/-! ## At the end -/

section End

variable (hs : Reachable (unfolding edges entry) s) (hend : s.agenda = [])

include hs hend

/-- At the end all that can be reached has been expanded. -/
theorem mem_expanded {p : α} (hp : Reach edges entry p) : p ∈ s.expanded := by
  have hperm := found_perm hs
  rw [hend, List.append_nil] at hperm
  have hclosed : ∀ q ∈ s.expanded, ∀ r ∈ edges q, r ∈ s.expanded := fun q hq r hr =>
    hperm.mem_iff.1 (List.mem_cons_of_mem _ (List.mem_flatMap.2 ⟨q, hq, hr⟩))
  induction hp with
  | refl => exact hperm.mem_iff.1 List.mem_cons_self
  | tail _ hedge ih => exact hclosed _ ih _ hedge

theorem foundOnce_of_nodup (hnodup : (s.found edges entry).Nodup) : FoundOnce edges entry := by
  rw [Progress.found, List.nodup_cons, List.nodup_flatMap] at hnodup
  obtain ⟨hentry, hedges, hdisjoint⟩ := hnodup
  refine ⟨fun p hp hmem => ?_, fun p hp => ?_, fun p q r hp hq hpr hqr => ?_⟩
  · exact hentry (List.mem_flatMap.2 ⟨p, mem_expanded hs hend hp, hmem⟩)
  · exact hedges p (mem_expanded hs hend hp)
  · by_contra hne
    have hsymm : Std.Symm (Function.onFun List.Disjoint edges) := ⟨fun _ _ h => h.symm⟩
    exact hdisjoint.forall (mem_expanded hs hend hp) (mem_expanded hs hend hq) hne hpr hqr

theorem expanded_after {p q : α} (hpq : TransGen (Edge edges) p q) {i : Nat}
    (hp : s.expanded[i]? = some p) : ∃ j, i < j ∧ s.expanded[j]? = some q := by
  have hone : ∀ {a b : α}, b ∈ edges a → ∀ {i : Nat}, s.expanded[i]? = some a →
      ∃ j, i < j ∧ s.expanded[j]? = some b := by
    intro a b hab i hi
    rcases expanded_later hs hi hab with hmem | hj
    · rw [hend] at hmem
      cases hmem
    · exact hj
  induction hpq with
  | single hedge => exact hone hedge hp
  | tail _ hedge ih =>
      obtain ⟨j, hij, hj⟩ := ih
      obtain ⟨k, hjk, hk⟩ := hone hedge hj
      exact ⟨k, by omega, hk⟩

theorem not_cyclic : ¬ Cyclic edges entry := by
  rintro ⟨p, hp, hcycle⟩
  -- a node on a cycle would be expanded arbitrarily late
  have hlate : ∀ n : Nat, ∃ i, n ≤ i ∧ s.expanded[i]? = some p := by
    intro n
    induction n with
    | zero =>
        obtain ⟨i, hi⟩ := List.getElem?_of_mem (mem_expanded hs hend hp)
        exact ⟨i, Nat.zero_le _, hi⟩
    | succ n ih =>
        obtain ⟨i, hi, hget⟩ := ih
        obtain ⟨j, hij, hj⟩ := expanded_after hs hend hcycle hget
        exact ⟨j, by omega, hj⟩
  obtain ⟨i, hi, hget⟩ := hlate s.expanded.length
  have hlt := (List.getElem?_eq_some_iff.1 hget).1
  omega

end End

/-! ## Finding each node once -/

/-- **Trees.** Where each node can only be found once, none is found twice. -/
theorem FoundOnce.nodup_found (h : FoundOnce edges entry)
    (hs : Reachable (unfolding edges entry) s) : (s.found edges entry).Nodup := by
  induction hs with
  | init => exact List.nodup_singleton _
  | step a hs hstep ih =>
      have hperm := found_perm hs
      obtain ⟨p, rest, hagenda, rfl⟩ := unfolding_step hstep
      rw [hagenda] at hperm
      have hp : Reach edges entry p := reach_of_mem hs (by rw [hagenda]; simp)
      have hfresh := hperm.nodup_iff.1 ih
      rw [found_next, List.nodup_append]
      refine ⟨ih, h.nodup p hp, ?_⟩
      rintro r hr _ hpr rfl
      rcases List.mem_cons.1 hr with rfl | hr
      · exact h.entry_not p hp hpr
      · obtain ⟨q, hq, hqr⟩ := List.mem_flatMap.1 hr
        have hqp := h.unique q p r (reach_of_mem hs (List.mem_append_left _ hq)) hp hqr hpr
        rw [hqp] at hq
        exact (List.nodup_append.1 hfresh).2.2 p hq p List.mem_cons_self rfl

section Finite

variable {nodes : Finset α} (hentry : entry ∈ nodes)
  (hnodes : ∀ p ∈ nodes, ∀ q ∈ edges p, q ∈ nodes)

include hentry hnodes

theorem mem_nodes {p : α} (hp : Reach edges entry p) : p ∈ nodes := by
  induction hp with
  | refl => exact hentry
  | tail _ hedge ih => exact hnodes _ ih _ hedge

/-- A check of all nodes, whether they can be reached or not. -/
theorem FoundOnce.of_nodes (hnot : ∀ p ∈ nodes, entry ∉ edges p)
    (hnodup : ∀ p ∈ nodes, (edges p).Nodup)
    (hunique : ∀ p ∈ nodes, ∀ q ∈ nodes, ∀ r ∈ edges p, r ∈ edges q → p = q) :
    FoundOnce edges entry where
  entry_not := fun p hp => hnot p (mem_nodes hentry hnodes hp)
  nodup := fun p hp => hnodup p (mem_nodes hentry hnodes hp)
  unique := fun p q r hp hq hpr hqr =>
    hunique p (mem_nodes hentry hnodes hp) q (mem_nodes hentry hnodes hq) r hpr hqr

/-- Among finitely many nodes, finding none twice comes to an end. -/
theorem ends_of_nodup (hnodup : ∀ s, Reachable (unfolding edges entry) s →
    (s.found edges entry).Nodup) : ∃ s, Reachable (unfolding edges entry) s ∧ s.agenda = [] := by
  classical
  by_contra hnever
  have hlong : ∀ n, ∃ s, Reachable (unfolding edges entry) s ∧ s.expanded.length = n := by
    intro n
    induction n with
    | zero => exact ⟨_, Reachable.init, rfl⟩
    | succ n ih =>
        obtain ⟨s, hs, hlen⟩ := ih
        cases hagenda : s.agenda with
        | nil => exact absurd ⟨s, hs, hagenda⟩ hnever
        | cons p rest =>
            refine ⟨_, unfolding_next hs hagenda, ?_⟩
            rw [List.length_append, hlen]
            rfl
  obtain ⟨s, hs, hlen⟩ := hlong (nodes.card + 1)
  have hcard : (s.found edges entry).toFinset.card ≤ nodes.card :=
    Finset.card_le_card fun p hp => mem_nodes hentry hnodes
      (reach_of_found hs (List.mem_toFinset.1 hp))
  rw [List.toFinset_card_of_nodup (hnodup s hs), (found_perm hs).length_eq, List.length_append,
    hlen] at hcard
  omega

/-- **Found once.** -/
theorem nodup_iff : (∀ s, Reachable (unfolding edges entry) s → (s.found edges entry).Nodup) ↔
    FoundOnce edges entry := by
  constructor
  · intro hnodup
    obtain ⟨s, hs, hend⟩ := ends_of_nodup hentry hnodes hnodup
    exact foundOnce_of_nodup hs hend (hnodup s hs)
  · exact fun h s hs => h.nodup_found hs

/-- Without a cycle the edges among the nodes that can be reached are well-founded. -/
theorem wellFounded_edge (hacyclic : ¬ Cyclic edges entry) :
    WellFounded fun q p : {p : α // Reach edges entry p} => Edge edges p q := by
  have hfinite : Finite {p : α // Reach edges entry p} :=
    (nodes.finite_toSet.subset fun p hp => mem_nodes hentry hnodes hp).to_subtype
  let after : {p : α // Reach edges entry p} → {p : α // Reach edges entry p} → Prop :=
    fun q p => TransGen (Edge edges) p q
  have htrans : IsTrans _ after := ⟨fun _ _ _ hab hbc => hbc.trans hab⟩
  have hirrefl : Std.Irrefl after := ⟨fun p hp => hacyclic ⟨p, p.2, hp⟩⟩
  exact Subrelation.wf (fun hedge => TransGen.single hedge)
    (Finite.wellFounded_of_trans_of_irrefl after)

/-- Without a cycle, whatever is on top of the agenda is worked off. -/
theorem worked_off (hacyclic : ¬ Cyclic edges entry) {p : α} (hp : Reach edges entry p)
    {rest : List α} (hs : Reachable (unfolding edges entry) s) (hagenda : s.agenda = p :: rest) :
    ∃ s', Reachable (unfolding edges entry) s' ∧ s'.agenda = rest := by
  have hall : ∀ p : {p : α // Reach edges entry p}, ∀ s rest,
      Reachable (unfolding edges entry) s → s.agenda = p.1 :: rest →
      ∃ s', Reachable (unfolding edges entry) s' ∧ s'.agenda = rest := by
    intro p
    induction p using (wellFounded_edge hentry hnodes hacyclic).induction with
    | _ p ih =>
      intro s rest hs hagenda
      have hlist : ∀ l, (∀ q ∈ l, q ∈ edges p.1) → ∀ s,
          Reachable (unfolding edges entry) s → s.agenda = l ++ rest →
          ∃ s', Reachable (unfolding edges entry) s' ∧ s'.agenda = rest := by
        intro l
        induction l with
        | nil => exact fun _ s hs hagenda => ⟨s, hs, hagenda⟩
        | cons q l ihl =>
            intro hl s hs hagenda
            have hq : q ∈ edges p.1 := hl q List.mem_cons_self
            obtain ⟨s', hs', hagenda'⟩ := ih ⟨q, p.2.tail hq⟩ hq s (l ++ rest) hs hagenda
            exact ihl (fun r hr => hl r (List.mem_cons_of_mem _ hr)) s' hs' hagenda'
      exact hlist _ (fun _ hq => hq) _ (unfolding_next hs hagenda) rfl
  exact hall ⟨p, hp⟩ s rest hs hagenda

/-- **Termination.** -/
theorem ends_iff : (∃ s, Reachable (unfolding edges entry) s ∧ s.agenda = []) ↔
    ¬ Cyclic edges entry := by
  constructor
  · rintro ⟨s, hs, hend⟩
    exact not_cyclic hs hend
  · intro hacyclic
    exact worked_off hentry hnodes hacyclic ReflTransGen.refl Reachable.init rfl

end Finite

end Unfolding
