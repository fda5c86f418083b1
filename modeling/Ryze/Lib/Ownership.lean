import Mathlib.Algebra.Order.Group.Multiset
import Mathlib.Data.Multiset.UnionInter

set_option autoImplicit false

/-! # Blocks and their owners

A heap gives out blocks under addresses it does not use again, so an address names one allocation,
and a block that is freed twice is twice in the list of the frees. What somebody has to free is a
multiset of addresses: owners do not get in each other's way if the sum of what they own has no
address twice and all of it is live. A `Transfer` says what an operation does to such sums: it takes
some blocks over, leaves others, and does not touch what anybody else owns. -/

namespace Ownership

structure Heap (ω : Type) where
  /-- the live blocks -/
  objs : Nat → Option ω
  /-- the first address that was never used -/
  next : Nat
  /-- the arguments `free` was called with -/
  freed : List Nat

/-- What a pointer owns. -/
def own : Option Nat → Multiset Nat
  | none => 0
  | some a => {a}

@[simp] theorem own_none : own none = 0 := rfl

@[simp] theorem own_some (a : Nat) : own (some a) = {a} := rfl

section Operations

variable {ω : Type}

def Heap.empty : Heap ω := ⟨fun _ => none, 0, []⟩

/-- The heap after a block was allocated; its address is the old `next`. -/
def Heap.alloc (h : Heap ω) (o : ω) : Heap ω :=
  { h with objs := Function.update h.objs h.next (some o), next := h.next + 1 }

/-- `free(p)`; the null pointer is left alone. -/
def Heap.free (h : Heap ω) : Option Nat → Heap ω
  | none => h
  | some a => { h with objs := Function.update h.objs a none, freed := h.freed ++ [a] }

/-- The block at `a`, if it is live, is written to. -/
def Heap.modify (h : Heap ω) (a : Nat) (f : ω → ω) : Heap ω :=
  { h with objs := Function.update h.objs a ((h.objs a).map f) }

@[simp] theorem Heap.free_none (h : Heap ω) : h.free none = h := rfl

theorem Heap.alloc_self (h : Heap ω) (o : ω) : (h.alloc o).objs h.next = some o :=
  Function.update_self ..

theorem Heap.alloc_of_ne (h : Heap ω) (o : ω) {a : Nat} (ha : a ≠ h.next) :
    (h.alloc o).objs a = h.objs a := Function.update_of_ne ha ..

theorem Heap.modify_self (h : Heap ω) (a : Nat) (f : ω → ω) :
    (h.modify a f).objs a = (h.objs a).map f := Function.update_self ..

theorem Heap.modify_of_ne (h : Heap ω) (f : ω → ω) {a b : Nat} (hab : a ≠ b) :
    (h.modify b f).objs a = h.objs a := Function.update_of_ne hab ..

end Operations

/-! ## Sound heaps and owned blocks -/

section Owns

variable {ω : Type} {h : Heap ω}

/-- What was freed is dead, and nothing was freed twice. -/
structure Heap.Sound (h : Heap ω) : Prop where
  live_lt : ∀ a, (h.objs a).isSome → a < h.next
  freed_dead : ∀ a ∈ h.freed, a < h.next ∧ h.objs a = none
  freed_nodup : h.freed.Nodup

theorem Heap.Sound.empty : (Heap.empty : Heap ω).Sound :=
  ⟨fun _ hlive => absurd hlive (by simp [Heap.empty]), fun _ hmem => absurd hmem (by simp [Heap.empty]),
    List.nodup_nil⟩

/-- The blocks of `s` are live and each of them is owned once. -/
structure Heap.Owns (h : Heap ω) (s : Multiset Nat) : Prop where
  nodup : s.Nodup
  live : ∀ a ∈ s, (h.objs a).isSome

theorem Heap.Owns.zero : h.Owns 0 := ⟨Multiset.nodup_zero, fun _ hmem => absurd hmem (by simp)⟩

/-- Blocks that nobody owns any more stay where they are. -/
theorem Heap.Owns.right {s t : Multiset Nat} (ho : h.Owns (s + t)) : h.Owns t :=
  ⟨Multiset.nodup_of_le (Multiset.le_add_left t s) ho.nodup,
    fun a ha => ho.live a (Multiset.mem_add.2 (Or.inr ha))⟩

/-- A block has one owner. -/
theorem Heap.Owns.not_mem {s t : Multiset Nat} (ho : h.Owns (s + t)) {a : Nat} (ha : a ∈ s) :
    a ∉ t := fun hmem =>
  Multiset.disjoint_left.1 (Multiset.nodup_add.1 ho.nodup).2.2 ha hmem

/-- Owned blocks stay owned where none of them is touched. -/
theorem Heap.Owns.of_eq {h' : Heap ω} {s : Multiset Nat} (ho : h.Owns s)
    (heq : ∀ a ∈ s, h'.objs a = h.objs a) : h'.Owns s :=
  ⟨ho.nodup, fun a ha => by rw [heq a ha]; exact ho.live a ha⟩

end Owns

/-! ## Transfers -/

section Transfer

variable {ω : Type}

/-- From `h` to `h'` the blocks `as` are taken over and the blocks `bs` are left, whatever else is
    owned by others. -/
def Transfer (h : Heap ω) (as : Multiset Nat) (h' : Heap ω) (bs : Multiset Nat) : Prop :=
  ∀ fs, h.Sound → h.Owns (as + fs) →
    h'.Sound ∧ h'.Owns (bs + fs) ∧ ∀ a ∈ fs, h'.objs a = h.objs a

variable {h h' h'' : Heap ω} {as bs cs : Multiset Nat}

theorem Transfer.refl (h : Heap ω) (as : Multiset Nat) : Transfer h as h as :=
  fun _ hs ho => ⟨hs, ho, fun _ _ => rfl⟩

theorem Transfer.trans (h1 : Transfer h as h' bs) (h2 : Transfer h' bs h'' cs) :
    Transfer h as h'' cs := by
  intro fs hs ho
  obtain ⟨hs', ho', hfs'⟩ := h1 fs hs ho
  obtain ⟨hs'', ho'', hfs''⟩ := h2 fs hs' ho'
  exact ⟨hs'', ho'', fun a ha => (hfs'' a ha).trans (hfs' a ha)⟩

/-- **Frame rule.** -/
theorem Transfer.frame (ht : Transfer h as h' bs) (gs : Multiset Nat) :
    Transfer h (as + gs) h' (bs + gs) := by
  intro fs hs ho
  rw [add_assoc] at ho
  obtain ⟨hs', ho', hfs'⟩ := ht (gs + fs) hs ho
  rw [add_assoc]
  exact ⟨hs', ho', fun a ha => hfs' a (Multiset.mem_add.2 (Or.inr ha))⟩

theorem Transfer.congr {as' bs' : Multiset Nat} (ht : Transfer h as h' bs) (has : as = as')
    (hbs : bs = bs') : Transfer h as' h' bs' := has ▸ hbs ▸ ht

/-- One operation after another, each with what it does not touch. -/
theorem Transfer.seq {as₁ bs₁ as₂ bs₂ : Multiset Nat} (h1 : Transfer h as₁ h' bs₁)
    (gs₁ : Multiset Nat) (h2 : Transfer h' as₂ h'' bs₂) (gs₂ : Multiset Nat) (has : as₁ + gs₁ = as)
    (hmid : bs₁ + gs₁ = as₂ + gs₂) (hbs : bs₂ + gs₂ = bs) : Transfer h as h'' bs :=
  (((h1.frame gs₁).congr has hmid).trans (h2.frame gs₂)).congr rfl hbs

/-- A block nobody frees any more. -/
theorem Transfer.drop (h : Heap ω) (as bs : Multiset Nat) : Transfer h (as + bs) h bs := by
  intro fs hs ho
  rw [add_assoc] at ho
  exact ⟨hs, ho.right, fun _ _ => rfl⟩

theorem Transfer.alloc (h : Heap ω) (o : ω) : Transfer h 0 (h.alloc o) {h.next} := by
  intro fs hs ho
  rw [zero_add] at ho
  have hfresh : ∀ a ∈ fs, a ≠ h.next := fun a ha heq =>
    Nat.lt_irrefl _ (heq ▸ hs.live_lt a (ho.live a ha))
  have hsame : ∀ a, a ≠ h.next → (h.alloc o).objs a = h.objs a := fun a ha => h.alloc_of_ne o ha
  refine ⟨⟨fun a ha => ?_, fun a ha => ?_, hs.freed_nodup⟩, ⟨?_, fun a ha => ?_⟩,
    fun a ha => hsame a (hfresh a ha)⟩
  · by_cases heq : a = h.next
    · exact heq ▸ Nat.lt_succ_self _
    · rw [hsame a heq] at ha
      exact Nat.lt_succ_of_lt (hs.live_lt a ha)
  · obtain ⟨hlt, hdead⟩ := hs.freed_dead a ha
    exact ⟨Nat.lt_succ_of_lt hlt, by rw [hsame a (Nat.ne_of_lt hlt)]; exact hdead⟩
  · rw [Multiset.singleton_add]
    exact Multiset.nodup_cons.2 ⟨fun hmem => hfresh _ hmem rfl, ho.nodup⟩
  · rcases Multiset.mem_add.1 ha with hself | hmem
    · rw [Multiset.mem_singleton.1 hself, h.alloc_self o]
      rfl
    · rw [hsame a (hfresh a hmem)]
      exact ho.live a hmem

theorem Transfer.free (h : Heap ω) (p : Option Nat) : Transfer h (own p) (h.free p) 0 := by
  intro fs hs ho
  cases p with
  | none =>
      rw [own_none] at ho
      exact ⟨hs, ho, fun _ _ => rfl⟩
  | some b =>
      rw [own_some] at ho
      have hb : (h.objs b).isSome := ho.live b (by simp)
      have hsame : ∀ a, a ≠ b → (h.free (some b)).objs a = h.objs a := fun a ha =>
        Function.update_of_ne ha ..
      have hdead : (h.free (some b)).objs b = none := Function.update_self ..
      have hne : ∀ a ∈ fs, a ≠ b := fun a ha heq => ho.not_mem (by simp) (heq ▸ ha)
      have hnew : b ∉ h.freed := fun hmem => by
        rw [(hs.freed_dead b hmem).2] at hb
        cases hb
      refine ⟨⟨fun a ha => ?_, fun a ha => ?_, ?_⟩, ?_, fun a ha => hsame a (hne a ha)⟩
      · by_cases heq : a = b
        · rw [heq, hdead] at ha
          cases ha
        · rw [hsame a heq] at ha
          exact hs.live_lt a ha
      · rcases List.mem_append.1 ha with hmem | hlast
        · by_cases heq : a = b
          · exact absurd (heq ▸ hmem) hnew
          · rw [hsame a heq]
            exact hs.freed_dead a hmem
        · rw [List.mem_singleton.1 hlast]
          exact ⟨hs.live_lt b hb, hdead⟩
      · exact List.nodup_append.2 ⟨hs.freed_nodup, List.nodup_singleton b, fun a ha c hc heq =>
          hnew (List.mem_singleton.1 hc ▸ heq ▸ ha)⟩
      · rw [zero_add]
        exact ho.right.of_eq fun a ha => hsame a (hne a ha)

theorem Transfer.modify (h : Heap ω) (b : Nat) (f : ω → ω) :
    Transfer h {b} (h.modify b f) {b} := by
  intro fs hs ho
  have hsome : ∀ a, ((h.modify b f).objs a).isSome = (h.objs a).isSome := by
    intro a
    by_cases heq : a = b
    · rw [heq, h.modify_self, Option.isSome_map]
    · rw [h.modify_of_ne f heq]
  refine ⟨⟨fun a ha => hs.live_lt a (hsome a ▸ ha), fun a ha => ?_, hs.freed_nodup⟩,
    ⟨ho.nodup, fun a ha => (hsome a).symm ▸ ho.live a ha⟩, fun a ha => ?_⟩
  · obtain ⟨hlt, hdead⟩ := hs.freed_dead a ha
    have hnone := hsome a
    rw [hdead, Option.isSome_none, Option.isSome_eq_false_iff, Option.isNone_iff_eq_none] at hnone
    exact ⟨hlt, hnone⟩
  · exact h.modify_of_ne f fun heq => ho.not_mem (by simp) (heq ▸ ha)

end Transfer

end Ownership
