import Ryze.Lib.Ownership

set_option autoImplicit false

/-! # A heap in shares

Every live block is in the share of one owner, and every block in a share is live: nothing dangles
and nothing leaks. The owners have names, and what each of them has is given by the state; the rules
say which changes of the shares go with an allocation, with a `free` and with a block that changes
hands. -/

namespace Ownership

variable {ω O : Type} {h h' : Heap ω} {owned owned' : O → List Nat} {o o' : O} {a : Nat}
  {l : List Nat}

/-- The blocks of a list are freed one after the other. -/
def Heap.freeAll (h : Heap ω) (l : List Nat) : Heap ω := l.foldl (fun h a => h.free (some a)) h

theorem Heap.freeAll_of_not_mem (ha : a ∉ l) : (h.freeAll l).objs a = h.objs a := by
  induction l generalizing h with
  | nil => rfl
  | cons b l ih =>
      obtain ⟨hne, hrest⟩ := not_or.1 (List.mem_cons.not.1 ha)
      exact (ih hrest).trans (Function.update_of_ne hne ..)

structure Shares (h : Heap ω) (owned : O → List Nat) : Prop where
  sound : h.Sound
  nodup : ∀ o, (owned o).Nodup
  owner : ∀ o o' a, a ∈ owned o → a ∈ owned o' → o = o'
  live_iff : ∀ a, (h.objs a).isSome ↔ ∃ o, a ∈ owned o

theorem Shares.empty (howned : ∀ o, owned o = []) : Shares (Heap.empty : Heap ω) owned where
  sound := .empty
  nodup o := by
    rw [howned o]
    exact List.nodup_nil
  owner o _ a ha := by
    rw [howned o] at ha
    cases ha
  live_iff a := by
    refine iff_of_false (by simp [Heap.empty]) ?_
    rintro ⟨o, ha⟩
    rw [howned o] at ha
    cases ha

namespace Shares

theorem live (hs : Shares h owned) (ha : a ∈ owned o) : ∃ x, h.objs a = some x :=
  Option.isSome_iff_exists.1 ((hs.live_iff a).2 ⟨o, ha⟩)

theorem not_mem (hs : Shares h owned) (ha : a ∈ owned o) (ho : o' ≠ o) : a ∉ owned o' :=
  fun hmem => ho (hs.owner o' o a hmem ha)

theorem owns (hs : Shares h owned) (ha : a ∈ owned o) : h.Owns ({a} + 0) := by
  refine ⟨Multiset.nodup_singleton a, fun b hb => ?_⟩
  rw [Multiset.mem_singleton.1 hb]
  exact (hs.live_iff a).2 ⟨o, ha⟩

theorem congr (hs : Shares h owned) (howned : ∀ o, owned' o = owned o) : Shares h owned' :=
  (funext howned : owned' = owned) ▸ hs

/-- Writing to a block does not change whose it is. -/
theorem modify (hs : Shares h owned) (ha : a ∈ owned o) (f : ω → ω) :
    Shares (h.modify a f) owned where
  sound := (Transfer.modify h a f 0 hs.sound (hs.owns ha)).1
  nodup := hs.nodup
  owner := hs.owner
  live_iff b := by
    rw [← hs.live_iff b]
    by_cases hb : b = a
    · rw [hb, h.modify_self, Option.isSome_map]
    · rw [h.modify_of_ne f hb]

/-- The new block is `o`'s. -/
theorem alloc (hs : Shares h owned) (x : ω) (ho : owned' o = owned o ++ [h.next])
    (hothers : ∀ o', o' ≠ o → owned' o' = owned o') : Shares (h.alloc x) owned' := by
  have hfresh : ∀ o, h.next ∉ owned o := fun o hmem =>
    Nat.lt_irrefl _ (hs.sound.live_lt _ ((hs.live_iff _).2 ⟨o, hmem⟩))
  have hmem : ∀ o' b, b ∈ owned' o' ↔ b ∈ owned o' ∨ (b = h.next ∧ o' = o) := by
    intro o' b
    by_cases heq : o' = o
    · rw [heq, ho, List.mem_append, List.mem_singleton]
      simp
    · rw [hothers o' heq]
      simp [heq]
  refine ⟨(Transfer.alloc h x 0 hs.sound .zero).1, fun o' => ?_, fun o₁ o₂ b h₁ h₂ => ?_, fun b => ?_⟩
  · by_cases heq : o' = o
    · rw [heq, ho, List.nodup_append]
      exact ⟨hs.nodup o, List.nodup_singleton _, fun b hb c hc hbc =>
        hfresh o (List.mem_singleton.1 hc ▸ hbc ▸ hb)⟩
    · rw [hothers o' heq]
      exact hs.nodup o'
  · rcases (hmem o₁ b).1 h₁ with h₁ | ⟨rfl, rfl⟩
    · rcases (hmem o₂ b).1 h₂ with h₂ | ⟨rfl, -⟩
      · exact hs.owner o₁ o₂ b h₁ h₂
      · exact absurd h₁ (hfresh o₁)
    · rcases (hmem o₂ _).1 h₂ with h₂ | ⟨-, rfl⟩
      · exact absurd h₂ (hfresh o₂)
      · rfl
  · by_cases hb : b = h.next
    · rw [hb, h.alloc_self x]
      exact iff_of_true rfl ⟨o, (hmem o _).2 (Or.inr ⟨rfl, rfl⟩)⟩
    · rw [h.alloc_of_ne x hb, hs.live_iff b]
      exact exists_congr fun o' => by simp [hmem o' b, hb]

/-- The first block of `o` is freed. -/
theorem free (hs : Shares h owned) (ho : owned o = a :: l) (ho' : owned' o = l)
    (hothers : ∀ o', o' ≠ o → owned' o' = owned o') : Shares (h.free (some a)) owned' := by
  have hnodup := hs.nodup o
  rw [ho] at hnodup
  have hself : a ∈ owned o := ho ▸ List.mem_cons_self
  have hmem : ∀ o' b, b ∈ owned' o' ↔ b ∈ owned o' ∧ b ≠ a := by
    intro o' b
    by_cases heq : o' = o
    · rw [heq, ho, ho', List.mem_cons]
      constructor
      · exact fun hb => ⟨Or.inr hb, fun hba => (List.nodup_cons.1 hnodup).1 (hba ▸ hb)⟩
      · exact fun hb => hb.1.resolve_left hb.2
    · rw [hothers o' heq]
      exact ⟨fun hb => ⟨hb, fun hba => hs.not_mem hself heq (hba ▸ hb)⟩, And.left⟩
  refine ⟨(Transfer.free h (some a) 0 hs.sound (hs.owns hself)).1, fun o' => ?_,
    fun o₁ o₂ b h₁ h₂ => hs.owner o₁ o₂ b ((hmem o₁ b).1 h₁).1 ((hmem o₂ b).1 h₂).1, fun b => ?_⟩
  · by_cases heq : o' = o
    · rw [heq, ho']
      exact (List.nodup_cons.1 hnodup).2
    · rw [hothers o' heq]
      exact hs.nodup o'
  · by_cases hb : b = a
    · rw [hb, show (h.free (some a)).objs a = none from Function.update_self ..]
      refine iff_of_false (by simp) ?_
      rintro ⟨o', hmem'⟩
      exact ((hmem o' a).1 hmem').2 rfl
    · rw [show (h.free (some a)).objs b = h.objs b from Function.update_of_ne hb .., hs.live_iff b]
      exact exists_congr fun o' => by simp [hmem o' b, hb]

theorem freeAll (hs : Shares h owned) (ho : owned o = l) (ho' : owned' o = [])
    (hothers : ∀ o', o' ≠ o → owned' o' = owned o') : Shares (h.freeAll l) owned' := by
  classical
  induction l generalizing h owned with
  | nil =>
      refine hs.congr fun o' => ?_
      by_cases heq : o' = o
      · rw [heq, ho, ho']
      · exact hothers o' heq
  | cons a l ih =>
      have hfirst : Shares (h.free (some a)) (Function.update owned o l) :=
        hs.free ho (Function.update_self ..) fun o' hne => Function.update_of_ne hne ..
      refine ih hfirst (Function.update_self ..) fun o' hne => ?_
      rw [Function.update_of_ne hne]
      exact hothers o' hne

/-- The first block of `o` goes to the end of what `o'` has. -/
theorem move (hs : Shares h owned) (hne : o' ≠ o) (ho : owned o = a :: l) (ho₁ : owned' o = l)
    (ho₂ : owned' o' = owned o' ++ [a])
    (hothers : ∀ q, q ≠ o → q ≠ o' → owned' q = owned q) : Shares h owned' := by
  have hnodup := hs.nodup o
  rw [ho] at hnodup
  have hself : a ∈ owned o := ho ▸ List.mem_cons_self
  have hmem : ∀ q b, b ∈ owned' q ↔ b ∈ owned q ∧ b ≠ a ∨ b = a ∧ q = o' := by
    intro q b
    by_cases heq : q = o
    · rw [heq, ho, ho₁, List.mem_cons]
      constructor
      · exact fun hb => Or.inl ⟨Or.inr hb, fun hba => (List.nodup_cons.1 hnodup).1 (hba ▸ hb)⟩
      · rintro (hb | ⟨-, hq⟩)
        · exact hb.1.resolve_left hb.2
        · exact absurd hq.symm hne
    · have hq : a ∉ owned q := hs.not_mem hself heq
      by_cases heq' : q = o'
      · rw [heq', ho₂, List.mem_append, List.mem_singleton]
        constructor
        · rintro (hb | hb)
          · exact Or.inl ⟨hb, fun hba => hq (heq' ▸ hba ▸ hb)⟩
          · exact Or.inr ⟨hb, rfl⟩
        · exact Or.imp And.left And.left
      · rw [hothers q heq heq']
        constructor
        · exact fun hb => Or.inl ⟨hb, fun hba => hq (hba ▸ hb)⟩
        · rintro (hb | ⟨-, hq'⟩)
          · exact hb.1
          · exact absurd hq' heq'
  refine ⟨hs.sound, fun q => ?_, fun q₁ q₂ b h₁ h₂ => ?_, fun b => ?_⟩
  · by_cases heq : q = o
    · rw [heq, ho₁]
      exact (List.nodup_cons.1 hnodup).2
    · by_cases heq' : q = o'
      · rw [heq', ho₂, List.nodup_append]
        exact ⟨hs.nodup o', List.nodup_singleton _, fun b hb c hc hbc =>
          hs.not_mem hself hne (List.mem_singleton.1 hc ▸ hbc ▸ hb)⟩
      · rw [hothers q heq heq']
        exact hs.nodup q
  · rcases (hmem q₁ b).1 h₁ with ⟨h₁, hb⟩ | ⟨hb, rfl⟩
    · rcases (hmem q₂ b).1 h₂ with ⟨h₂, -⟩ | ⟨hb', -⟩
      · exact hs.owner q₁ q₂ b h₁ h₂
      · exact absurd hb' hb
    · rcases (hmem q₂ b).1 h₂ with ⟨-, hb'⟩ | ⟨-, rfl⟩
      · exact absurd hb hb'
      · rfl
  · rw [hs.live_iff b]
    by_cases hb : b = a
    · rw [hb]
      exact iff_of_true ⟨o, hself⟩ ⟨o', (hmem o' a).2 (Or.inr ⟨rfl, rfl⟩)⟩
    · exact exists_congr fun q => by simp [hmem q b, hb]

end Shares

end Ownership
