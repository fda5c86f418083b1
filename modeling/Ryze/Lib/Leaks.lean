import Ryze.Lib.Ownership

set_option autoImplicit false

/-! # Leaks

A `Transfer` bounds from below what is live: what an operation leaves to its owners is there. That
nothing else stays behind is bounded from above: a block that is live afterwards is one of those the
operation leaves, or it was live before and is none of those it took over. -/

namespace Ownership

variable {ω : Type}

/-- From `h` to `h'` the blocks `as` are taken over, the blocks `bs` are left, and no other block
    stays behind. -/
def Accounts (h : Heap ω) (as : Multiset Nat) (h' : Heap ω) (bs : Multiset Nat) : Prop :=
  ∀ a, (h'.objs a).isSome → a ∈ bs ∨ ((h.objs a).isSome ∧ a ∉ as)

variable {h h' h'' : Heap ω} {as bs cs : Multiset Nat}

theorem Accounts.refl (h : Heap ω) (as : Multiset Nat) : Accounts h as h as := by
  intro a hlive
  by_cases ha : a ∈ as
  · exact Or.inl ha
  · exact Or.inr ⟨hlive, ha⟩

theorem Accounts.trans (h1 : Accounts h as h' bs) (h2 : Accounts h' bs h'' cs) :
    Accounts h as h'' cs := by
  intro a hlive
  rcases h2 a hlive with hc | ⟨hlive', hb⟩
  · exact Or.inl hc
  · exact (h1 a hlive').imp_left fun hmem => absurd hmem hb

/-- **Frame rule.** -/
theorem Accounts.frame (h1 : Accounts h as h' bs) (gs : Multiset Nat) :
    Accounts h (as + gs) h' (bs + gs) := by
  intro a hlive
  by_cases hg : a ∈ gs
  · exact Or.inl (Multiset.mem_add.2 (Or.inr hg))
  · refine (h1 a hlive).imp (fun hb => Multiset.mem_add.2 (Or.inl hb)) fun hold => ⟨hold.1, ?_⟩
    rw [Multiset.mem_add]
    exact not_or.2 ⟨hold.2, hg⟩

theorem Accounts.congr {as' bs' : Multiset Nat} (h1 : Accounts h as h' bs) (has : as = as')
    (hbs : bs = bs') : Accounts h as' h' bs' := has ▸ hbs ▸ h1

/-- One operation after another, each with what it does not touch. -/
theorem Accounts.seq {as₁ bs₁ as₂ bs₂ : Multiset Nat} (h1 : Accounts h as₁ h' bs₁)
    (gs₁ : Multiset Nat) (h2 : Accounts h' as₂ h'' bs₂) (gs₂ : Multiset Nat) (has : as₁ + gs₁ = as)
    (hmid : bs₁ + gs₁ = as₂ + gs₂) (hbs : bs₂ + gs₂ = bs) : Accounts h as h'' bs :=
  (((h1.frame gs₁).congr has hmid).trans (h2.frame gs₂)).congr rfl hbs

theorem Accounts.alloc (h : Heap ω) (o : ω) : Accounts h 0 (h.alloc o) {h.next} := by
  intro a hlive
  by_cases ha : a = h.next
  · exact Or.inl (Multiset.mem_singleton.2 ha)
  · rw [h.alloc_of_ne o ha] at hlive
    exact Or.inr ⟨hlive, Multiset.notMem_zero a⟩

theorem Accounts.free (h : Heap ω) (p : Option Nat) : Accounts h (own p) (h.free p) 0 := by
  cases p with
  | none => exact Accounts.refl h 0
  | some b =>
      intro a hlive
      by_cases ha : a = b
      · rw [ha, show (h.free (some b)).objs b = none from Function.update_self ..] at hlive
        cases hlive
      · rw [show (h.free (some b)).objs a = h.objs a from Function.update_of_ne ha ..] at hlive
        exact Or.inr ⟨hlive, fun hmem => ha (Multiset.mem_singleton.1 hmem)⟩

/-- Writing to a block neither makes nor takes one. -/
theorem isSome_modify (h : Heap ω) (b a : Nat) (f : ω → ω) :
    ((h.modify b f).objs a).isSome = (h.objs a).isSome := by
  by_cases ha : a = b
  · rw [ha, h.modify_self, Option.isSome_map]
  · rw [h.modify_of_ne f ha]

theorem Accounts.modify (h : Heap ω) (b : Nat) (f : ω → ω) (as : Multiset Nat) :
    Accounts h as (h.modify b f) as := by
  intro a hlive
  rw [isSome_modify] at hlive
  exact Accounts.refl h as a hlive

/-- Where the blocks that are live belong to somebody, they still do. -/
theorem Accounts.live {gs : Multiset Nat} (h1 : Accounts h as h' bs)
    (hlive : ∀ a, (h.objs a).isSome → a ∈ as + gs) : ∀ a, (h'.objs a).isSome → a ∈ bs + gs := by
  intro a ha
  rcases h1 a ha with hb | ⟨hold, hnot⟩
  · exact Multiset.mem_add.2 (Or.inl hb)
  · rcases Multiset.mem_add.1 (hlive a hold) with hmem | hg
    · exact absurd hmem hnot
    · exact Multiset.mem_add.2 (Or.inr hg)

/-! ## Both bounds -/

theorem Heap.Owns.of_live {a : Nat} (hlive : (h.objs a).isSome) : h.Owns {a} := by
  refine ⟨Multiset.nodup_singleton a, fun b hb => ?_⟩
  rw [Multiset.mem_singleton.1 hb]
  exact hlive

/-- An operation that takes the blocks `as` over, leaves the blocks `bs`, and nothing else. -/
structure Moves (h : Heap ω) (as : Multiset Nat) (h' : Heap ω) (bs : Multiset Nat) : Prop where
  transfer : Transfer h as h' bs
  accounts : Accounts h as h' bs

theorem Moves.alloc (h : Heap ω) (o : ω) : Moves h 0 (h.alloc o) {h.next} :=
  ⟨Transfer.alloc h o, Accounts.alloc h o⟩

theorem Moves.free (h : Heap ω) (p : Option Nat) : Moves h (own p) (h.free p) 0 :=
  ⟨Transfer.free h p, Accounts.free h p⟩

theorem Moves.trans (h1 : Moves h as h' bs) (h2 : Moves h' bs h'' cs) : Moves h as h'' cs :=
  ⟨h1.transfer.trans h2.transfer, h1.accounts.trans h2.accounts⟩

theorem Moves.frame (h1 : Moves h as h' bs) (gs : Multiset Nat) :
    Moves h (as + gs) h' (bs + gs) := ⟨h1.transfer.frame gs, h1.accounts.frame gs⟩

theorem Moves.congr {bs' : Multiset Nat} (h1 : Moves h as h' bs) (hbs : bs = bs') :
    Moves h as h' bs' := hbs ▸ h1

/-- More blocks, beside those that are there. -/
theorem Moves.more (h1 : Moves h as h' bs) (h2 : Moves h' 0 h'' cs) :
    Moves h as h'' (bs + cs) := by
  have hframe := h2.frame bs
  rw [zero_add, add_comm cs] at hframe
  exact h1.trans hframe

/-- Some of the blocks are given back. -/
theorem Moves.less (h1 : Moves h as h' (bs + cs)) (h2 : Moves h' cs h'' 0) :
    Moves h as h'' bs := by
  have hframe := h2.frame bs
  rw [zero_add, add_comm cs] at hframe
  exact h1.trans hframe

/-! ### Operations that take nothing over -/

theorem Moves.sound (h1 : Moves h 0 h' bs) (hs : h.Sound) : h'.Sound ∧ h'.Owns bs := by
  obtain ⟨hs', ho, -⟩ := h1.transfer 0 hs ((add_zero (0 : Multiset Nat)).symm ▸ Heap.Owns.zero)
  rw [add_zero] at ho
  exact ⟨hs', ho⟩

/-- A block that was live before is left alone, and it is none of the new ones. -/
theorem Moves.old (h1 : Moves h 0 h' bs) (hs : h.Sound) {a : Nat} (hlive : (h.objs a).isSome) :
    h'.objs a = h.objs a ∧ a ∉ bs := by
  have howns := Heap.Owns.of_live hlive
  rw [← zero_add ({a} : Multiset Nat)] at howns
  obtain ⟨-, ho, hsame⟩ := h1.transfer {a} hs howns
  have hself := Multiset.mem_singleton_self a
  exact ⟨hsame a hself, fun hmem => ho.not_mem hmem hself⟩

theorem Moves.live_iff (h1 : Moves h 0 h' bs) (hs : h.Sound) (a : Nat) :
    (h'.objs a).isSome ↔ a ∈ bs ∨ (h.objs a).isSome := by
  constructor
  · intro hlive
    exact (h1.accounts a hlive).imp_right And.left
  · rintro (hmem | hlive)
    · exact (h1.sound hs).2.live a hmem
    · rw [(h1.old hs hlive).1]
      exact hlive

end Ownership
