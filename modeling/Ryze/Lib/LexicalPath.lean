import Mathlib.Algebra.GroupWithZero.Nat
import Mathlib.Data.List.Basic
import Mathlib.Data.List.Infix

set_option autoImplicit false

/-! # Lexical path resolution

Reading the components of a path from left to right, `dot` is skipped and `dotdot` removes the last
component that was kept. The bookkeeping of code that tracks the size of the kept components in a
counter rests on one balance: what is pushed is what is kept in the end and what was removed
(`pushed_balance`). -/

namespace LexicalPath

section Weight

variable {α : Type}

/-- The total weight of a list of components. -/
def weight (w : α → Nat) (cs : List α) : Nat := (cs.map w).sum

@[simp] theorem weight_nil (w : α → Nat) : weight w [] = 0 := rfl

@[simp] theorem weight_cons (w : α → Nat) (c : α) (cs : List α) :
    weight w (c :: cs) = w c + weight w cs := rfl

@[simp] theorem weight_append (w : α → Nat) (cs ds : List α) :
    weight w (cs ++ ds) = weight w cs + weight w ds := by
  rw [weight, List.map_append, List.sum_append]
  rfl

/-- Adding a constant to the weight of every component. -/
theorem weight_add_const (w : α → Nat) (k : Nat) (cs : List α) :
    weight (fun c => w c + k) cs = weight w cs + cs.length * k := by
  induction cs with
  | nil => simp
  | cons c cs ih =>
      rw [weight_cons, weight_cons, ih, List.length_cons, Nat.succ_mul]
      omega

theorem weight_filter_le (w : α → Nat) (p : α → Bool) (cs : List α) :
    weight w (cs.filter p) ≤ weight w cs := by
  induction cs with
  | nil => exact Nat.le_refl _
  | cons c cs ih =>
      rw [List.filter_cons]
      split
      · rw [weight_cons, weight_cons]
        omega
      · rw [weight_cons]
        omega

/-- Leaving out a component makes a list lighter. -/
theorem weight_filter_lt {w : α → Nat} {p : α → Bool} {cs : List α} {c : α} (hc : c ∈ cs)
    (hp : p c = false) (hw : 0 < w c) : weight w (cs.filter p) < weight w cs := by
  obtain ⟨as, bs, rfl⟩ := List.append_of_mem hc
  have has := weight_filter_le w p as
  have hbs := weight_filter_le w p bs
  rw [List.filter_append, List.filter_cons, if_neg (by simp [hp]), weight_append, weight_append,
    weight_cons]
  omega

theorem weight_dropLast (w : α → Nat) {kept : List α} (hne : kept ≠ []) :
    weight w kept.dropLast + weight w kept.getLast?.toList = weight w kept := by
  rw [List.getLast?_eq_some_getLast hne, Option.toList_some, ← weight_append,
    List.dropLast_append_getLast hne]

theorem forall_prefix_cons {c : α} {cs : List α} {P : List α → Prop} :
    (∀ u, u <+: c :: cs → P u) ↔ P [] ∧ ∀ u, u <+: cs → P (c :: u) := by
  constructor
  · intro h
    exact ⟨h [] (List.nil_prefix), fun u hu => h _ (List.cons_prefix_cons.2 ⟨rfl, hu⟩)⟩
  · rintro ⟨hnil, hcons⟩ u hu
    rcases List.prefix_cons_iff.1 hu with rfl | ⟨v, rfl, hv⟩
    · exact hnil
    · exact hcons v hv

end Weight

section Resolve

variable {α : Type} [DecidableEq α] (dot dotdot : α)

/-- Read one component; a `dotdot` with nothing to remove has no meaning. -/
def resolveStep (kept : List α) (c : α) : Option (List α) :=
  if c = dotdot then if kept = [] then none else some kept.dropLast
  else if c = dot then some kept
  else some (kept ++ [c])

/-- Read components with `kept` kept so far. -/
def resolve : List α → List α → Option (List α)
  | kept, [] => some kept
  | kept, c :: cs => (resolveStep dot dotdot kept c).bind (resolve · cs)

/-- The components that the `dotdot`s remove, in the order of their removal. -/
def removed : List α → List α → List α
  | _, [] => []
  | kept, c :: cs =>
    if c = dotdot then kept.getLast?.toList ++ removed kept.dropLast cs
    else if c = dot then removed kept cs
    else removed (kept ++ [c]) cs

/-- The components that stand directly before a `dotdot`, `prev` standing before the first one. -/
def before : α → List α → List α
  | _, [] => []
  | prev, c :: cs => if c = dotdot then prev :: before c cs else before c cs

/-- The components that are kept when they are read. -/
def pushed : List α → List α
  | [] => []
  | c :: cs => if c = dotdot then pushed cs else if c = dot then pushed cs else c :: pushed cs

variable {dot dotdot}

/-- What reading one component can do. -/
theorem resolveStep_cases {kept k : List α} {c : α}
    (h : resolveStep dot dotdot kept c = some k) :
    (c = dotdot ∧ kept ≠ [] ∧ k = kept.dropLast) ∨ (c ≠ dotdot ∧ c = dot ∧ k = kept) ∨
      (c ≠ dotdot ∧ c ≠ dot ∧ k = kept ++ [c]) := by
  simp only [resolveStep] at h
  split at h
  · next hc =>
      split at h
      · cases h
      · next hne =>
          cases h
          exact Or.inl ⟨hc, hne, rfl⟩
  · next hc =>
      split at h
      · next hd =>
          cases h
          exact Or.inr (Or.inl ⟨hc, hd, rfl⟩)
      · next hd =>
          cases h
          exact Or.inr (Or.inr ⟨hc, hd, rfl⟩)

theorem resolve_cons {kept kept' cs : List α} {c : α}
    (h : resolve dot dotdot kept (c :: cs) = some kept') :
    ∃ k, resolveStep dot dotdot kept c = some k ∧ resolve dot dotdot k cs = some kept' :=
  Option.bind_eq_some_iff.1 h

/-- Components below the ones that are kept stay below them. -/
theorem resolve_base {kept kept' cs : List α} (h : resolve dot dotdot kept cs = some kept')
    (base : List α) : resolve dot dotdot (base ++ kept) cs = some (base ++ kept') := by
  induction cs generalizing kept with
  | nil =>
      cases h
      rfl
  | cons c cs ih =>
      obtain ⟨k, hk, h⟩ := resolve_cons h
      have hstep : resolveStep dot dotdot (base ++ kept) c = some (base ++ k) := by
        rcases resolveStep_cases hk with ⟨hc, hne, rfl⟩ | ⟨hc, hd, rfl⟩ | ⟨hc, hd, rfl⟩
        · rw [resolveStep, if_pos hc, if_neg (by simp [hne]), List.dropLast_append_of_ne_nil hne]
        · rw [resolveStep, if_neg hc, if_pos hd]
        · rw [resolveStep, if_neg hc, if_neg hd, List.append_assoc]
      rw [resolve, hstep, Option.bind_some, ih h]

/-- What is kept was read or kept before. -/
theorem resolve_mem {kept kept' cs : List α} (h : resolve dot dotdot kept cs = some kept') {d : α}
    (hd : d ∈ kept') : d ∈ kept ∨ d ∈ cs := by
  induction cs generalizing kept with
  | nil =>
      cases h
      exact Or.inl hd
  | cons c cs ih =>
      obtain ⟨k, hk, h⟩ := resolve_cons h
      rcases ih h with hmem | hmem
      · rcases resolveStep_cases hk with ⟨_, _, rfl⟩ | ⟨_, _, rfl⟩ | ⟨_, _, rfl⟩
        · exact Or.inl (List.dropLast_subset _ hmem)
        · exact Or.inl hmem
        · rcases List.mem_append.1 hmem with hmem | hmem
          · exact Or.inl hmem
          · exact Or.inr (List.mem_cons.2 (Or.inl (List.mem_singleton.1 hmem)))
      · exact Or.inr (List.mem_cons_of_mem _ hmem)

/-- Components other than the two are all kept. -/
theorem resolve_plain {kept cs : List α} (h : ∀ c ∈ cs, c ≠ dot ∧ c ≠ dotdot) :
    resolve dot dotdot kept cs = some (kept ++ cs) := by
  induction cs generalizing kept with
  | nil => rw [resolve, List.append_nil]
  | cons c cs ih =>
      obtain ⟨hd, hdd⟩ := h c (List.mem_cons_self ..)
      rw [resolve, resolveStep, if_neg hdd, if_neg hd, Option.bind_some,
        ih (fun c hc => h c (List.mem_cons_of_mem _ hc)), List.append_assoc]
      rfl

/-- Each `dotdot` removes one component and has one before it. -/
theorem removed_length {kept kept' cs : List α} (h : resolve dot dotdot kept cs = some kept')
    (prev : α) : (removed dot dotdot kept cs).length = (before dotdot prev cs).length := by
  induction cs generalizing kept prev with
  | nil => rfl
  | cons c cs ih =>
      obtain ⟨k, hk, h⟩ := resolve_cons h
      have hrest := ih h c
      rcases resolveStep_cases hk with ⟨hc, hne, rfl⟩ | ⟨hc, hd, rfl⟩ | ⟨hc, hd, rfl⟩
      · rw [removed, before, if_pos hc, if_pos hc, List.getLast?_eq_some_getLast hne,
          List.length_append, Option.toList_some, List.length_singleton, List.length_cons, hrest,
          Nat.add_comm]
      · rw [removed, before, if_neg hc, if_neg hc, if_pos hd, hrest]
      · rw [removed, before, if_neg hc, if_neg hc, if_neg hd, hrest]

/-- **Balance.** What is pushed is either kept in the end or removed again. -/
theorem pushed_balance (w : α → Nat) {kept kept' cs : List α}
    (h : resolve dot dotdot kept cs = some kept') :
    weight w kept + weight w (pushed dot dotdot cs)
      = weight w kept' + weight w (removed dot dotdot kept cs) := by
  induction cs generalizing kept with
  | nil =>
      cases h
      rfl
  | cons c cs ih =>
      obtain ⟨k, hk, h⟩ := resolve_cons h
      have hrest := ih h
      rcases resolveStep_cases hk with ⟨hc, hne, rfl⟩ | ⟨hc, hd, rfl⟩ | ⟨hc, hd, rfl⟩
      · have hlast := weight_dropLast w hne
        rw [pushed, removed, if_pos hc, if_pos hc, weight_append]
        omega
      · rw [pushed, removed, if_neg hc, if_neg hc, if_pos hd, if_pos hd]
        exact hrest
      · rw [weight_append, weight_cons, weight_nil] at hrest
        rw [pushed, removed, if_neg hc, if_neg hc, if_neg hd, if_neg hd, weight_cons]
        omega

/-- The first component that is read removes nothing, so it does not matter what stands before it. -/
theorem first_ne_dotdot {c : α} {cs kept : List α}
    (h : resolve dot dotdot [] (c :: cs) = some kept) : c ≠ dotdot := by
  obtain ⟨k, hk, _⟩ := resolve_cons h
  rcases resolveStep_cases hk with ⟨_, hne, _⟩ | ⟨hc, _, _⟩ | ⟨hc, _, _⟩
  · exact absurd rfl hne
  · exact hc
  · exact hc

theorem before_prev {cs kept : List α} (hres : resolve dot dotdot [] cs = some kept)
    (prev prev' : α) : before dotdot prev cs = before dotdot prev' cs := by
  cases cs with
  | nil => rfl
  | cons c cs =>
      have hc := first_ne_dotdot hres
      rw [before, before, if_neg hc, if_neg hc]

/-- No more is pushed than is read. -/
theorem weight_pushed_le (w : α → Nat) (cs : List α) :
    weight w (pushed dot dotdot cs) ≤ weight w cs := by
  induction cs with
  | nil => exact Nat.le_refl _
  | cons c cs ih =>
      simp only [pushed, weight_cons]
      split
      · omega
      · split
        · omega
        · rw [weight_cons]
          omega

/-- Every component stands before at most one `dotdot`. -/
theorem weight_before_le (w : α → Nat) (prev : α) (cs : List α) :
    weight w (before dotdot prev cs) ≤ w prev + weight w cs := by
  induction cs generalizing prev with
  | nil => simp [before]
  | cons c cs ih =>
      have hrest := ih c
      simp only [before, weight_cons]
      split
      · rw [weight_cons]
        omega
      · omega

/-! ## Counters

A counter that starts at `t` grows by the weight of what is pushed, and shrinks at each `dotdot` by
the weight of the component that stands before it. -/

variable (dot dotdot)

/-- The counter never goes below zero. -/
def Covered (w : α → Nat) (t : Nat) (prev : α) (cs : List α) : Prop :=
  ∀ u, u <+: cs → weight w (before dotdot prev u) ≤ t + weight w (pushed dot dotdot u)

instance (w : α → Nat) (t : Nat) (prev : α) (cs : List α) :
    Decidable (Covered dot dotdot w t prev cs) :=
  decidable_of_iff (∀ u ∈ cs.inits, weight w (before dotdot prev u)
    ≤ t + weight w (pushed dot dotdot u)) (by simp only [List.mem_inits]; rfl)

variable {dot dotdot}

theorem Covered.le {w : α → Nat} {t : Nat} {prev : α} {cs : List α}
    (h : Covered dot dotdot w t prev cs) :
    weight w (before dotdot prev cs) ≤ t + weight w (pushed dot dotdot cs) :=
  h cs (List.prefix_refl _)

theorem covered_nil {w : α → Nat} {t : Nat} {prev : α} : Covered dot dotdot w t prev [] := by
  intro u hu
  rw [List.prefix_nil.1 hu]
  exact Nat.zero_le _

theorem covered_dotdot {w : α → Nat} {t : Nat} {prev c : α} {cs : List α} (hc : c = dotdot) :
    Covered dot dotdot w t prev (c :: cs) ↔ w prev ≤ t ∧ Covered dot dotdot w (t - w prev) c cs := by
  rw [Covered, forall_prefix_cons, Covered]
  simp only [before, pushed, if_pos hc, weight_cons, weight_nil]
  constructor
  · rintro ⟨-, h⟩
    have hprev : w prev ≤ t := h [] List.nil_prefix
    refine ⟨hprev, fun u hu => ?_⟩
    have hu' := h u hu
    omega
  · rintro ⟨hprev, h⟩
    refine ⟨Nat.zero_le _, fun u hu => ?_⟩
    have hu' := h u hu
    omega

theorem covered_dot {w : α → Nat} {t : Nat} {prev c : α} {cs : List α} (hdd : c ≠ dotdot)
    (hd : c = dot) : Covered dot dotdot w t prev (c :: cs) ↔ Covered dot dotdot w t c cs := by
  rw [Covered, forall_prefix_cons, Covered]
  simp only [before, pushed, if_neg hdd, if_pos hd, weight_nil, Nat.zero_le, true_and]

theorem covered_push {w : α → Nat} {t : Nat} {prev c : α} {cs : List α} (hdd : c ≠ dotdot)
    (hd : c ≠ dot) :
    Covered dot dotdot w t prev (c :: cs) ↔ Covered dot dotdot w (t + w c) c cs := by
  rw [Covered, forall_prefix_cons, Covered]
  simp only [before, pushed, if_neg hdd, if_neg hd, weight_cons, weight_nil, Nat.zero_le, true_and,
    Nat.add_assoc]

theorem covered_prev {w : α → Nat} {t : Nat} {cs kept : List α}
    (hres : resolve dot dotdot [] cs = some kept) (prev prev' : α) :
    Covered dot dotdot w t prev cs ↔ Covered dot dotdot w t prev' cs := by
  cases cs with
  | nil => exact ⟨fun _ => covered_nil, fun _ => covered_nil⟩
  | cons c cs =>
      have hc := first_ne_dotdot hres
      by_cases hd : c = dot
      · rw [covered_dot hc hd, covered_dot hc hd]
      · rw [covered_push hc hd, covered_push hc hd]

/-! ## Depth -/

variable (dot dotdot)

/-- At no time more than `d` components are kept. -/
def Shallow (d : Nat) (kept cs : List α) : Prop :=
  ∀ u k, u <+: cs → resolve dot dotdot kept u = some k → k.length ≤ d

variable {dot dotdot}

theorem shallow_cons {d : Nat} {kept cs : List α} {c : α} :
    Shallow dot dotdot d kept (c :: cs) ↔
      kept.length ≤ d ∧ ∀ k, resolveStep dot dotdot kept c = some k → Shallow dot dotdot d k cs := by
  constructor
  · intro h
    refine ⟨h [] kept List.nil_prefix rfl, fun k hk u k' hu hk' => ?_⟩
    refine h (c :: u) k' (List.cons_prefix_cons.2 ⟨rfl, hu⟩) ?_
    rw [resolve, hk, Option.bind_some, hk']
  · rintro ⟨hkept, h⟩ u k' hu hk'
    rcases List.prefix_cons_iff.1 hu with rfl | ⟨v, rfl, hv⟩
    · cases hk'
      exact hkept
    · obtain ⟨k, hk, hrest⟩ := resolve_cons hk'
      exact h k hk v k' hv hrest

theorem resolve_length_le {kept kept' cs : List α} (h : resolve dot dotdot kept cs = some kept') :
    kept'.length ≤ kept.length + cs.length := by
  induction cs generalizing kept with
  | nil =>
      cases h
      exact Nat.le_refl _
  | cons c cs ih =>
      obtain ⟨k, hk, hrest⟩ := resolve_cons h
      have hle := ih hrest
      rw [List.length_cons]
      rcases resolveStep_cases hk with ⟨_, _, rfl⟩ | ⟨_, _, rfl⟩ | ⟨_, _, rfl⟩
      · rw [List.length_dropLast] at hle
        omega
      · omega
      · rw [List.length_append, List.length_singleton] at hle
        omega

/-- A short list of components needs no more room than it is long. -/
theorem shallow_of_length {d : Nat} {kept cs : List α} (h : kept.length + cs.length ≤ d) :
    Shallow dot dotdot d kept cs := by
  intro u k hu hk
  have hle := resolve_length_le hk
  have hlen := hu.length_le
  omega

end Resolve

end LexicalPath
