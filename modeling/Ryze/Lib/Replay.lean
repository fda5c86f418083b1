import Mathlib.Data.List.Basic

set_option autoImplicit false

/-! # Replaying pushes and pops

A list of items is read from left to right onto a stack; what an item does is given by a function.
What is on the stack in the end can be read off from the right: an item stays if every pop behind it
has something else to take. Two readings that differ in items one of them ignores are compared item
by item. -/

namespace Replay

/-- What an item does. -/
inductive Act
  | push
  | pop
  | skip
deriving DecidableEq, Repr

variable {α : Type}

/-- The stack after the items, its top being its last element; a pop of an empty stack does
    nothing. -/
def replay (act : α → Act) : List α → List α → List α
  | stack, [] => stack
  | stack, x :: xs =>
    match act x with
    | .push => replay act (stack ++ [x]) xs
    | .pop => replay act stack.dropLast xs
    | .skip => replay act stack xs

/-- How many pops of the items take something from before them. -/
def excess (act : α → Act) : List α → Nat
  | [] => 0
  | x :: xs =>
    match act x with
    | .push => excess act xs - 1
    | .pop => excess act xs + 1
    | .skip => excess act xs

/-- The items that stay: pushed, with no pop behind them that has nothing else to take. -/
def stays (act : α → Act) : List α → List α
  | [] => []
  | x :: xs => if act x = .push ∧ excess act xs = 0 then x :: stays act xs else stays act xs

theorem replay_eq (act : α → Act) (stack xs : List α) :
    replay act stack xs = stack.take (stack.length - excess act xs) ++ stays act xs := by
  induction xs generalizing stack with
  | nil => simp [replay, excess, stays]
  | cons x xs ih =>
      cases hx : act x with
      | push =>
          simp only [replay, excess, stays, hx, ih, true_and, List.length_append,
            List.length_singleton]
          by_cases h0 : excess act xs = 0
          · rw [if_pos h0, h0, List.take_of_length_le (by simp), List.take_of_length_le (by simp),
              List.append_assoc, List.singleton_append]
          · rw [if_neg h0, List.take_append_of_le_length (by omega)]
            congr 2
            omega
      | pop =>
          simp only [replay, excess, stays, hx, ih, List.length_dropLast, reduceCtorEq, false_and,
            if_false]
          rw [List.dropLast_eq_take, List.take_take]
          congr 2
          omega
      | skip => simp only [replay, excess, stays, hx, ih, reduceCtorEq, false_and, if_false]

theorem replay_nil (act : α → Act) (xs : List α) : replay act [] xs = stays act xs := by
  rw [replay_eq]
  simp

theorem stays_sublist (act : α → Act) (xs : List α) : (stays act xs).Sublist xs := by
  induction xs with
  | nil => exact List.Sublist.slnil
  | cons x xs ih =>
      unfold stays
      split
      · exact ih.cons_cons x
      · exact ih.cons x

theorem push_of_mem_stays {act : α → Act} {xs : List α} {x : α} (h : x ∈ stays act xs) :
    act x = .push := by
  induction xs with
  | nil => cases h
  | cons y ys ih =>
      unfold stays at h
      split at h
      · next hy =>
          rcases List.mem_cons.1 h with rfl | h
          · exact hy.1
          · exact ih h
      · exact ih h

/-- Items that are ignored at the end change nothing. -/
theorem stays_concat_skip {act : α → Act} {x : α} (hx : act x = .skip) (xs : List α) :
    stays act (xs ++ [x]) = stays act xs := by
  have hexcess : ∀ ys : List α, excess act (ys ++ [x]) = excess act ys := by
    intro ys
    induction ys with
    | nil => simp [excess, hx]
    | cons y ys ih => simp only [List.cons_append, excess, ih]
  induction xs with
  | nil => simp [stays, hx]
  | cons y ys ih => simp only [List.cons_append, stays, ih, hexcess]

/-- Reading goes on from what is on the stack. -/
theorem replay_append (act : α → Act) (stack xs ys : List α) :
    replay act stack (xs ++ ys) = replay act (replay act stack xs) ys := by
  induction xs generalizing stack with
  | nil => rfl
  | cons x xs ih =>
      simp only [List.cons_append, replay]
      split <;> exact ih _

theorem replay_push {act : α → Act} {xs : List α} (h : ∀ x ∈ xs, act x = .push)
    (stack : List α) : replay act stack xs = stack ++ xs := by
  induction xs generalizing stack with
  | nil => exact (List.append_nil stack).symm
  | cons x xs ih =>
      rw [replay, h x List.mem_cons_self]
      exact (ih (fun y hy => h y (List.mem_cons_of_mem x hy)) _).trans
        (List.append_assoc stack [x] xs)

/-- What stays of the first items is all that the others see of them. -/
theorem stays_append_stays (act : α → Act) (xs ys : List α) :
    stays act (stays act xs ++ ys) = stays act (xs ++ ys) := by
  have hagain : replay act [] (stays act xs) = stays act xs :=
    replay_push (fun _ => push_of_mem_stays) []
  rw [← replay_nil act (_ ++ ys), ← replay_nil act (xs ++ ys), replay_append, replay_append, hagain,
    replay_nil]

theorem stays_concat_push {act : α → Act} {x : α} (hx : act x = .push) (xs : List α) :
    stays act (xs ++ [x]) = stays act xs ++ [x] := by
  rw [← replay_nil, replay_append, replay_nil]
  exact replay_push (fun y hy => by rwa [List.mem_singleton.1 hy]) _

/-! ## Counting

What stays is a matter of how many pushes and pops there are in the stretches of items in front of an
item and behind it. -/

/-- How many of the items push. -/
def pushes (act : α → Act) (xs : List α) : Nat := xs.countP fun x => act x = .push

/-- How many of the items pop. -/
def pops (act : α → Act) (xs : List α) : Nat := xs.countP fun x => act x = .pop

@[simp] theorem pushes_nil (act : α → Act) : pushes act [] = 0 := rfl

@[simp] theorem pops_nil (act : α → Act) : pops act [] = 0 := rfl

theorem pushes_cons (act : α → Act) (x : α) (xs : List α) :
    pushes act (x :: xs) = pushes act xs + if act x = .push then 1 else 0 := by
  simp [pushes, List.countP_cons]

theorem pops_cons (act : α → Act) (x : α) (xs : List α) :
    pops act (x :: xs) = pops act xs + if act x = .pop then 1 else 0 := by
  simp [pops, List.countP_cons]

/-- The pops that take something from before the items are those that some stretch at the front has
    too many. -/
theorem excess_le_iff (act : α → Act) (xs : List α) (n : Nat) :
    excess act xs ≤ n ↔ ∀ u, u <+: xs → pops act u ≤ pushes act u + n := by
  induction xs generalizing n with
  | nil =>
      refine iff_of_true (Nat.zero_le n) fun u hu => ?_
      rw [List.prefix_nil.1 hu]
      exact Nat.zero_le _
  | cons x xs ih =>
      have hsplit : (∀ u, u <+: x :: xs → pops act u ≤ pushes act u + n) ↔
          ∀ u, u <+: xs → pops act (x :: u) ≤ pushes act (x :: u) + n := by
        constructor
        · intro h u hu
          exact h (x :: u) (List.cons_prefix_cons.2 ⟨rfl, hu⟩)
        · intro h u hu
          rcases List.prefix_cons_iff.1 hu with rfl | ⟨v, rfl, hv⟩
          · exact Nat.zero_le _
          · exact h v hv
      rw [hsplit]
      simp only [pops_cons, pushes_cons]
      cases hx : act x with
      | push =>
          simp only [excess, hx, if_true, reduceCtorEq, if_false, Nat.add_zero]
          rw [show excess act xs - 1 ≤ n ↔ excess act xs ≤ n + 1 by omega, ih]
          exact forall₂_congr fun u _ => by omega
      | pop =>
          simp only [excess, hx, if_true, reduceCtorEq, if_false, Nat.add_zero]
          cases n with
          | zero =>
              refine iff_of_false (by omega) fun h => ?_
              have hnil := h [] List.nil_prefix
              simp at hnil
          | succ n =>
              rw [Nat.add_le_add_iff_right, ih]
              exact forall₂_congr fun u _ => by omega
      | skip =>
          simp only [excess, hx, reduceCtorEq, if_false, Nat.add_zero]
          exact ih n

theorem excess_eq_zero_iff (act : α → Act) (xs : List α) :
    excess act xs = 0 ↔ ∀ u, u <+: xs → pops act u ≤ pushes act u := by
  rw [← Nat.le_zero, excess_le_iff]
  rfl

/-- Every push stays or is taken by a pop. -/
theorem stays_balance (act : α → Act) (xs : List α) :
    (stays act xs).length + pops act xs = pushes act xs + excess act xs := by
  induction xs with
  | nil => rfl
  | cons x xs ih =>
      rw [pops_cons, pushes_cons]
      cases hx : act x with
      | push =>
          simp only [excess, stays, hx, true_and, reduceCtorEq, if_false, if_true]
          by_cases h0 : excess act xs = 0
          · rw [if_pos h0, List.length_cons]
            omega
          · rw [if_neg h0]
            omega
      | pop =>
          simp only [excess, stays, hx, reduceCtorEq, false_and, if_false, if_true]
          omega
      | skip =>
          simp only [excess, stays, hx, reduceCtorEq, false_and, if_false]
          omega

/-- No more than `n` items stay if no stretch at the end has more pushes than that left over. -/
theorem stays_length_le_iff (act : α → Act) (xs : List α) (n : Nat) :
    (stays act xs).length ≤ n ↔ ∀ v, v <:+ xs → pushes act v ≤ pops act v + n := by
  induction xs with
  | nil =>
      refine iff_of_true (Nat.zero_le n) fun v hv => ?_
      rw [List.suffix_nil.1 hv]
      exact Nat.zero_le _
  | cons x xs ih =>
      have hsplit : (∀ v, v <:+ x :: xs → pushes act v ≤ pops act v + n) ↔
          pushes act (x :: xs) ≤ pops act (x :: xs) + n ∧ (stays act xs).length ≤ n := by
        rw [ih]
        constructor
        · intro h
          exact ⟨h _ List.suffix_rfl, fun v hv => h v (hv.trans (List.suffix_cons x xs))⟩
        · rintro ⟨hall, hrest⟩ v hv
          rcases List.suffix_cons_iff.1 hv with rfl | hv
          · exact hall
          · exact hrest v hv
      have hbalance := stays_balance act xs
      rw [hsplit, pushes_cons, pops_cons]
      simp only [stays]
      by_cases hstay : act x = .push ∧ excess act xs = 0
      · rw [if_pos hstay, if_pos hstay.1, if_neg (by simp [hstay.1]), List.length_cons]
        omega
      · rw [if_neg hstay]
        refine ⟨fun h => ⟨?_, h⟩, And.right⟩
        by_cases hpush : act x = .push
        · have hpos : excess act xs ≠ 0 := fun h0 => hstay ⟨hpush, h0⟩
          rw [if_pos hpush, if_neg (by simp [hpush])]
          omega
        · rw [if_neg hpush]
          omega

theorem excess_append {act : α → Act} {ys : List α} (hys : excess act ys = 0) (xs : List α) :
    excess act (xs ++ ys) = excess act xs := by
  induction xs with
  | nil => exact hys
  | cons x xs ih => simp only [List.cons_append, excess, ih]

theorem stays_append {act : α → Act} {ys : List α} (hys : excess act ys = 0) (xs : List α) :
    stays act (xs ++ ys) = stays act xs ++ stays act ys := by
  induction xs with
  | nil => rfl
  | cons x xs ih =>
      rw [List.cons_append, stays, stays, excess_append hys, ih]
      split
      · rw [List.cons_append]
      · rfl

theorem stays_eq_nil_iff (act : α → Act) (xs : List α) :
    stays act xs = [] ↔ ∀ v, v <:+ xs → pushes act v ≤ pops act v := by
  rw [← List.length_eq_zero_iff, ← Nat.le_zero, stays_length_le_iff]
  rfl

/-- The first item that stays: everything in front of it is taken, and it is not. -/
theorem stays_head?_iff (act : α → Act) (xs : List α) (x : α) :
    (stays act xs).head? = some x ↔ ∃ pre post, xs = pre ++ x :: post ∧ act x = .push ∧
      (∀ v, v <:+ pre → pushes act v ≤ pops act v) ∧
      ∀ u, u <+: post → pops act u ≤ pushes act u := by
  simp only [← excess_eq_zero_iff, ← stays_eq_nil_iff]
  have htaken : ∀ {post : List α}, act x = .push → excess act post = 0 →
      excess act (x :: post) = 0 := fun hx hpost => by rw [excess, hx, hpost]
  constructor
  · intro h
    induction xs with
    | nil => cases h
    | cons y ys ih =>
        unfold stays at h
        by_cases hstay : act y = .push ∧ excess act ys = 0
        · rw [if_pos hstay] at h
          cases h
          exact ⟨[], ys, rfl, hstay.1, rfl, hstay.2⟩
        · rw [if_neg hstay] at h
          obtain ⟨pre, post, rfl, hx, hpre, hpost⟩ := ih h
          refine ⟨y :: pre, post, rfl, hx, ?_, hpost⟩
          rw [excess_append (htaken hx hpost)] at hstay
          rw [stays, if_neg hstay, hpre]
  · rintro ⟨pre, post, rfl, hx, hpre, hpost⟩
    rw [stays_append (htaken hx hpost), hpre, List.nil_append, stays, if_pos ⟨hx, hpost⟩]
    rfl

/-! ## Two readings -/

/-- `fine` ignores some of the items that `coarse` pushes, and is like it otherwise. -/
def Ignores (coarse fine : α → Act) : Prop :=
  ∀ x, fine x = coarse x ∨ (coarse x = .push ∧ fine x = .skip)

variable {coarse fine : α → Act}

theorem excess_le (h : Ignores coarse fine) (xs : List α) : excess coarse xs ≤ excess fine xs := by
  induction xs with
  | nil => exact Nat.le_refl 0
  | cons x xs ih =>
      rcases h x with heq | ⟨hpush, hskip⟩
      · simp only [excess, heq]
        split <;> omega
      · simp only [excess, hpush, hskip]
        omega

/-- Every item that both push and that stays when everything is read also stays when the other items
    are ignored. -/
def SameStays (coarse fine : α → Act) (xs : List α) : Prop :=
  ∀ pre x post, xs = pre ++ x :: post → fine x = .push → excess coarse post = 0 →
    excess fine post = 0

theorem sameStays_cons {x : α} {xs : List α} :
    SameStays coarse fine (x :: xs) ↔
      (fine x = .push → excess coarse xs = 0 → excess fine xs = 0) ∧ SameStays coarse fine xs := by
  constructor
  · intro h
    exact ⟨fun hx h0 => h [] x xs rfl hx h0,
      fun pre y post heq hy h0 => h (x :: pre) y post (by rw [heq]; rfl) hy h0⟩
  · rintro ⟨hhead, htail⟩ pre y post heq hy h0
    cases pre with
    | nil =>
        obtain ⟨rfl, rfl⟩ := List.cons.inj heq
        exact hhead hy h0
    | cons z pre =>
        obtain ⟨-, heq⟩ := List.cons.inj heq
        exact htail pre y post heq hy h0

theorem stays_sublist_filter (h : Ignores coarse fine) (xs : List α) :
    (stays fine xs).Sublist ((stays coarse xs).filter fun x => fine x = .push) := by
  induction xs with
  | nil => exact List.Sublist.slnil
  | cons x xs ih =>
      have hle := excess_le h xs
      unfold stays
      by_cases hx : fine x = .push
      · have hcoarse : coarse x = .push := by
          rcases h x with heq | ⟨hpush, _⟩
          · rw [← heq, hx]
          · exact hpush
        by_cases h0 : excess fine xs = 0
        · rw [if_pos ⟨hx, h0⟩, if_pos ⟨hcoarse, by omega⟩, List.filter_cons_of_pos (by simpa using hx)]
          exact ih.cons_cons x
        · rw [if_neg fun hand => h0 hand.2]
          split
          · rw [List.filter_cons_of_pos (by simpa using hx)]
            exact ih.cons x
          · exact ih
      · rw [if_neg fun hand => hx hand.1]
        split
        · rwa [List.filter_cons_of_neg (by simpa using hx)]
        · exact ih

/-- When ignoring the items leaves the same of the others on the stack. -/
theorem filter_stays_iff (h : Ignores coarse fine) (xs : List α) :
    (stays coarse xs).filter (fun x => fine x = .push) = stays fine xs ↔
      SameStays coarse fine xs := by
  induction xs with
  | nil =>
      refine iff_of_true rfl ?_
      intro pre x post heq
      simp at heq
  | cons x xs ih =>
      have hle := excess_le h xs
      rw [sameStays_cons, ← ih]
      simp only [stays]
      by_cases hx : fine x = .push
      · have hcoarse : coarse x = .push := by
          rcases h x with heq | ⟨hpush, _⟩
          · rw [← heq, hx]
          · exact hpush
        by_cases h0 : excess coarse xs = 0
        · rw [if_pos ⟨hcoarse, h0⟩, List.filter_cons_of_pos (by simpa using hx)]
          by_cases h1 : excess fine xs = 0
          · rw [if_pos ⟨hx, h1⟩, List.cons.injEq]
            simp [h1]
          · rw [if_neg fun hand => h1 hand.2]
            -- the longer list is not the shorter one
            refine iff_of_false ?_ fun hand => h1 (hand.1 hx h0)
            intro heq
            have hlen := (stays_sublist_filter h xs).length_le
            rw [← heq, List.length_cons] at hlen
            omega
        · rw [if_neg fun hand => h0 hand.2, if_neg fun hand => h0 (by omega)]
          simp [h0]
      · have hneg : ¬ (fine x = .push ∧ excess fine xs = 0) := fun hand => hx hand.1
        rw [if_neg hneg]
        split
        · rw [List.filter_cons_of_neg (by simpa using hx)]
          simp [hx]
        · simp [hx]

end Replay
