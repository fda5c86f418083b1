import Mathlib.Data.List.Nodup

set_option autoImplicit false

/-! # Chains of linked nodes

Nodes with one link each. A chain is given by the pointer to its first node; a queue keeps one to its
last node as well, so that a node can be put behind it with one change of a link. -/

namespace LinkChain

variable {ν : Type} {next next' : ν → Option ν} {p head tail : Option ν} {a b : ν} {l : List ν}

/-- From `p` on the links go through `l`. -/
def Chain (next : ν → Option ν) : Option ν → List ν → Prop
  | p, [] => p = none
  | p, a :: l => p = some a ∧ Chain next (next a) l

theorem Chain.eq_none_iff (h : Chain next p l) : p = none ↔ l = [] := by
  cases l with
  | nil => exact iff_of_true h rfl
  | cons a l =>
      rw [h.1]
      exact iff_of_false (nomatch ·) (nomatch ·)

/-- Only the links of its own nodes matter to a chain. -/
theorem Chain.congr (h : Chain next p l) (hsame : ∀ a ∈ l, next' a = next a) : Chain next' p l := by
  induction l generalizing p with
  | nil => exact h
  | cons a l ih =>
      refine ⟨h.1, ?_⟩
      rw [hsame a (List.mem_cons_self ..)]
      exact ih h.2 fun b hb => hsame b (List.mem_cons_of_mem a hb)

theorem Chain.snoc (h : Chain next p (l ++ [a])) (ha : next' a = some b) (hb : next' b = none)
    (hsame : ∀ c ∈ l, next' c = next c) : Chain next' p (l ++ [a] ++ [b]) := by
  induction l generalizing p with
  | nil => exact ⟨h.1, ha, hb⟩
  | cons c l ih =>
      refine ⟨h.1, ?_⟩
      rw [hsame c (List.mem_cons_self ..)]
      exact ih h.2 fun d hd => hsame d (List.mem_cons_of_mem c hd)

/-- A chain of different nodes from `head` to `tail`. -/
structure Queue (next : ν → Option ν) (head tail : Option ν) (l : List ν) : Prop where
  chain : Chain next head l
  tail_eq : tail = l.getLast?
  nodup : l.Nodup

theorem Queue.empty : Queue next none none ([] : List ν) := ⟨rfl, rfl, List.nodup_nil⟩

theorem Queue.congr (h : Queue next head tail l) (hsame : ∀ a ∈ l, next' a = next a) :
    Queue next' head tail l := ⟨h.chain.congr hsame, h.tail_eq, h.nodup⟩

/-- `head == tail` says that there is one node. -/
theorem Queue.head_eq_tail_iff (h : Queue next head tail (a :: l)) : head = tail ↔ l = [] := by
  rw [h.chain.1, h.tail_eq]
  cases l with
  | nil => simp
  | cons b l =>
      refine iff_of_false (fun heq => ?_) (nomatch ·)
      rw [List.getLast?_cons_cons] at heq
      exact (List.nodup_cons.1 h.nodup).1 (List.mem_of_getLast? heq.symm)

theorem Queue.single (h : next a = none) : Queue next (some a) (some a) [a] :=
  ⟨⟨rfl, h⟩, rfl, List.nodup_singleton a⟩

theorem Queue.dequeue (h : Queue next head tail (a :: l)) (hl : l ≠ []) :
    Queue next (next a) tail l := by
  refine ⟨h.chain.2, ?_, (List.nodup_cons.1 h.nodup).2⟩
  obtain ⟨b, l, rfl⟩ := List.exists_cons_of_ne_nil hl
  rw [h.tail_eq, List.getLast?_cons_cons]

/-- The last node is linked to a new one. -/
theorem Queue.enqueue (h : Queue next head (some a) l) (hnew : b ∉ l) (ha : next' a = some b)
    (hb : next' b = none) (hsame : ∀ c ∈ l, c ≠ a → next' c = next c) :
    Queue next' head (some b) (l ++ [b]) := by
  obtain ⟨l, rfl⟩ := List.getLast?_eq_some_iff.1 h.tail_eq.symm
  have hnodup := h.nodup
  rw [List.nodup_append] at hnodup
  refine ⟨h.chain.snoc ha hb fun c hc => hsame c (List.mem_append_left _ hc) fun heq =>
    hnodup.2.2 c hc a (List.mem_singleton_self a) heq, by simp, ?_⟩
  rw [List.nodup_append]
  exact ⟨h.nodup, List.nodup_singleton b, fun c hc d hd heq =>
    hnew (List.mem_singleton.1 hd ▸ heq ▸ hc)⟩

end LinkChain
