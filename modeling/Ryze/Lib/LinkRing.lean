import Mathlib.Data.List.Rotate

set_option autoImplicit false

/-! # Rings of linked nodes

Nodes with a link each way, `next` and `prev`, of which some are closed to rings. A ring is given by
the list of its nodes from any one of them on; putting a node between two neighbours and taking one
out are changes of at most four links, and both leave every ring that has none of the nodes involved
as it was. -/

namespace LinkRing

variable {ν : Type} {next prev next' prev' : ν → Option ν} {c d l : List ν} {e h n p x : ν}

/-- The nodes of `c` are pairwise different, and the links go round them in this order. -/
structure Linked (next prev : ν → Option ν) (c : List ν) : Prop where
  nodup : c.Nodup
  map_next : c.map next = (c.rotate 1).map some
  map_prev : (c.rotate 1).map prev = c.map some

theorem linked_cons_iff :
    Linked next prev (h :: l) ↔ (h :: l).Nodup ∧ (h :: l).map next = (l ++ [h]).map some ∧
      (l ++ [h]).map prev = (h :: l).map some := by
  have hrot : (h :: l).rotate 1 = l ++ [h] := by simp
  constructor
  · intro hl
    exact ⟨hl.nodup, hrot ▸ hl.map_next, hrot ▸ hl.map_prev⟩
  · rintro ⟨hnodup, hnext, hprev⟩
    exact ⟨hnodup, by rw [hrot]; exact hnext, by rw [hrot]; exact hprev⟩

/-- A ring can be entered anywhere. -/
theorem Linked.rotated (hc : Linked next prev c) (hcd : c ~r d) : Linked next prev d := by
  obtain ⟨k, rfl⟩ := hcd
  have hcomm : (c.rotate k).rotate 1 = (c.rotate 1).rotate k := by
    rw [List.rotate_rotate, List.rotate_rotate, Nat.add_comm]
  refine ⟨List.nodup_rotate.2 hc.nodup, ?_, ?_⟩
  · rw [hcomm, List.map_rotate, List.map_rotate, hc.map_next]
  · rw [hcomm, List.map_rotate, hc.map_prev, List.map_rotate]

/-- Seen from `h`, a ring taken backwards is the reversed sequence with the links exchanged. -/
theorem Linked.flip (hc : Linked next prev (h :: l)) : Linked prev next (h :: l.reverse) := by
  obtain ⟨hnodup, hnext, hprev⟩ := linked_cons_iff.1 hc
  refine linked_cons_iff.2 ⟨by simpa using hnodup, ?_, ?_⟩
  · simpa using congrArg List.reverse hprev
  · simpa using congrArg List.reverse hnext

theorem Linked.exists_next (hc : Linked next prev c) (hx : x ∈ c) : ∃ y ∈ c, next x = some y := by
  have hmem : next x ∈ (c.rotate 1).map some := hc.map_next ▸ List.mem_map_of_mem hx
  obtain ⟨y, hy, heq⟩ := List.mem_map.1 hmem
  exact ⟨y, List.mem_rotate.1 hy, heq.symm⟩

theorem Linked.exists_prev (hc : Linked next prev c) (hx : x ∈ c) : ∃ y ∈ c, prev x = some y := by
  have hmem : prev x ∈ c.map some :=
    hc.map_prev ▸ List.mem_map_of_mem (List.mem_rotate.2 hx)
  obtain ⟨y, hy, heq⟩ := List.mem_map.1 hmem
  exact ⟨y, hy, heq.symm⟩

theorem Linked.next_mem (hc : Linked next prev c) (hx : x ∈ c) (hn : next x = some n) : n ∈ c := by
  obtain ⟨y, hy, heq⟩ := hc.exists_next hx
  rw [hn] at heq
  exact Option.some.inj heq ▸ hy

theorem Linked.prev_mem (hc : Linked next prev c) (hx : x ∈ c) (hp : prev x = some p) : p ∈ c := by
  obtain ⟨y, hy, heq⟩ := hc.exists_prev hx
  rw [hp] at heq
  exact Option.some.inj heq ▸ hy

/-- What comes after the first node of a sequence. -/
theorem Linked.next_head (hc : Linked next prev (h :: x :: l)) : next h = some x := by
  have := (linked_cons_iff.1 hc).2.1
  simp only [List.map_cons, List.cons_append, List.cons.injEq] at this
  exact this.1

theorem linked_singleton (hnext : next h = some h) (hprev : prev h = some h) :
    Linked next prev [h] :=
  linked_cons_iff.2 ⟨List.nodup_singleton h, by simp [hnext], by simp [hprev]⟩

theorem Linked.next_self_iff (hc : Linked next prev (h :: l)) : next h = some h ↔ l = [] := by
  cases l with
  | nil =>
      have := (linked_cons_iff.1 hc).2.1
      simpa using this
  | cons x l =>
      have hne : x ≠ h := by
        rintro rfl
        exact (List.nodup_cons.1 hc.nodup).1 (List.mem_cons_self ..)
      simpa [hc.next_head] using hne

theorem exists_isRotated_cons (hx : x ∈ c) : ∃ d, c ~r x :: d := by
  obtain ⟨a, b, rfl⟩ := List.append_of_mem hx
  exact ⟨b ++ a, List.isRotated_append⟩

/-- In a ring of two nodes or more, no node is its own successor, nor its own predecessor. -/
theorem Linked.next_ne_self {y : ν} (hc : Linked next prev c) (hx : x ∈ c) (hy : y ∈ c)
    (hxy : y ≠ x) : next x ≠ some x := by
  intro hself
  obtain ⟨d, hd⟩ := exists_isRotated_cons hx
  have hempty : d = [] := (hc.rotated hd).next_self_iff.1 hself
  rw [hempty] at hd
  exact hxy (List.mem_singleton.1 (hd.mem_iff.1 hy))

theorem Linked.prev_ne_self {y : ν} (hc : Linked next prev c) (hx : x ∈ c) (hy : y ∈ c)
    (hxy : y ≠ x) : prev x ≠ some x := by
  obtain ⟨d, hd⟩ := exists_isRotated_cons hx
  refine (hc.rotated hd).flip.next_ne_self (List.mem_cons_self ..) ?_ hxy
  rcases List.mem_cons.1 (hd.mem_iff.1 hy) with hyx | hyd
  · exact absurd hyx hxy
  · exact List.mem_cons_of_mem x (List.mem_reverse.2 hyd)

/-- A ring is still one when the links of its nodes are what they were. -/
theorem Linked.congr (hc : Linked next prev c) (hnext : ∀ x ∈ c, next' x = next x)
    (hprev : ∀ x ∈ c, prev' x = prev x) : Linked next' prev' c := by
  refine ⟨hc.nodup, ?_, ?_⟩
  · rw [List.map_congr_left hnext, hc.map_next]
  · rw [List.map_congr_left fun x hx => hprev x (List.mem_rotate.1 hx), hc.map_prev]

/-- The links of a ring are determined by the sequence. -/
theorem Linked.links_eq (hc : Linked next prev c) (hc' : Linked next' prev' c) (hx : x ∈ c) :
    next' x = next x ∧ prev' x = prev x := by
  constructor
  · exact List.map_inj_left.1 (hc'.map_next.trans hc.map_next.symm) x hx
  · exact List.map_inj_left.1 (hc'.map_prev.trans hc.map_prev.symm) x (List.mem_rotate.2 hx)

/-! ## Putting a node in and taking one out -/

/-- `e` has been put between `p` and `n`. -/
structure Spliced (next prev next' prev' : ν → Option ν) (p e n : ν) : Prop where
  next_left : next' p = some e
  next_mid : next' e = some n
  prev_mid : prev' e = some p
  prev_right : prev' n = some e
  next_other : ∀ x, x ≠ p → x ≠ e → next' x = next x
  prev_other : ∀ x, x ≠ n → x ≠ e → prev' x = prev x

theorem Spliced.flip (hs : Spliced next prev next' prev' p e n) :
    Spliced prev next prev' next' n e p :=
  ⟨hs.prev_right, hs.prev_mid, hs.next_mid, hs.next_left, hs.prev_other, hs.next_other⟩

/-- Between a node and its successor, the new node comes second. -/
theorem Linked.splice (hc : Linked next prev (p :: l)) (he : e ∉ p :: l) (hn : next p = some n)
    (hs : Spliced next prev next' prev' p e n) : Linked next' prev' (p :: e :: l) := by
  obtain ⟨hnodup, hnext, hprev⟩ := linked_cons_iff.1 hc
  obtain ⟨hpl, hl⟩ := List.nodup_cons.1 hnodup
  obtain ⟨hep, hel⟩ := not_or.1 (List.mem_cons.not.1 he)
  -- the successor is the node the rest of the round starts with
  obtain ⟨t, ht⟩ : ∃ t, l ++ [p] = n :: t := by
    cases hl' : l ++ [p] with
    | nil => simp at hl'
    | cons y t =>
        rw [List.map_cons, hl', List.map_cons, hn, List.cons.injEq] at hnext
        cases hnext.1
        exact ⟨t, rfl⟩
  have hnodup' : (n :: t).Nodup :=
    ht ▸ (List.nodup_append_comm.1 (by simpa using hnodup) : (l ++ [p]).Nodup)
  refine linked_cons_iff.2 ⟨?_, ?_, ?_⟩
  · refine List.nodup_cons.2 ⟨?_, List.nodup_cons.2 ⟨hel, hl⟩⟩
    simp only [List.mem_cons, not_or]
    exact ⟨fun h => hep h.symm, hpl⟩
  · have hrest : l.map next' = l.map next := List.map_congr_left fun x hx =>
      hs.next_other x (fun h => hpl (h ▸ hx)) (fun h => hel (h ▸ hx))
    rw [List.map_cons, List.map_cons, hs.next_left, hs.next_mid, hrest, ← hn, ← List.map_cons,
      hnext]
    rfl
  · have het : e ∉ n :: t := by
      rw [← ht, List.mem_append, List.mem_singleton]
      exact not_or.2 ⟨hel, hep⟩
    have hrest : t.map prev' = t.map prev := List.map_congr_left fun x hx =>
      hs.prev_other x (fun h => (List.nodup_cons.1 hnodup').1 (h ▸ hx))
        (fun h => het (h ▸ List.mem_cons_of_mem n hx))
    rw [ht, List.map_cons, List.map_cons, List.cons.injEq] at hprev
    rw [List.cons_append, ht, List.map_cons, List.map_cons, hs.prev_mid, hs.prev_right, hrest,
      hprev.2]
    rfl

/-- Between a node and its predecessor, the new node comes last. -/
theorem Linked.splice_last (hc : Linked next prev (n :: l)) (he : e ∉ n :: l)
    (hp : prev n = some p) (hs : Spliced next prev next' prev' p e n) :
    Linked next' prev' (n :: (l ++ [e])) := by
  have hflip : Linked prev' next' (n :: e :: l.reverse) :=
    hc.flip.splice (by simpa using he) hp hs.flip
  simpa using hflip.flip

/-- `e` has been taken out from between `p` and `n`. -/
structure Unspliced (next prev next' prev' : ν → Option ν) (p e n : ν) : Prop where
  next_left : next' p = some n
  prev_right : prev' n = some p
  next_mid : next' e = none
  prev_mid : prev' e = none
  next_other : ∀ x, x ≠ p → x ≠ e → next' x = next x
  prev_other : ∀ x, x ≠ n → x ≠ e → prev' x = prev x

/-- The rest of a ring is a ring when its first node is taken out. -/
theorem Linked.unsplice (hc : Linked next prev (e :: c)) (hne : c ≠ []) (hp : prev e = some p)
    (hn : next e = some n) (hs : Unspliced next prev next' prev' p e n) :
    Linked next' prev' c := by
  obtain ⟨hnodup, hnext, hprev⟩ := linked_cons_iff.1 hc
  obtain ⟨hec, hcnodup⟩ := List.nodup_cons.1 hnodup
  -- `c` from its two ends: `n` is its first node, `p` its last one
  obtain ⟨y, s, rfl⟩ := List.exists_cons_of_ne_nil hne
  obtain rfl : y = n := by
    have := hc.next_head
    rw [hn] at this
    exact (Option.some.inj this).symm
  obtain ⟨t, z, hts⟩ := (List.eq_nil_or_concat' (y :: s)).resolve_left (by simp)
  -- what the links of the other nodes say, from either end
  have hsnext : t.map next = s.map some := by
    have hround : (t ++ [z]).map next = (s ++ [e]).map some := by
      rw [← hts]
      simpa using congrArg List.tail hnext
    rw [List.map_append, List.map_append] at hround
    exact List.append_inj_left' hround rfl
  have hsprev : s.map prev = t.map some ∧ prev e = some z := by
    have hround : (s ++ [e]).map prev = (t ++ [z]).map some := by
      rw [← hts]
      simpa using congrArg List.tail hprev
    rw [List.map_append, List.map_append] at hround
    obtain ⟨hleft, hright⟩ := List.append_inj' hround rfl
    exact ⟨hleft, by simpa using hright⟩
  obtain rfl : z = p := by
    rw [hsprev.2] at hp
    exact Option.some.inj hp
  have htnodup : z ∉ t ∧ e ∉ t := by
    rw [hts] at hcnodup hec
    have hdisj := List.disjoint_of_nodup_append hcnodup
    exact ⟨fun hz => hdisj hz (List.mem_singleton_self z), fun he => hec (List.mem_append_left _ he)⟩
  have hsnodup : y ∉ s ∧ e ∉ s :=
    ⟨(List.nodup_cons.1 hcnodup).1, fun he => hec (List.mem_cons_of_mem y he)⟩
  refine linked_cons_iff.2 ⟨hcnodup, ?_, ?_⟩
  · have hrest : t.map next' = t.map next := List.map_congr_left fun x hx =>
      hs.next_other x (fun h => htnodup.1 (h ▸ hx)) (fun h => htnodup.2 (h ▸ hx))
    rw [hts, List.map_append, List.map_append, hrest, hsnext, List.map_singleton, hs.next_left]
    rfl
  · have hrest : s.map prev' = s.map prev := List.map_congr_left fun x hx =>
      hs.prev_other x (fun h => hsnodup.1 (h ▸ hx)) (fun h => hsnodup.2 (h ▸ hx))
    rw [hts, List.map_append, List.map_append, hrest, hsprev.1, List.map_singleton, hs.prev_right]
    rfl

/-- A node other than the first one is taken out. -/
theorem Linked.remove [DecidableEq ν] (hc : Linked next prev (h :: l)) (he : e ∈ l)
    (hp : prev e = some p) (hn : next e = some n) (hs : Unspliced next prev next' prev' p e n) :
    Linked next' prev' (h :: l.erase e) := by
  obtain ⟨a, b, -, rfl, herase⟩ := List.exists_erase_eq he
  have hfrom : h :: (a ++ e :: b) ~r e :: (b ++ h :: a) := by
    rw [← List.cons_append]
    exact List.isRotated_append
  have hrest : Linked next' prev' (b ++ h :: a) := (hc.rotated hfrom).unsplice (by simp) hp hn hs
  rw [herase, ← List.cons_append]
  exact hrest.rotated List.isRotated_append

/-! ## Going round -/

/-- The nodes a walk of `k` steps along `f` comes to. -/
def walk (f : ν → Option ν) : Nat → ν → List ν
  | 0, _ => []
  | k + 1, x =>
    match f x with
    | none => []
    | some y => y :: walk f k y

theorem walk_of_map {f : ν → Option ν} (h : (x :: l).map f = (l ++ [e]).map some) :
    walk f (l.length + 1) x = l ++ [e] := by
  induction l generalizing x with
  | nil =>
      have hx : f x = some e := by simpa using h
      simp [walk, hx]
  | cons y l ih =>
      simp only [List.map_cons, List.cons_append, List.cons.injEq] at h
      obtain ⟨hx, hrest⟩ := h
      rw [List.length_cons, walk, hx, List.cons_append]
      exact congrArg (y :: ·) (ih (by simpa using hrest))

/-- One round along `next` comes to the nodes in order, and back. -/
theorem Linked.walk_next (hc : Linked next prev (h :: l)) :
    walk next (l.length + 1) h = l ++ [h] :=
  walk_of_map (linked_cons_iff.1 hc).2.1

/-- One round along `prev` comes to them in the reverse order. -/
theorem Linked.walk_prev (hc : Linked next prev (h :: l)) :
    walk prev (l.length + 1) h = l.reverse ++ [h] := by
  rw [← List.length_reverse]
  exact hc.flip.walk_next

end LinkRing
