import Ryze.List.ListHead
import Mathlib.Data.Set.Insert

set_option autoImplicit false

/-! # Lists as sequences

What the intrusive lists are for: a family of sequences, one for each initialised head. A node may be
added while it is in none of them and deleted while it is in one. Each header's operations carry a
heap that represents a family to one that represents the family after the operation on sequences. -/

namespace Ryze

open CLib LinkRing

variable {ν : Type}

/-! ## Operations -/

/-- The operations of `list.h`, on the addresses of nodes. -/
inductive ListOp (ν : Type)
  | init (head : ν)
  | add (entry head : ν)
  | addTail (entry head : ν)
  | del (entry : ν)
  | empty (head : ν)
  | remove (head : ν)
  | removeTail (head : ν)
deriving DecidableEq, Repr

/-- What an operation returns. -/
inductive ListRet (ν : Type)
  | void
  | flag (b : Bool)
  | node (entry : Option ν)
deriving DecidableEq, Repr

/-- The node that says which list an operation works on: its head, or the entry for `list_del`. -/
def ListOp.operand : ListOp ν → ν
  | .init head => head
  | .add _ head => head
  | .addTail _ head => head
  | .del entry => entry
  | .empty head => head
  | .remove head => head
  | .removeTail head => head

inductive ListHeader
  | list
  | includeList
deriving DecidableEq, Repr

/-- `include/list.h` has no macro that removes from an end. -/
def ListHeader.Offers : ListHeader → ListOp ν → Prop
  | .includeList, .remove _ => False
  | .includeList, .removeTail _ => False
  | _, _ => True

section Call

variable [DecidableEq ν]

def ListHeader.call (m : ListHeap ν) : ListHeader → ListOp ν → CRun (ListHeap ν × ListRet ν)
  | .list, .init head => do return (← listInit m head, .void)
  | .list, .add entry head => do return (← listAdd m entry head, .void)
  | .list, .addTail entry head => do return (← listAddTail m entry head, .void)
  | .list, .del entry => do return (← listDel m entry, .void)
  | .list, .empty head => do return (m, .flag (← listEmpty m head))
  | .list, .remove head => do
    let (m, entry) ← listRemove m head
    return (m, .node entry)
  | .list, .removeTail head => do
    let (m, entry) ← listRemoveTail m head
    return (m, .node entry)
  | .includeList, .init head => do return (← Include.listInit m head, .void)
  | .includeList, .add entry head => do return (← Include.listAdd m head entry, .void)
  | .includeList, .addTail entry head => do return (← Include.listAddTail m head entry, .void)
  | .includeList, .del entry => do return (← Include.listDel m entry, .void)
  | .includeList, .empty head => do return (m, .flag (← Include.listEmpty m head))
  | .includeList, .remove _ => throw .abort
  | .includeList, .removeTail _ => throw .abort

def ListHeader.run (header : ListHeader) (m : ListHeap ν) :
    List (ListOp ν) → CRun (ListHeap ν × List (ListRet ν))
  | [] => pure (m, [])
  | op :: ops => do
    let (m, ret) ← header.call m op
    let (m, rets) ← header.run m ops
    return (m, ret :: rets)

end Call

/-! ## Sequences -/

/-- The initialised heads with their sequences, and the nodes that were deleted and not used
    again. -/
structure ListFamily (ν : Type) where
  lists : ν → Option (List ν)
  deleted : Set ν

namespace ListFamily

/-- Before the first `list_init`. -/
def empty : ListFamily ν := ⟨fun _ => none, ∅⟩

/-- The node is a head or in a sequence. -/
def Holds (f : ListFamily ν) (x : ν) : Prop := ∃ h l, f.lists h = some l ∧ x ∈ h :: l

/-- The caller's side: heads are initialised and not in a list themselves, added nodes are not
    linked, deleted nodes are in a list. -/
def Allows (f : ListFamily ν) : ListOp ν → Prop
  | .init head => ∀ h l, f.lists h = some l → head ∉ l
  | .add entry head => (∃ l, f.lists head = some l) ∧ ¬ f.Holds entry
  | .addTail entry head => (∃ l, f.lists head = some l) ∧ ¬ f.Holds entry
  | .del entry => ∃ h l, f.lists h = some l ∧ entry ∈ l
  | .empty head => ∃ l, f.lists head = some l
  | .remove head => ∃ l, f.lists head = some l
  | .removeTail head => ∃ l, f.lists head = some l

variable [DecidableEq ν]

def apply (f : ListFamily ν) : ListOp ν → ListFamily ν × ListRet ν
  | .init head => (⟨Function.update f.lists head (some []), f.deleted \ {head}⟩, .void)
  | .add entry head =>
    (⟨Function.update f.lists head ((f.lists head).map (entry :: ·)), f.deleted \ {entry}⟩, .void)
  | .addTail entry head =>
    (⟨Function.update f.lists head ((f.lists head).map (· ++ [entry])), f.deleted \ {entry}⟩, .void)
  | .del entry =>
    (⟨fun h => (f.lists h).map (·.erase entry), insert entry f.deleted⟩, .void)
  | .empty head => (f, .flag (f.lists head == some []))
  | .remove head =>
    match (f.lists head).bind List.head? with
    | none => (f, .node none)
    | some entry =>
      (⟨Function.update f.lists head ((f.lists head).map List.tail), insert entry f.deleted⟩,
        .node (some entry))
  | .removeTail head =>
    match (f.lists head).bind List.getLast? with
    | none => (f, .node none)
    | some entry =>
      (⟨Function.update f.lists head ((f.lists head).map List.dropLast), insert entry f.deleted⟩,
        .node (some entry))

def run (f : ListFamily ν) : List (ListOp ν) → ListFamily ν × List (ListRet ν)
  | [] => (f, [])
  | op :: ops =>
    let (g, rets) := (f.apply op).1.run ops
    (g, (f.apply op).2 :: rets)

/-- A list the operation is not about stays as it is. -/
theorem apply_other {f : ListFamily ν} {op : ListOp ν} {h : ν} {l : List ν}
    (hl : f.lists h = some l) (hop : op.operand ∉ h :: l) : (f.apply op).1.lists h = some l := by
  have hupdate : ∀ {head : ν}, head ∉ h :: l → ∀ l', Function.update f.lists head l' h = some l := by
    intro head hhead l'
    rw [Function.update_of_ne (ne_of_mem_of_not_mem (List.mem_cons_self ..) hhead), hl]
  cases op with
  | init head => exact hupdate hop _
  | add entry head => exact hupdate hop _
  | addTail entry head => exact hupdate hop _
  | del entry =>
      have hnot : entry ∉ l := fun hmem => hop (List.mem_cons_of_mem h hmem)
      change (f.lists h).map (·.erase entry) = some l
      rw [hl, Option.map_some, List.erase_of_not_mem hnot]
  | empty head => exact hl
  | remove head =>
      simp only [apply]
      split
      · exact hl
      · exact hupdate hop _
  | removeTail head =>
      simp only [apply]
      split
      · exact hl
      · exact hupdate hop _

/-- Every operation is allowed in the family it comes to. -/
def Legal (f : ListFamily ν) : List (ListOp ν) → Prop
  | [] => True
  | op :: ops => f.Allows op ∧ (f.apply op).1.Legal ops

end ListFamily

/-! ## Heaps that represent a family -/

/-- Each sequence with its head is a ring, no two rings meet, and deleted nodes are unlinked. -/
structure ListHeap.Represents (m : ListHeap ν) (f : ListFamily ν) : Prop where
  linked : ∀ h l, f.lists h = some l → Linked m.next m.prev (h :: l)
  disjoint : ∀ h l h' l', f.lists h = some l → f.lists h' = some l' → h ≠ h' →
    List.Disjoint (h :: l) (h' :: l')
  deleted : ∀ e ∈ f.deleted, m.next e = none ∧ m.prev e = none

namespace ListHeap.Represents

variable {m m' : ListHeap ν} {f : ListFamily ν} {e h n p x : ν} {l l' : List ν}

theorem empty (m : ListHeap ν) : m.Represents ListFamily.empty :=
  ⟨fun _ _ hl => (nomatch hl), fun _ _ _ _ hl => (nomatch hl), fun _ he => absurd he (Set.notMem_empty _)⟩

theorem not_deleted (hm : m.Represents f) (hl : f.lists h = some l) (hx : x ∈ h :: l) :
    x ∉ f.deleted := by
  intro hdel
  obtain ⟨y, -, hy⟩ := (hm.linked h l hl).exists_next hx
  rw [(hm.deleted x hdel).1] at hy
  cases hy

/-- A node is in one list at most. -/
theorem unique {h' : ν} (hm : m.Represents f) (hl : f.lists h = some l)
    (hl' : f.lists h' = some l') (hx : x ∈ h :: l) (hx' : x ∈ h' :: l') : h = h' := by
  by_contra hne
  exact hm.disjoint h l h' l' hl hl' hne hx hx'

/-- A node of a sequence is not its own neighbour: the head is there too. -/
theorem ne_neighbours (hm : m.Represents f) (hl : f.lists h = some l) (he : e ∈ l)
    (hp : m.prev e = some p) (hn : m.next e = some n) : e ≠ p ∧ e ≠ n := by
  have hring := hm.linked h l hl
  have hering : e ∈ h :: l := List.mem_cons_of_mem h he
  have hhe : h ≠ e := by
    rintro rfl
    exact (List.nodup_cons.1 hring.nodup).1 he
  constructor
  · rintro rfl
    exact hring.prev_ne_self hering (List.mem_cons_self ..) hhe hp
  · rintro rfl
    exact hring.next_ne_self hering (List.mem_cons_self ..) hhe hn

theorem next_self_iff (hm : m.Represents f) (hl : f.lists h = some l) :
    m.next h = some h ↔ f.lists h = some [] := by
  rw [(hm.linked h l hl).next_self_iff, hl, Option.some.injEq]

variable [DecidableEq ν]

/-- One ring is replaced by another that meets none of the others, and the links of the others
    stay. -/
theorem replace (hm : m.Represents f) {D : Set ν} (hlinked : Linked m'.next m'.prev (h :: l'))
    (hother : ∀ h' l x, h' ≠ h → f.lists h' = some l → x ∈ h' :: l →
      x ∉ h :: l' ∧ m'.next x = m.next x ∧ m'.prev x = m.prev x)
    (hD : ∀ e ∈ D, m'.next e = none ∧ m'.prev e = none) :
    m'.Represents ⟨Function.update f.lists h (some l'), D⟩ := by
  have hcases : ∀ h₁ l₁, Function.update f.lists h (some l') h₁ = some l₁ →
      (h₁ = h ∧ l₁ = l') ∨ (h₁ ≠ h ∧ f.lists h₁ = some l₁) := by
    intro h₁ l₁ hl₁
    by_cases heq : h₁ = h
    · rw [heq, Function.update_self] at hl₁
      exact Or.inl ⟨heq, (Option.some.inj hl₁).symm⟩
    · rw [Function.update_of_ne heq] at hl₁
      exact Or.inr ⟨heq, hl₁⟩
  refine ⟨?_, ?_, hD⟩
  · intro h₁ l₁ hl₁
    rcases hcases h₁ l₁ hl₁ with ⟨rfl, rfl⟩ | ⟨hne, hf₁⟩
    · exact hlinked
    · exact (hm.linked h₁ l₁ hf₁).congr (fun x hx => (hother h₁ l₁ x hne hf₁ hx).2.1)
        (fun x hx => (hother h₁ l₁ x hne hf₁ hx).2.2)
  · intro h₁ l₁ h₂ l₂ hl₁ hl₂ hne
    rcases hcases h₁ l₁ hl₁ with ⟨rfl, rfl⟩ | ⟨hne₁, hf₁⟩
    · rcases hcases h₂ l₂ hl₂ with ⟨rfl, rfl⟩ | ⟨hne₂, hf₂⟩
      · exact absurd rfl hne
      · exact fun x hx hx₂ => (hother h₂ l₂ x hne₂ hf₂ hx₂).1 hx
    · rcases hcases h₂ l₂ hl₂ with ⟨rfl, rfl⟩ | ⟨hne₂, hf₂⟩
      · exact fun x hx hx₂ => (hother h₁ l₁ x hne₁ hf₁ hx).1 hx₂
      · exact hm.disjoint h₁ l₁ h₂ l₂ hf₁ hf₂ hne

/-- A head is closed on itself, whatever it was before. -/
theorem close (hm : m.Represents f) (hh : ∀ h' l, f.lists h' = some l → h ∉ l) :
    (m.close h).Represents ⟨Function.update f.lists h (some []), f.deleted \ {h}⟩ := by
  have hframe : ∀ x, x ≠ h → (m.close h).next x = m.next x ∧ (m.close h).prev x = m.prev x :=
    fun x hx => ⟨Function.update_of_ne hx .., Function.update_of_ne hx ..⟩
  refine hm.replace (linked_singleton (Function.update_self ..) (Function.update_self ..)) ?_ ?_
  · intro h' l x hne hl hx
    have hxh : x ≠ h := by
      rintro rfl
      rcases List.mem_cons.1 hx with heq | hmem
      · exact hne heq.symm
      · exact hh h' l hl hmem
    exact ⟨fun hmem => hxh (List.mem_singleton.1 hmem), hframe x hxh⟩
  · intro e he
    obtain ⟨hdel, hne⟩ := he
    rw [(hframe e hne).1, (hframe e hne).2]
    exact hm.deleted e hdel

/-- A node that was nowhere is put between two nodes of one ring. -/
theorem splice (hm : m.Represents f) (hl : f.lists h = some l) (he : ¬ f.Holds e)
    (hp : p ∈ h :: l) (hn : n ∈ h :: l)
    (hlinked : Linked (m.splice p e n).next (m.splice p e n).prev (h :: l'))
    (hmem : ∀ x ∈ l', x = e ∨ x ∈ l) :
    (m.splice p e n).Represents ⟨Function.update f.lists h (some l'), f.deleted \ {e}⟩ := by
  have hep : e ≠ p := fun heq => he ⟨h, l, hl, heq ▸ hp⟩
  have hen : e ≠ n := fun heq => he ⟨h, l, hl, heq ▸ hn⟩
  have hs := m.spliced hep hen
  refine hm.replace hlinked ?_ ?_
  · intro h' l₁ x hne hl₁ hx
    have hxe : x ≠ e := fun heq => he ⟨h', l₁, hl₁, heq ▸ hx⟩
    have hxl : x ∉ h :: l := fun hx' => hne (hm.unique hl₁ hl hx hx')
    refine ⟨?_, hs.next_other x (fun heq => hxl (heq ▸ hp)) hxe,
      hs.prev_other x (fun heq => hxl (heq ▸ hn)) hxe⟩
    intro hx'
    rcases List.mem_cons.1 hx' with heq | hx'
    · exact hxl (heq ▸ List.mem_cons_self ..)
    · rcases hmem x hx' with heq | hx'
      · exact hxe heq
      · exact hxl (List.mem_cons_of_mem h hx')
  · intro x hx
    obtain ⟨hdel, hne⟩ := hx
    have hxl : x ∉ h :: l := fun hx => hm.not_deleted hl hx hdel
    rw [hs.next_other x (fun heq => hxl (heq ▸ hp)) hne,
      hs.prev_other x (fun heq => hxl (heq ▸ hn)) hne]
    exact hm.deleted x hdel

/-- A node of a sequence is taken out from between its neighbours. -/
theorem unsplice (hm : m.Represents f) (hl : f.lists h = some l) (he : e ∈ l)
    (hp : m.prev e = some p) (hn : m.next e = some n) :
    (m.unsplice p e n).Represents
      ⟨Function.update f.lists h (some (l.erase e)), insert e f.deleted⟩ := by
  have hring := hm.linked h l hl
  have hering : e ∈ h :: l := List.mem_cons_of_mem h he
  obtain ⟨hep, hen⟩ := hm.ne_neighbours hl he hp hn
  have hpring : p ∈ h :: l := hring.prev_mem hering hp
  have hnring : n ∈ h :: l := hring.next_mem hering hn
  have hs := m.unspliced hep hen
  refine hm.replace (hring.remove he hp hn hs) ?_ ?_
  · intro h' l₁ x hne hl₁ hx
    have hxl : x ∉ h :: l := fun hx' => hne (hm.unique hl₁ hl hx hx')
    have hxe : x ≠ e := fun heq => hxl (heq ▸ hering)
    refine ⟨fun hx' => hxl ?_, hs.next_other x (fun heq => hxl (heq ▸ hpring)) hxe,
      hs.prev_other x (fun heq => hxl (heq ▸ hnring)) hxe⟩
    exact List.cons_subset_cons h List.erase_subset hx'
  · intro x hx
    rcases Set.mem_insert_iff.1 hx with rfl | hdel
    · exact ⟨hs.next_mid, hs.prev_mid⟩
    · have hxl : x ∉ h :: l := fun hx => hm.not_deleted hl hx hdel
      have hxe : x ≠ e := fun heq => hxl (heq ▸ hering)
      rw [hs.next_other x (fun heq => hxl (heq ▸ hpring)) hxe,
        hs.prev_other x (fun heq => hxl (heq ▸ hnring)) hxe]
      exact hm.deleted x hdel

/-! ### One operation -/

theorem add (hm : m.Represents f) (hl : f.lists h = some l) (he : ¬ f.Holds e)
    (hn : m.next h = some n) : (m.splice h e n).Represents (f.apply (.add e h)).1 := by
  have hring := hm.linked h l hl
  have hh : h ∈ h :: l := List.mem_cons_self ..
  have hnmem : n ∈ h :: l := hring.next_mem hh hn
  have hel : e ∉ h :: l := fun hmem => he ⟨h, l, hl, hmem⟩
  have hs := m.spliced (ne_of_mem_of_not_mem hh hel).symm (ne_of_mem_of_not_mem hnmem hel).symm
  have := hm.splice hl he hh hnmem (hring.splice hel hn hs) fun x hx => List.mem_cons.1 hx
  simpa only [ListFamily.apply, hl, Option.map_some] using this

theorem addTail (hm : m.Represents f) (hl : f.lists h = some l) (he : ¬ f.Holds e)
    (hp : m.prev h = some p) : (m.splice p e h).Represents (f.apply (.addTail e h)).1 := by
  have hring := hm.linked h l hl
  have hh : h ∈ h :: l := List.mem_cons_self ..
  have hpmem : p ∈ h :: l := hring.prev_mem hh hp
  have hel : e ∉ h :: l := fun hmem => he ⟨h, l, hl, hmem⟩
  have hs := m.spliced (ne_of_mem_of_not_mem hpmem hel).symm (ne_of_mem_of_not_mem hh hel).symm
  have := hm.splice hl he hpmem hh (hring.splice_last hel hp hs) fun x hx => by
    rw [List.mem_append, List.mem_singleton] at hx
    exact hx.symm
  simpa only [ListFamily.apply, hl, Option.map_some] using this

theorem del (hm : m.Represents f) (hl : f.lists h = some l) (he : e ∈ l) (hp : m.prev e = some p)
    (hn : m.next e = some n) : (m.unsplice p e n).Represents (f.apply (.del e)).1 := by
  have hlists : (fun h' => (f.lists h').map (·.erase e))
      = Function.update f.lists h (some (l.erase e)) := by
    funext h'
    by_cases heq : h' = h
    · rw [heq, Function.update_self, hl, Option.map_some]
    · rw [Function.update_of_ne heq]
      cases hl' : f.lists h' with
      | none => rfl
      | some l' =>
          have hnot : e ∉ l' := fun hmem =>
            heq (hm.unique hl' hl (List.mem_cons_of_mem h' hmem) (List.mem_cons_of_mem h he))
          rw [Option.map_some, List.erase_of_not_mem hnot]
  have := hm.unsplice hl he hp hn
  rw [← hlists] at this
  exact this

theorem remove (hm : m.Represents f) (hl : f.lists h = some (e :: l)) (hp : m.prev e = some p)
    (hn : m.next e = some n) : (m.unsplice p e n).Represents (f.apply (.remove h)).1 := by
  have := hm.unsplice hl (List.mem_cons_self ..) hp hn
  rw [List.erase_cons_head] at this
  simpa only [ListFamily.apply, hl, Option.map_some, Option.bind_some, List.head?_cons,
    List.tail_cons] using this

theorem removeTail (hm : m.Represents f) (hl : f.lists h = some (l ++ [e]))
    (hp : m.prev e = some p) (hn : m.next e = some n) :
    (m.unsplice p e n).Represents (f.apply (.removeTail h)).1 := by
  have hnodup := (List.nodup_cons.1 (hm.linked h _ hl).nodup).2
  have hel : e ∉ l := fun he =>
    List.disjoint_of_nodup_append hnodup he (List.mem_singleton_self e)
  have := hm.unsplice hl (List.mem_append_right l (List.mem_singleton_self e)) hp hn
  rw [List.erase_append_right _ hel, List.erase_cons_head, List.append_nil] at this
  simpa only [ListFamily.apply, hl, Option.map_some, Option.bind_some, List.getLast?_concat,
    List.dropLast_concat] using this

end ListHeap.Represents

section Refinement

variable [DecidableEq ν] {m : ListHeap ν} {f : ListFamily ν} {op : ListOp ν} {header : ListHeader}

/-- The call does on the heap what the operation does on the sequences. -/
def ListHeader.Simulates (header : ListHeader) (m : ListHeap ν) (f : ListFamily ν) (op : ListOp ν) :
    Prop :=
  ∃ m', header.call m op = .ok (m', (f.apply op).2) ∧ m'.Represents (f.apply op).1

namespace ListHeader

variable {h e : ν}

theorem call_init (hm : m.Represents f) (hop : f.Allows (.init h)) :
    header.Simulates m f (.init h) := by
  refine ⟨m.close h, ?_, hm.close hop⟩
  cases header with
  | list => simp only [call, listInit_eq, ok_bind, pure_eq_ok, ListFamily.apply]
  | includeList => simp only [call, Include.listInit_eq, ok_bind, pure_eq_ok, ListFamily.apply]

theorem call_add (hm : m.Represents f) (hop : f.Allows (.add e h)) :
    header.Simulates m f (.add e h) := by
  obtain ⟨⟨l, hl⟩, he⟩ := hop
  have hh : h ∈ h :: l := List.mem_cons_self ..
  obtain ⟨n, hnmem, hn⟩ := (hm.linked h l hl).exists_next hh
  have hel : e ∉ h :: l := fun hmem => he ⟨h, l, hl, hmem⟩
  refine ⟨m.splice h e n, ?_, hm.add hl he hn⟩
  cases header with
  | list => simp only [call, listAdd_eq hn, ok_bind, pure_eq_ok, ListFamily.apply]
  | includeList =>
      have heh := (ne_of_mem_of_not_mem hh hel).symm
      have hen := (ne_of_mem_of_not_mem hnmem hel).symm
      simp only [call, Include.listAdd_eq heh hen hn, ok_bind, pure_eq_ok, ListFamily.apply]

theorem call_addTail (hm : m.Represents f) (hop : f.Allows (.addTail e h)) :
    header.Simulates m f (.addTail e h) := by
  obtain ⟨⟨l, hl⟩, he⟩ := hop
  have hh : h ∈ h :: l := List.mem_cons_self ..
  obtain ⟨p, -, hp⟩ := (hm.linked h l hl).exists_prev hh
  have hel : e ∉ h :: l := fun hmem => he ⟨h, l, hl, hmem⟩
  refine ⟨m.splice p e h, ?_, hm.addTail hl he hp⟩
  cases header with
  | list => simp only [call, listAddTail_eq hp, ok_bind, pure_eq_ok, ListFamily.apply]
  | includeList =>
      have heh := (ne_of_mem_of_not_mem hh hel).symm
      simp only [call, Include.listAddTail_eq heh hp, ok_bind, pure_eq_ok, ListFamily.apply]

theorem call_del (hm : m.Represents f) (hop : f.Allows (.del e)) :
    header.Simulates m f (.del e) := by
  obtain ⟨h, l, hl, he⟩ := hop
  have hering : e ∈ h :: l := List.mem_cons_of_mem h he
  obtain ⟨p, -, hp⟩ := (hm.linked h l hl).exists_prev hering
  obtain ⟨n, -, hn⟩ := (hm.linked h l hl).exists_next hering
  refine ⟨m.unsplice p e n, ?_, hm.del hl he hp hn⟩
  cases header with
  | list => simp only [call, listDel_eq hp hn, ok_bind, pure_eq_ok, ListFamily.apply]
  | includeList =>
      have hep := (hm.ne_neighbours hl he hp hn).1
      simp only [call, Include.listDel_eq hep hp hn, ok_bind, pure_eq_ok, ListFamily.apply]

theorem call_empty (hm : m.Represents f) (hop : f.Allows (.empty h)) :
    header.Simulates m f (.empty h) := by
  obtain ⟨l, hl⟩ := hop
  have hflag : (m.next h == some h) = (f.lists h == some []) := by
    rw [Bool.eq_iff_iff, beq_iff_eq, beq_iff_eq]
    exact hm.next_self_iff hl
  refine ⟨m, ?_, hm⟩
  cases header with
  | list => simp only [call, listEmpty_eq, hflag, ok_bind, pure_eq_ok, ListFamily.apply]
  | includeList =>
      simp only [call, Include.listEmpty_eq, hflag, ok_bind, pure_eq_ok, ListFamily.apply]

theorem call_remove (hm : m.Represents f) (hop : f.Allows (.remove h)) :
    ListHeader.list.Simulates m f (.remove h) := by
  obtain ⟨l, hl⟩ := hop
  cases l with
  | nil =>
      have happly : f.apply (.remove h) = (f, .node none) := by
        simp [ListFamily.apply, hl]
      rw [Simulates, happly]
      refine ⟨m, ?_, hm⟩
      simp only [call, listRemove_empty ((hm.next_self_iff hl).2 hl), ok_bind, pure_eq_ok]
  | cons e l =>
      have hering : e ∈ h :: e :: l := by simp
      have hring := hm.linked h (e :: l) hl
      obtain ⟨p, -, hp⟩ := hring.exists_prev hering
      obtain ⟨n, -, hn⟩ := hring.exists_next hering
      have hne : e ≠ h := by
        rintro rfl
        exact (List.nodup_cons.1 hring.nodup).1 (List.mem_cons_self ..)
      refine ⟨m.unsplice p e n, ?_, hm.remove hl hp hn⟩
      simp only [call, listRemove_eq hne hring.next_head hp hn, ok_bind, pure_eq_ok,
        ListFamily.apply, hl, Option.bind_some, List.head?_cons]

theorem call_removeTail (hm : m.Represents f) (hop : f.Allows (.removeTail h)) :
    ListHeader.list.Simulates m f (.removeTail h) := by
  obtain ⟨l, hl⟩ := hop
  rcases List.eq_nil_or_concat' l with rfl | ⟨l, e, rfl⟩
  · have happly : f.apply (.removeTail h) = (f, .node none) := by
      simp [ListFamily.apply, hl]
    rw [Simulates, happly]
    refine ⟨m, ?_, hm⟩
    simp only [call, listRemoveTail_empty ((hm.next_self_iff hl).2 hl), ok_bind, pure_eq_ok]
  · have hering : e ∈ h :: (l ++ [e]) := by simp
    have hring := hm.linked h (l ++ [e]) hl
    obtain ⟨p, -, hp⟩ := hring.exists_prev hering
    obtain ⟨n, -, hn⟩ := hring.exists_next hering
    have hlast : m.prev h = some e := by
      have hflip := hring.flip
      rw [List.reverse_append, List.reverse_singleton, List.singleton_append] at hflip
      exact hflip.next_head
    have hfirst : m.next h ≠ some h := fun hself => by
      have hnil := hring.next_self_iff.1 hself
      simp at hnil
    refine ⟨m.unsplice p e n, ?_, hm.removeTail hl hp hn⟩
    simp only [call, listRemoveTail_eq hfirst hlast hp hn, ok_bind, pure_eq_ok,
      ListFamily.apply, hl, Option.bind_some, List.getLast?_concat]

end ListHeader

/-- **Step lemma.** An allowed operation does not fault, returns what it returns on sequences, and
    the heap represents the family after it. -/
theorem ListHeader.call_refines (hm : m.Represents f) (hop : f.Allows op)
    (hoffer : header.Offers op) :
    ∃ m', header.call m op = .ok (m', (f.apply op).2) ∧ m'.Represents (f.apply op).1 := by
  cases op with
  | init h => exact call_init hm hop
  | add e h => exact call_add hm hop
  | addTail e h => exact call_addTail hm hop
  | del e => exact call_del hm hop
  | empty h => exact call_empty hm hop
  | remove h =>
      cases header with
      | list => exact call_remove hm hop
      | includeList => exact hoffer.elim
  | removeTail h =>
      cases header with
      | list => exact call_removeTail hm hop
      | includeList => exact hoffer.elim

/-- **Run lemma.** -/
theorem ListHeader.run_refines {ops : List (ListOp ν)} (hm : m.Represents f) (hlegal : f.Legal ops)
    (hoffer : ∀ op ∈ ops, header.Offers op) :
    ∃ m', header.run m ops = .ok (m', (f.run ops).2) ∧ m'.Represents (f.run ops).1 := by
  induction ops generalizing m f with
  | nil => exact ⟨m, rfl, hm⟩
  | cons op ops ih =>
      obtain ⟨hop, hrest⟩ := hlegal
      obtain ⟨m₁, hcall, hm₁⟩ := call_refines hm hop (hoffer op (List.mem_cons_self ..))
      obtain ⟨m₂, hrun, hm₂⟩ :=
        ih hm₁ hrest fun op' hop' => hoffer op' (List.mem_cons_of_mem op hop')
      refine ⟨m₂, ?_, hm₂⟩
      simp only [ListHeader.run, hcall, hrun, ok_bind, pure_eq_ok, ListFamily.run]

end Refinement

/-! ## What a caller sees -/

/-- From every head, one round along `next` comes to its sequence and back, and one along `prev` to
    the reverse; deleted nodes have no links. -/
structure ListHeap.Shows (m : ListHeap ν) (f : ListFamily ν) : Prop where
  next : ∀ h l, f.lists h = some l → walk m.next (l.length + 1) h = l ++ [h]
  prev : ∀ h l, f.lists h = some l → walk m.prev (l.length + 1) h = l.reverse ++ [h]
  deleted : ∀ e ∈ f.deleted, m.next e = none ∧ m.prev e = none

theorem ListHeap.Represents.shows {m : ListHeap ν} {f : ListFamily ν} (hm : m.Represents f) :
    m.Shows f :=
  ⟨fun h l hl => (hm.linked h l hl).walk_next, fun h l hl => (hm.linked h l hl).walk_prev,
    hm.deleted⟩

/-- The intrusive lists of either header are sequences: after every run of allowed operations the
    heap shows the sequences, the results were theirs, and one more operation leaves the links of
    every list it is not about. -/
theorem ListHeader.run_shows [DecidableEq ν] (header : ListHeader) (m : ListHeap ν)
    {ops : List (ListOp ν)} (hlegal : ListFamily.empty.Legal ops)
    (hoffer : ∀ op ∈ ops, header.Offers op) :
    ∃ m', header.run m ops = .ok (m', (ListFamily.empty.run ops).2) ∧
      m'.Shows (ListFamily.empty.run ops).1 ∧
      ∀ op, (ListFamily.empty.run ops).1.Allows op → header.Offers op →
        ∃ m'' ret, header.call m' op = .ok (m'', ret) ∧
          ∀ h l, (ListFamily.empty.run ops).1.lists h = some l → op.operand ∉ h :: l →
            ∀ x ∈ h :: l, m''.next x = m'.next x ∧ m''.prev x = m'.prev x := by
  obtain ⟨m', hrun, hm'⟩ := run_refines (ListHeap.Represents.empty m) hlegal hoffer
  refine ⟨m', hrun, hm'.shows, ?_⟩
  intro op hop hopoffer
  obtain ⟨m'', hcall, hm''⟩ := call_refines hm' hop hopoffer
  refine ⟨m'', _, hcall, ?_⟩
  intro h l hl hother x hx
  have hl' := ListFamily.apply_other hl hother
  exact (hm'.linked h l hl).links_eq (hm''.linked h l hl') hx

/-- Two lists: nodes 2 and 3 go to the list of 0, node 4 to that of 1, then 2 is deleted and the
    last node of the first list removed. -/
def ListOp.twoLists : List (ListOp Nat) :=
  [.init 0, .init 1, .add 2 0, .addTail 3 0, .add 4 1, .del 2, .removeTail 0]

theorem ListHeader.run_shows_twoLists :
    ∃ m', ListHeader.list.run ⟨fun _ => none, fun _ => none⟩ ListOp.twoLists
        = .ok (m', [.void, .void, .void, .void, .void, .void, .node (some 3)]) ∧
      walk m'.next 1 0 = [0] ∧ walk m'.prev 2 1 = [4, 1] ∧ m'.next 2 = none := by
  have hlegal : ListFamily.empty.Legal ListOp.twoLists := by
    simp [ListOp.twoLists, ListFamily.Legal, ListFamily.Allows, ListFamily.apply, ListFamily.empty,
      ListFamily.Holds, Function.update_apply]
    refine ⟨?_, ?_, ?_, 0, [2, 3], by simp, by simp⟩
    · intro x l hl
      grind
    · intro x l hl
      grind
    · intro x l hl
      grind
  obtain ⟨m', hrun, hshows, -⟩ :=
    ListHeader.run_shows .list ⟨fun _ => none, fun _ => none⟩ hlegal fun _ _ => trivial
  refine ⟨m', hrun, hshows.next 0 [] rfl, hshows.prev 1 [4] rfl, (hshows.deleted 2 ?_).1⟩
  simp [ListOp.twoLists, ListFamily.run, ListFamily.apply, ListFamily.empty]

end Ryze
