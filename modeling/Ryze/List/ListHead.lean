import Ryze.Lib.CRun
import Ryze.Lib.LinkRing

set_option autoImplicit false

/-! # The intrusive lists

`list.h` and `include/list.h` each have a `struct list_head` that is embedded in the objects of a
list and in its owner. The first header offers functions, the second macros that write the same four
links in another order. A pointer that may be `NULL` is an `Option`, and following `NULL` ends the
run. -/

namespace Ryze

open CLib LinkRing

/-- The links of all nodes. -/
structure ListHeap (ν : Type) where
  next : ν → Option ν
  prev : ν → Option ν

variable {ν : Type} {m : ListHeap ν} {e h n p : ν}

/-! ## Reading and writing a link -/

def ListHeap.getNext (m : ListHeap ν) : Option ν → CRun (Option ν)
  | none => .error .read
  | some x => .ok (m.next x)

def ListHeap.getPrev (m : ListHeap ν) : Option ν → CRun (Option ν)
  | none => .error .read
  | some x => .ok (m.prev x)

variable [DecidableEq ν]

def ListHeap.setNext (m : ListHeap ν) (ptr value : Option ν) : CRun (ListHeap ν) :=
  match ptr with
  | none => .error .write
  | some x => .ok { m with next := Function.update m.next x value }

def ListHeap.setPrev (m : ListHeap ν) (ptr value : Option ν) : CRun (ListHeap ν) :=
  match ptr with
  | none => .error .write
  | some x => .ok { m with prev := Function.update m.prev x value }

/-! ## `list.h` -/

/-- `list_init`. -/
def listInit (m : ListHeap ν) (list : Option ν) : CRun (ListHeap ν) := do
  let m ← m.setNext list list
  m.setPrev list list

/-- `__list_add`. -/
def listAddBetween (m : ListHeap ν) (list prev next : Option ν) : CRun (ListHeap ν) := do
  let m ← m.setPrev next list
  let m ← m.setNext list next
  let m ← m.setPrev list prev
  m.setNext prev list

/-- `list_add`. -/
def listAdd (m : ListHeap ν) (list head : Option ν) : CRun (ListHeap ν) := do
  let next ← m.getNext head
  listAddBetween m list head next

/-- `list_add_tail`. -/
def listAddTail (m : ListHeap ν) (list head : Option ν) : CRun (ListHeap ν) := do
  let prev ← m.getPrev head
  listAddBetween m list prev head

/-- `__list_del`. -/
def listDelBetween (m : ListHeap ν) (prev next : Option ν) : CRun (ListHeap ν) := do
  let m ← m.setPrev next prev
  m.setNext prev next

/-- `list_del`. -/
def listDel (m : ListHeap ν) (entry : Option ν) : CRun (ListHeap ν) := do
  let prev ← m.getPrev entry
  let next ← m.getNext entry
  let m ← listDelBetween m prev next
  let m ← m.setNext entry none
  m.setPrev entry none

/-- `list_empty`. -/
def listEmpty (m : ListHeap ν) (head : Option ν) : CRun Bool := do
  let next ← m.getNext head
  return next == head

/-- `list_remove`. -/
def listRemove (m : ListHeap ν) (head : Option ν) : CRun (ListHeap ν × Option ν) := do
  if ← listEmpty m head then
    return (m, none)
  let entry ← m.getNext head
  let m ← listDel m entry
  return (m, entry)

/-- `list_remove_tail`. -/
def listRemoveTail (m : ListHeap ν) (head : Option ν) : CRun (ListHeap ν × Option ν) := do
  if ← listEmpty m head then
    return (m, none)
  let entry ← m.getPrev head
  let m ← listDel m entry
  return (m, entry)

/-! ## `include/list.h`

The macros' arguments are evaluated once here: they are pointer variables. Each `->` of a macro is
a load of its own, also when the link was loaded before. -/

namespace Include

/-- `LIST_INIT`. -/
def listInit (m : ListHeap ν) (head : Option ν) : CRun (ListHeap ν) := do
  let m ← m.setPrev head head
  m.setNext head head

/-- `LIST_ADD`. -/
def listAdd (m : ListHeap ν) (head entry : Option ν) : CRun (ListHeap ν) := do
  let m ← m.setPrev entry head
  let m ← m.setNext entry (← m.getNext head)
  let m ← m.setPrev (← m.getNext head) entry
  m.setNext head entry

/-- `LIST_ADD_TAIL`. -/
def listAddTail (m : ListHeap ν) (head entry : Option ν) : CRun (ListHeap ν) := do
  let m ← m.setPrev entry (← m.getPrev head)
  let m ← m.setNext entry head
  let m ← m.setNext (← m.getPrev head) entry
  m.setPrev head entry

/-- `LIST_DEL`. -/
def listDel (m : ListHeap ν) (entry : Option ν) : CRun (ListHeap ν) := do
  let m ← m.setNext (← m.getPrev entry) (← m.getNext entry)
  let m ← m.setPrev (← m.getNext entry) (← m.getPrev entry)
  let m ← m.setPrev entry none
  m.setNext entry none

/-- `LIST_EMPTY`. -/
def listEmpty (m : ListHeap ν) (head : Option ν) : CRun Bool := do
  return (← m.getNext head) == head

end Include

/-! ## What the writes come to

Both headers leave the same heap, as long as the node that comes or goes is not one of its
neighbours. -/

/-- `e` put between `p` and `n`. -/
def ListHeap.splice (m : ListHeap ν) (p e n : ν) : ListHeap ν where
  next := Function.update (Function.update m.next e (some n)) p (some e)
  prev := Function.update (Function.update m.prev n (some e)) e (some p)

/-- `e` taken out from between `p` and `n`. -/
def ListHeap.unsplice (m : ListHeap ν) (p e n : ν) : ListHeap ν where
  next := Function.update (Function.update m.next p (some n)) e none
  prev := Function.update (Function.update m.prev n (some p)) e none

/-- `h` as the head of an empty list. -/
def ListHeap.close (m : ListHeap ν) (h : ν) : ListHeap ν where
  next := Function.update m.next h (some h)
  prev := Function.update m.prev h (some h)

theorem ListHeap.spliced (hep : e ≠ p) (hen : e ≠ n) :
    Spliced m.next m.prev (m.splice p e n).next (m.splice p e n).prev p e n := by
  constructor
  · exact Function.update_self ..
  · exact (Function.update_of_ne hep ..).trans (Function.update_self ..)
  · exact Function.update_self ..
  · exact (Function.update_of_ne hen.symm ..).trans (Function.update_self ..)
  · intro x hxp hxe
    exact (Function.update_of_ne hxp ..).trans (Function.update_of_ne hxe ..)
  · intro x hxn hxe
    exact (Function.update_of_ne hxe ..).trans (Function.update_of_ne hxn ..)

theorem ListHeap.unspliced (hep : e ≠ p) (hen : e ≠ n) :
    Unspliced m.next m.prev (m.unsplice p e n).next (m.unsplice p e n).prev p e n := by
  constructor
  · exact (Function.update_of_ne hep.symm ..).trans (Function.update_self ..)
  · exact (Function.update_of_ne hen.symm ..).trans (Function.update_self ..)
  · exact Function.update_self ..
  · exact Function.update_self ..
  · intro x hxp hxe
    exact (Function.update_of_ne hxe ..).trans (Function.update_of_ne hxp ..)
  · intro x hxn hxe
    exact (Function.update_of_ne hxe ..).trans (Function.update_of_ne hxn ..)

theorem listInit_eq : listInit m (some h) = .ok (m.close h) := rfl

theorem listAdd_eq (hn : m.next h = some n) :
    listAdd m (some e) (some h) = .ok (m.splice h e n) := by
  simp only [listAdd, ListHeap.getNext, hn, ok_bind]
  rfl

theorem listAddTail_eq (hp : m.prev h = some p) :
    listAddTail m (some e) (some h) = .ok (m.splice p e h) := by
  simp only [listAddTail, ListHeap.getPrev, hp, ok_bind]
  rfl

theorem listDel_eq (hp : m.prev e = some p) (hn : m.next e = some n) :
    listDel m (some e) = .ok (m.unsplice p e n) := by
  simp only [listDel, ListHeap.getPrev, ListHeap.getNext, hp, hn, ok_bind]
  rfl

theorem listEmpty_eq : listEmpty m (some h) = .ok (m.next h == some h) := rfl

theorem listRemove_empty (hh : m.next h = some h) : listRemove m (some h) = .ok (m, none) := by
  simp only [listRemove, listEmpty_eq, hh, ok_bind, beq_self_eq_true, if_true]
  rfl

theorem listRemove_eq (hne : e ≠ h) (he : m.next h = some e) (hp : m.prev e = some p)
    (hn : m.next e = some n) : listRemove m (some h) = .ok (m.unsplice p e n, some e) := by
  have hbeq : (some e == some h) = false := by simpa using hne
  simp only [listRemove, listEmpty_eq, he, hbeq, ok_bind]
  simp [ListHeap.getNext, he, listDel_eq hp hn]

theorem listRemoveTail_empty (hh : m.next h = some h) :
    listRemoveTail m (some h) = .ok (m, none) := by
  simp only [listRemoveTail, listEmpty_eq, hh, ok_bind, beq_self_eq_true, if_true]
  rfl

theorem listRemoveTail_eq (hne : m.next h ≠ some h) (he : m.prev h = some e)
    (hp : m.prev e = some p) (hn : m.next e = some n) :
    listRemoveTail m (some h) = .ok (m.unsplice p e n, some e) := by
  have hbeq : (m.next h == some h) = false := by simpa using hne
  simp only [listRemoveTail, listEmpty_eq, hbeq, ok_bind]
  simp [ListHeap.getPrev, he, listDel_eq hp hn]

namespace Include

theorem listInit_eq : listInit m (some h) = .ok (m.close h) := rfl

theorem listAdd_eq (heh : e ≠ h) (hen : e ≠ n) (hn : m.next h = some n) :
    listAdd m (some h) (some e) = .ok (m.splice h e n) := by
  -- `head->next` is loaded a second time after `entry->next` was written
  have hagain : Function.update m.next e (some n) h = some n := by
    rw [Function.update_of_ne heh.symm, hn]
  simp only [listAdd, ListHeap.setPrev, ListHeap.getNext, ListHeap.setNext, ok_bind, hn, hagain,
    ListHeap.splice]
  rw [Function.update_comm hen]

theorem listAddTail_eq (heh : e ≠ h) (hp : m.prev h = some p) :
    listAddTail m (some h) (some e) = .ok (m.splice p e h) := by
  have hagain : Function.update m.prev e (some p) h = some p := by
    rw [Function.update_of_ne heh.symm, hp]
  simp only [listAddTail, ListHeap.getPrev, ListHeap.setPrev, ListHeap.setNext, ok_bind, hp, hagain,
    ListHeap.splice]
  rw [Function.update_comm heh]

theorem listDel_eq (hep : e ≠ p) (hp : m.prev e = some p) (hn : m.next e = some n) :
    listDel m (some e) = .ok (m.unsplice p e n) := by
  have hagain : Function.update m.next p (some n) e = some n := by
    rw [Function.update_of_ne hep, hn]
  simp only [listDel, ListHeap.getPrev, ListHeap.getNext, ListHeap.setPrev, ListHeap.setNext,
    ok_bind, hp, hn, hagain, ListHeap.unsplice]

theorem listEmpty_eq : listEmpty m (some h) = .ok (m.next h == some h) := rfl

end Include

end Ryze
