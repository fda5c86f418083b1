import Ryze.Eio.Operations
import Mathlib.Tactic.Abel

set_option autoImplicit false

/-! # What a request owns

A request owns the blocks its `ptr` slots and `errbuf` point to, and its own block; for `readv` and
`writev` also the buffers of the array. Each work function leaves the slots as it wants to find
them: every block it frees leaves its slot, and a block that stays has one slot. So the generic
`EIO_REQ_FREE` behind the callback frees nothing a second time. -/

namespace Ryze

open CLib Ownership

/-! ## The blocks of a request -/

def EioReq.slots (req : EioReq) : Multiset Nat :=
  own (req.ptr 0) + own (req.ptr 1) + own (req.ptr 2)

/-- What `EIO_REQ_FREE` frees, the request being the block at `r`. -/
def EioReq.blocks (req : EioReq) (r : Nat) : Multiset Nat := req.slots + own req.errbuf + {r}

theorem slots_update (ptr : Fin 3 → Option Nat) (i : Fin 3) (p : Option Nat) :
    own (Function.update ptr i p 0) + own (Function.update ptr i p 1)
        + own (Function.update ptr i p 2) + own (ptr i)
      = own (ptr 0) + own (ptr 1) + own (ptr 2) + own p := by
  match i with
  | 0 =>
      simp [Function.update]
      abel
  | 1 =>
      simp [Function.update]
      abel
  | 2 =>
      simp [Function.update]
      abel

/-- `errnum` is set exactly when `errbuf` is. -/
def EioReq.ErrorSet (req : EioReq) : Prop := req.errnum ≠ 0 ↔ req.errbuf ≠ none

/-! ## What a step of a work function keeps -/

namespace EioState

/-- From `s` to `s'` the request goes on owning what it owns. -/
structure Works (s s' : EioState) : Prop where
  transfer : ∀ r, Transfer s.heap (s.req.blocks r) s'.heap (s'.req.blocks r)
  errorSet : s.req.ErrorSet → s'.req.ErrorSet
  work : s'.req.work = s.req.work

variable {s s' s'' : EioState}

theorem Works.refl (s : EioState) : s.Works s := ⟨fun _ => Transfer.refl _ _, id, rfl⟩

theorem Works.trans (h : s.Works s') (h' : s'.Works s'') : s.Works s'' :=
  ⟨fun r => (h.transfer r).trans (h'.transfer r), fun he => h'.errorSet (h.errorSet he),
    h'.work.trans h.work⟩

theorem Works.trap (s : EioState) (call : Syscall) : s.Works (s.trap call) :=
  ⟨fun _ => Transfer.refl _ _, id, rfl⟩

theorem Works.setRet (s : EioState) (ret : Int) : s.Works (s.setRet ret) :=
  ⟨fun _ => Transfer.refl _ _, id, rfl⟩

/-- The new buffer takes the place of what was in `errbuf`. -/
theorem Works.seterr (s : EioState) (e : SysError) : s.Works (s.seterr e) where
  transfer := by
    intro r
    refine (Transfer.drop s.heap (own s.req.errbuf) (s.req.slots + {r})).seq 0
      (Transfer.alloc s.heap (errText e)) (s.req.slots + {r}) ?_ ?_ ?_
    · rw [EioReq.blocks]
      abel
    · abel
    · simp only [EioReq.blocks, EioReq.slots, EioState.seterr, own_some]
      abel
  errorSet := fun _ => ⟨fun _ => Option.some_ne_none _, fun _ => e.errno_ne⟩
  work := rfl

theorem giveUp_self (s : EioState) (i : Fin 3) : (s.giveUp i).req.ptr i = none := by
  simp [EioState.giveUp, setPtr]

/-- A block that is freed leaves its slot. -/
theorem Works.giveUp (s : EioState) (i : Fin 3) : s.Works (s.giveUp i) where
  transfer := by
    intro r
    have hslots := slots_update s.req.ptr i none
    rw [own_none, add_zero] at hslots
    refine ((Transfer.free s.heap (s.req.ptr i)).frame ((s.giveUp i).req.blocks r)).congr ?_ ?_
    · simp only [EioReq.blocks, EioReq.slots, EioState.giveUp, setPtr, free]
      rw [← hslots]
      abel
    · exact zero_add _
  errorSet := id
  work := rfl

theorem Transfer.fillAt (h : Heap Object) (data : List UInt8) (p : Option Nat) :
    Transfer h (own p) (fillAt h data p) (own p) := by
  cases p with
  | none => exact Transfer.refl _ _
  | some a => exact Transfer.modify _ _ _

/-- A request's slot and the rest of what it owns. -/
theorem blocks_eq_slot (req : EioReq) (i : Fin 3) (r : Nat) :
    ∃ rest, req.blocks r = own (req.ptr i) + rest := by
  match i with
  | 0 =>
      exact ⟨own (req.ptr 1) + own (req.ptr 2) + own req.errbuf + {r}, by
        simp only [EioReq.blocks, EioReq.slots]
        abel⟩
  | 1 =>
      exact ⟨own (req.ptr 0) + own (req.ptr 2) + own req.errbuf + {r}, by
        simp only [EioReq.blocks, EioReq.slots]
        abel⟩
  | 2 =>
      exact ⟨own (req.ptr 0) + own (req.ptr 1) + own req.errbuf + {r}, by
        simp only [EioReq.blocks, EioReq.slots]
        abel⟩

theorem Works.fill (s : EioState) (result : SysResult) (i : Fin 3) :
    s.Works (s.fill result i) := by
  cases result with
  | failure e => exact Works.refl s
  | success ret data =>
      refine ⟨fun r => ?_, id, rfl⟩
      obtain ⟨rest, hrest⟩ := blocks_eq_slot s.req i r
      exact ((Transfer.fillAt s.heap data (s.req.ptr i)).frame rest).congr hrest.symm hrest.symm

theorem Works.onError (s : EioState) (result : SysResult) {handle : EioState → EioState}
    (h : ∀ t : EioState, t.Works (handle t)) : s.Works (s.onError result handle) := by
  cases result with
  | success ret data => exact Works.refl s
  | failure e => exact (Works.seterr s e).trans (h _)

/-! ## The families -/

theorem Works.withoutSlot (s : EioState) (call : Syscall) (result : SysResult) :
    s.Works (s.withoutSlot call result) :=
  (Works.trap s call).trans (Works.onError _ result Works.refl)

theorem Works.withSlot (s : EioState) (call : Syscall) (result : SysResult) :
    s.Works (s.withSlot call result) :=
  (Works.withoutSlot s call result).trans (Works.giveUp _ 0)

/-- The two slots may as well be cleared one after the other. -/
theorem withTwoSlots_eq (s : EioState) (call : Syscall) (result : SysResult) :
    s.withTwoSlots call result = ((s.withoutSlot call result).giveUp 0).giveUp 1 := rfl

theorem Works.withTwoSlots (s : EioState) (call : Syscall) (result : SysResult) :
    s.Works (s.withTwoSlots call result) := by
  rw [withTwoSlots_eq]
  exact (Works.withoutSlot s call result).trans ((Works.giveUp _ 0).trans (Works.giveUp _ 1))

/-- A buffer that is kept unless the call failed. -/
theorem Works.keepUnless (s : EioState) (result : SysResult) (i : Fin 3) :
    s.Works ((s.fill result i).onError result (.giveUp i)) :=
  (Works.fill s result i).trans (Works.onError _ result fun t => Works.giveUp t i)

/-! ## The functions with a body of their own -/

theorem Works.eioOpen (result : SysResult) (s : EioState) : s.Works (eioOpen result s) :=
  (Works.trap s _).trans ((Works.setRet _ _).trans
    ((Works.onError _ result Works.refl).trans (Works.giveUp _ 0)))

theorem Works.eioRead (result : SysResult) (s : EioState) : s.Works (eioRead result s) :=
  (Works.trap s _).trans ((Works.setRet _ _).trans (Works.keepUnless _ result 0))

theorem Works.eioWrite (result : SysResult) (s : EioState) : s.Works (eioWrite result s) :=
  (Works.trap s _).trans ((Works.setRet _ _).trans
    (Works.onError _ result fun t => Works.giveUp t 0))

theorem Works.eioReadlink (result : SysResult) (s : EioState) : s.Works (eioReadlink result s) :=
  (Works.trap s _).trans ((Works.setRet _ _).trans
    ((Works.keepUnless _ result 1).trans (Works.giveUp _ 0)))

theorem Works.eioStat (result : SysResult) (s : EioState) : s.Works (eioStat result s) :=
  (Works.trap s _).trans ((Works.keepUnless _ result 1).trans (Works.giveUp _ 0))

/-- A slot that moves to the place of a block that is freed. -/
theorem Works.move (t : EioState) :
    t.Works (((t.free 0).setPtr 0 (t.req.ptr 1)).setPtr 1 none) where
  transfer := by
    intro r
    refine ((Transfer.free t.heap (t.req.ptr 0)).frame
      (own (t.req.ptr 1) + own (t.req.ptr 2) + own t.req.errbuf + {r})).congr ?_ ?_
    · simp only [EioReq.blocks, EioReq.slots]
      abel
    · simp [EioReq.blocks, EioReq.slots, setPtr, EioState.free, Function.update]
  errorSet := id
  work := rfl

theorem Works.eioLstat (result : SysResult) (s : EioState) : s.Works (eioLstat result s) :=
  (Works.trap s _).trans ((Works.keepUnless _ result 1).trans (Works.move _))

theorem Works.eioOpendir (result : SysResult) (s : EioState) : s.Works (eioOpendir result s) := by
  refine (Works.trap s (.opendir (s.path 0))).trans ?_
  cases result with
  | failure e => exact (Works.seterr _ e).trans (Works.giveUp _ 0)
  | success ret data =>
      refine ⟨fun r => ?_, id, rfl⟩
      refine (Transfer.alloc s.heap .dir).seq (s.req.blocks r) (Transfer.free _ (s.req.ptr 0))
        ({s.heap.next} + own (s.req.ptr 1) + own (s.req.ptr 2) + own s.req.errbuf + {r})
        (zero_add _) ?_ ?_
      · simp only [EioReq.blocks, EioReq.slots]
        abel
      · simp [EioReq.blocks, EioReq.slots, Ryze.eioOpendir, setPtr, EioState.free, EioState.trap,
          Function.update]

/-- A block that `realpath` returned is nobody's. -/
theorem Works.leak (s : EioState) (o : Object) : s.Works { s with heap := s.heap.alloc o } :=
  ⟨fun r => (Transfer.alloc s.heap o).seq (s.req.blocks r)
    (Transfer.drop _ {s.heap.next} (s.req.blocks r)) 0 (zero_add _) (add_zero _).symm (add_zero _),
    id, rfl⟩

theorem Works.eioRealpath (result : SysResult) (s : EioState) :
    s.Works (eioRealpath result s) := by
  refine (Works.trap s (.realpath (s.path 0) (s.req.ptr 1))).trans
    ((Works.fill _ result 1).trans ?_)
  refine Works.trans ?_ ((Works.onError _ result fun t => Works.giveUp t 1).trans
    (Works.giveUp _ 0))
  split
  · exact Works.leak _ _
  · exact Works.refl _

/-! ## Arrays of buffers -/

/-- What the entries of an array own. -/
def ownBases (entries : List Iovec) : Multiset Nat := (entries.map fun v => own v.base).sum

theorem ownBases_cons (v : Iovec) (entries : List Iovec) :
    ownBases (v :: entries) = own v.base + ownBases entries := by
  rw [ownBases, List.map_cons, List.sum_cons]
  rfl

theorem Transfer.scatter (entries : List Iovec) (data : List UInt8) (h : Heap Object) :
    Transfer h (ownBases entries) (scatter entries data h) (ownBases entries) := by
  induction entries generalizing data h with
  | nil => exact Transfer.refl _ _
  | cons v entries ih =>
      rw [ownBases_cons]
      exact (Transfer.fillAt h (data.take v.len) v.base).seq (ownBases entries)
        (ih (data.drop v.len) _) (own v.base) rfl (add_comm _ _) (add_comm _ _)

/-- The loop frees what the entries from `i` on own, and does not lose the array on the way. -/
theorem freeBases_spec (entries : List Iovec) (a : Nat) (fs : Multiset Nat) (left i : Nat)
    (s : EioState) (hptr : s.req.ptr 0 = some a)
    (harray : s.heap.objs a = some (.iovecs entries)) (hleft : i + left ≤ entries.length)
    (hs : s.heap.Sound)
    (ho : s.heap.Owns (ownBases ((entries.drop i).take left) + ({a} + fs))) :
    ∃ h', s.freeBases left i = .ok { s with heap := h' } ∧ h'.Sound ∧ h'.Owns ({a} + fs) := by
  induction left generalizing i s with
  | zero =>
      refine ⟨s.heap, rfl, hs, ?_⟩
      rw [List.take_zero] at ho
      exact ho.right
  | succ left ih =>
      have hi : i < entries.length := by omega
      have hiovecs : s.iovecs = entries := by
        rw [iovecs, hptr, Option.bind_some, harray]
      have hentry : s.iovecs[i]? = some entries[i] := by
        rw [hiovecs, List.getElem?_eq_getElem hi]
      rw [List.drop_eq_getElem_cons hi, List.take_succ_cons, ownBases_cons, add_assoc] at ho
      obtain ⟨hs', ho', hsame⟩ := Transfer.free s.heap entries[i].base _ hs ho
      rw [zero_add] at ho'
      have harray' := (hsame a (by simp)).trans harray
      obtain ⟨h', hrun, hsound, howns⟩ := ih (i + 1)
        { s with heap := s.heap.free entries[i].base } hptr harray' (by omega) hs' ho'
      refine ⟨h', ?_, hsound, howns⟩
      rw [freeBases, hentry]
      exact hrun

/-! ## The invariant of a request -/

/-- The buffers of the array that `readv` and `writev` work on. -/
def bases (s : EioState) : Multiset Nat :=
  if s.req.work.isVector then ownBases (s.iovecs.take (s.req.args 1).count.toNat) else 0

/-- Each block a slot points to is live and owned by that slot alone, `others` being what is owned
    elsewhere; an array has the entries that are counted; and `errnum` and `errbuf` agree. -/
structure Held (s : EioState) (r : Nat) (others : Multiset Nat) : Prop where
  sound : s.heap.Sound
  owns : s.heap.Owns (s.req.blocks r + s.bases + others)
  errorSet : s.req.ErrorSet
  array : s.req.work.isVector → s.req.ptr 0 ≠ none →
    (s.req.args 1).count.toNat ≤ s.iovecs.length

variable {r : Nat} {others : Multiset Nat}

theorem bases_of_not {s : EioState} (h : s.req.work.isVector = false) : s.bases = 0 := by
  rw [bases, h]
  rfl

theorem bases_of_none {s : EioState} (h : s.req.ptr 0 = none) : s.bases = 0 := by
  have hiovecs : s.iovecs = [] := by rw [iovecs, h, Option.bind_none]
  rw [bases, hiovecs, List.take_nil]
  exact ite_self _

/-- What keeps a request's blocks keeps the invariant where there is no array. -/
theorem Held.works {s s' : EioState} (h : s.Held r others) (hw : s.Works s')
    (hvector : s.req.work.isVector = false) : s'.Held r others := by
  have hvector' : s'.req.work.isVector = false := by rw [hw.work]; exact hvector
  have howns := h.owns
  rw [bases_of_not hvector, add_zero] at howns
  obtain ⟨hsound', howns', _⟩ := hw.transfer r others h.sound howns
  refine ⟨hsound', ?_, hw.errorSet h.errorSet, fun hv => ?_⟩
  · rw [bases_of_not hvector', add_zero]
    exact howns'
  · rw [hvector'] at hv
    cases hv

/-- Without its array a request has no buffers left. -/
theorem Held.without {s : EioState} (hsound : s.heap.Sound)
    (howns : s.heap.Owns (s.req.blocks r + others)) (herror : s.req.ErrorSet)
    (hnone : s.req.ptr 0 = none) : s.Held r others :=
  ⟨hsound, by rw [bases_of_none hnone, add_zero]; exact howns, herror,
    fun _ hsome => absurd hnone hsome⟩

theorem iovecs_congr (s s' : EioState) (hptr : s'.req.ptr 0 = s.req.ptr 0)
    (hobjs : ∀ a, s.req.ptr 0 = some a → s'.heap.objs a = s.heap.objs a) :
    s'.iovecs = s.iovecs := by
  rw [iovecs, iovecs, hptr]
  cases h : s.req.ptr 0 with
  | none => rfl
  | some a => rw [Option.bind_some, Option.bind_some, hobjs a h]

theorem mem_blocks {req : EioReq} {a r : Nat} (h : req.ptr 0 = some a) : a ∈ req.blocks r := by
  simp [EioReq.blocks, EioReq.slots, h]

/-- `readv` fills the buffers and leaves the array. -/
theorem Held.scatter {s : EioState} (h : s.Held r others) (hvector : s.req.work.isVector = true)
    (data : List UInt8) {h' : Heap Object}
    (hh : h' = EioState.scatter (s.iovecs.take (s.req.args 1).count.toNat) data s.heap) :
    EioState.Held { s with heap := h' } r others := by
  have hbases : s.bases = ownBases (s.iovecs.take (s.req.args 1).count.toNat) := by
    rw [bases, if_pos hvector]
  have howns := h.owns
  rw [hbases, add_comm (s.req.blocks r), add_assoc] at howns
  obtain ⟨hsound', howns', hsame⟩ := Transfer.scatter _ data s.heap _ h.sound howns
  rw [← hh] at hsound' howns' hsame
  have hiovecs : EioState.iovecs { s with heap := h' } = s.iovecs :=
    iovecs_congr s _ rfl fun a ha => hsame a (Multiset.mem_add.2 (Or.inl (mem_blocks ha)))
  refine ⟨hsound', ?_, h.errorSet, fun _ hsome => ?_⟩
  · rw [bases, if_pos hvector, hiovecs, add_comm (EioReq.blocks _ r), add_assoc]
    exact howns'
  · rw [hiovecs]
    exact h.array hvector hsome

/-- The buffer of the error text does not move the array. -/
theorem Held.seterr {s : EioState} (h : s.Held r others) (e : SysError) :
    (s.seterr e).Held r others ∧ (s.seterr e).iovecs = s.iovecs := by
  have howns := h.owns
  have hsplit : s.req.blocks r + s.bases + others
      = own s.req.errbuf + (s.req.slots + {r} + s.bases + others) := by
    rw [EioReq.blocks]
    abel
  rw [hsplit] at howns
  obtain ⟨hsound', howns', hsame⟩ :=
    Transfer.alloc s.heap (errText e) _ h.sound (by rw [zero_add]; exact howns.right)
  have hiovecs : (s.seterr e).iovecs = s.iovecs := iovecs_congr s _ rfl fun a ha =>
    hsame a (by simp [EioReq.slots, ha])
  have hbases : (s.seterr e).bases = s.bases := by
    rw [bases, bases, hiovecs]
    rfl
  refine ⟨⟨hsound', ?_, (Works.seterr s e).errorSet h.errorSet, fun hv hsome => ?_⟩, hiovecs⟩
  · rw [hbases]
    have hnew : (s.seterr e).req.blocks r + s.bases + others
        = {s.heap.next} + (s.req.slots + {r} + s.bases + others) := by
      simp only [EioReq.blocks, EioReq.slots, EioState.seterr, own_some]
      abel
    rw [hnew]
    exact howns'
  · rw [hiovecs]
    exact h.array hv hsome

/-- A request whose buffers are freed gives up the array, as `EIO_REQ_FREE` would. -/
theorem Held.giveUp {s : EioState} (hsound : s.heap.Sound)
    (howns : s.heap.Owns (s.req.blocks r + others)) (herror : s.req.ErrorSet) :
    (s.giveUp 0).Held r others := by
  obtain ⟨hsound', howns', _⟩ := (Works.giveUp s 0).transfer r others hsound howns
  exact Held.without hsound' howns' herror (giveUp_self s 0)

/-- An array that has entries is what its pointer leads to. -/
theorem iovecs_block {s : EioState} {a : Nat} (hptr : s.req.ptr 0 = some a)
    (hpos : 0 < s.iovecs.length) : s.heap.objs a = some (.iovecs s.iovecs) := by
  rw [iovecs, hptr, Option.bind_some] at hpos ⊢
  split
  · next entries hobjs => exact hobjs
  · next hno =>
      split at hpos
      · next entries hobjs => exact absurd hobjs (hno entries)
      · cases hpos

/-- The buffers of an array with entries are freed, then the array. -/
theorem Held.freeBases {s : EioState} (h : s.Held r others) (hvector : s.req.work.isVector = true)
    {a : Nat} (hptr : s.req.ptr 0 = some a) (hcount : (s.req.args 1).count.toNat ≠ 0) :
    ∃ h', s.freeBases (s.req.args 1).count.toNat 0 = .ok { s with heap := h' } ∧
      (EioState.giveUp 0 { s with heap := h' }).Held r others := by
  have hlen := h.array hvector (by rw [hptr]; exact Option.some_ne_none a)
  have harray := iovecs_block hptr (by omega)
  have hbases : s.bases = ownBases ((s.iovecs.drop 0).take (s.req.args 1).count.toNat) := by
    rw [bases, List.drop_zero]
    exact if_pos hvector
  obtain ⟨rest, hrest⟩ : ∃ rest, s.req.blocks r = {a} + rest := by
    obtain ⟨rest, hrest⟩ := blocks_eq_slot s.req 0 r
    exact ⟨rest, by rw [hrest]; exact congrArg (own · + rest) hptr⟩
  have howns := h.owns
  rw [hbases, hrest, add_comm ({a} + rest), add_assoc, add_assoc] at howns
  obtain ⟨h', hrun, hsound', howns'⟩ := freeBases_spec s.iovecs a (rest + others)
    (s.req.args 1).count.toNat 0 s hptr harray (by omega) h.sound howns
  refine ⟨h', hrun, Held.giveUp hsound' ?_ h.errorSet⟩
  simp only
  rw [hrest, add_assoc]
  exact howns'

/-- A failed `readv` or `writev` frees the buffers and the array; only a count without an array
    stops it, before anything is freed. -/
theorem Held.giveUpVector {s : EioState} (h : s.Held r others)
    (hvector : s.req.work.isVector = true) (e : SysError) :
    (∃ s', s.giveUpVector e = .ok s' ∧ s'.Held r others) ∨
    (s.req.ptr 0 = none ∧ 0 < (s.req.args 1).count ∧
      ∃ s', s.giveUpVector e = .error (.read, s') ∧ s'.heap.freed = s.heap.freed) := by
  obtain ⟨ht, hiovecs⟩ := h.seterr e
  by_cases hcount : ((s.seterr e).req.args 1).count.toNat = 0
  · refine Or.inl ⟨(s.seterr e).giveUp 0, ?_, Held.giveUp ht.sound ?_ ht.errorSet⟩
    · rw [EioState.giveUpVector, hcount]
      rfl
    · have howns := ht.owns
      rw [add_comm (EioReq.blocks _ r), add_assoc] at howns
      exact howns.right
  · cases hptr : s.req.ptr 0 with
    | none =>
        have hpos : 0 < (s.req.args 1).count.toNat := Nat.pos_of_ne_zero hcount
        refine Or.inr ⟨rfl, by omega, s.seterr e, ?_, rfl⟩
        obtain ⟨n, hn⟩ := Nat.exists_eq_succ_of_ne_zero hcount
        have hnil : (s.seterr e).iovecs = [] := by
          rw [hiovecs, iovecs, hptr, Option.bind_none]
        rw [EioState.giveUpVector, hn, EioState.freeBases, hnil]
        rfl
    | some a =>
        have hvector' : (s.seterr e).req.work.isVector = true := hvector
        have hptr' : (s.seterr e).req.ptr 0 = some a := hptr
        obtain ⟨h', hrun, hheld⟩ := ht.freeBases hvector' hptr' hcount
        refine Or.inl ⟨_, ?_, hheld⟩
        rw [EioState.giveUpVector, hrun]
        rfl

/-! ## Every work function -/

/-- Apart from `readv` and `writev` the work functions return. -/
theorem apply_works (result : SysResult) (s : EioState) {op : EioOp} (hop : op.isVector = false) :
    ∃ s', op.apply result s = .ok s' ∧ s.Works s' := by
  cases op with
  | access => exact ⟨_, rfl, Works.withSlot _ _ _⟩
  | chmod => exact ⟨_, rfl, Works.withSlot _ _ _⟩
  | chown => exact ⟨_, rfl, Works.withSlot _ _ _⟩
  | close => exact ⟨_, rfl, Works.withoutSlot _ _ _⟩
  | fchmod => exact ⟨_, rfl, Works.withoutSlot _ _ _⟩
  | fchown => exact ⟨_, rfl, Works.withoutSlot _ _ _⟩
  | fdatasync => exact ⟨_, rfl, Works.withoutSlot _ _ _⟩
  | fstat => exact ⟨_, rfl, (Works.trap _ _).trans (Works.keepUnless _ result 0)⟩
  | fsync => exact ⟨_, rfl, Works.withoutSlot _ _ _⟩
  | ftruncate => exact ⟨_, rfl, Works.withoutSlot _ _ _⟩
  | futimes => exact ⟨_, rfl, Works.withSlot _ _ _⟩
  | lchown => exact ⟨_, rfl, Works.withSlot _ _ _⟩
  | lutimes => exact ⟨_, rfl, Works.withTwoSlots _ _ _⟩
  | link => exact ⟨_, rfl, Works.withTwoSlots _ _ _⟩
  | lstat => exact ⟨_, rfl, Works.eioLstat _ _⟩
  | mkdir => exact ⟨_, rfl, Works.withSlot _ _ _⟩
  | mkdtemp => exact ⟨_, rfl, (Works.trap _ _).trans (Works.keepUnless _ result 0)⟩
  | «open» => exact ⟨_, rfl, Works.eioOpen _ _⟩
  | opendir => exact ⟨_, rfl, Works.eioOpendir _ _⟩
  | read => exact ⟨_, rfl, Works.eioRead _ _⟩
  | readlink => exact ⟨_, rfl, Works.eioReadlink _ _⟩
  | readv => cases hop
  | realpath => exact ⟨_, rfl, Works.eioRealpath _ _⟩
  | rename => exact ⟨_, rfl, Works.withTwoSlots _ _ _⟩
  | rmdir => exact ⟨_, rfl, Works.withSlot _ _ _⟩
  | stat => exact ⟨_, rfl, Works.eioStat _ _⟩
  | symlink => exact ⟨_, rfl, Works.withTwoSlots _ _ _⟩
  | truncate => exact ⟨_, rfl, Works.withSlot _ _ _⟩
  | unlink => exact ⟨_, rfl, Works.withSlot _ _ _⟩
  | utimes => exact ⟨_, rfl, Works.withTwoSlots _ _ _⟩
  | write => exact ⟨_, rfl, Works.eioWrite _ _⟩
  | writev => cases hop

/-- What the call returned is in none of the slots. -/
theorem Held.setRet {s : EioState} (h : s.Held r others) (call : Syscall) (ret : Int) :
    ((s.trap call).setRet ret).Held r others := by
  have hbases : ((s.trap call).setRet ret).bases = s.bases := by
    rw [bases, bases, iovecs_congr s ((s.trap call).setRet ret) rfl fun _ _ => rfl]
    rfl
  refine ⟨h.sound, ?_, h.errorSet, ?_⟩
  · rw [hbases]
    exact h.owns
  · rw [iovecs_congr s ((s.trap call).setRet ret) rfl fun _ _ => rfl]
    exact h.array

theorem Held.eioReadv {s : EioState} (h : s.Held r others) (hvector : s.req.work.isVector = true)
    (result : SysResult) :
    (∃ s', eioReadv result s = .ok s' ∧ s'.Held r others) ∨
    (s.req.ptr 0 = none ∧ 0 < (s.req.args 1).count ∧
      ∃ s', eioReadv result s = .error (.read, s') ∧ s'.heap.freed = s.heap.freed) := by
  have ht := h.setRet (.readv (s.req.args 0).fd (s.req.ptr 0) (s.req.args 1).count) result.ret
  cases result with
  | success ret data => exact Or.inl ⟨_, rfl, ht.scatter hvector data rfl⟩
  | failure e => exact ht.giveUpVector hvector e

theorem Held.eioWritev {s : EioState} (h : s.Held r others) (hvector : s.req.work.isVector = true)
    (result : SysResult) :
    (∃ s', eioWritev result s = .ok s' ∧ s'.Held r others) ∨
    (s.req.ptr 0 = none ∧ 0 < (s.req.args 1).count ∧
      ∃ s', eioWritev result s = .error (.read, s') ∧ s'.heap.freed = s.heap.freed) := by
  have ht := h.setRet (.writev (s.req.args 0).fd (s.req.ptr 0) (s.req.args 1).count) result.ret
  cases result with
  | success ret data => exact Or.inl ⟨_, rfl, ht⟩
  | failure e => exact ht.giveUpVector hvector e

/-- A work function keeps the invariant, or stops at a null array. -/
theorem Held.work {s : EioState} (h : s.Held r others) (result : SysResult) :
    (∃ s', s.work result = .ok s' ∧ s'.Held r others) ∨
    (s.req.work.isVector = true ∧ s.req.ptr 0 = none ∧ 0 < (s.req.args 1).count ∧
      ∃ s', s.work result = .error (.read, s') ∧ s'.heap.freed = s.heap.freed) := by
  cases hvector : s.req.work.isVector with
  | false =>
      obtain ⟨s', hrun, hworks⟩ := apply_works result s hvector
      exact Or.inl ⟨s', hrun, h.works hworks hvector⟩
  | true =>
      have hop : s.req.work = .readv ∨ s.req.work = .writev := by
        revert hvector
        cases s.req.work <;> decide
      rcases hop with hop | hop
      · rw [EioState.work, hop]
        exact (h.eioReadv hvector result).imp_right fun hstop => ⟨rfl, hstop⟩
      · rw [EioState.work, hop]
        exact (h.eioWritev hvector result).imp_right fun hstop => ⟨rfl, hstop⟩

end EioState

/-- `EIO_REQ_FREE` frees what the request owns. -/
theorem eioReqFree_transfer (r : Nat) (req : EioReq) (h : Heap Object) :
    Transfer h (req.blocks r) (eioReqFree r req h) 0 := by
  have hslots : Transfer h req.slots
      (((h.free (req.ptr 0)).free (req.ptr 1)).free (req.ptr 2)) 0 := by
    have hlast : Transfer (h.free (req.ptr 0)) (own (req.ptr 1) + own (req.ptr 2))
        (((h.free (req.ptr 0)).free (req.ptr 1)).free (req.ptr 2)) 0 :=
      (Transfer.free _ (req.ptr 1)).seq (own (req.ptr 2)) (Transfer.free _ (req.ptr 2)) 0 rfl
        (by abel) (add_zero _)
    refine (Transfer.free h (req.ptr 0)).seq (own (req.ptr 1) + own (req.ptr 2)) hlast 0 ?_ ?_
      (add_zero _)
    · rw [EioReq.slots]
      abel
    · abel
  have hrest := (Transfer.free (((h.free (req.ptr 0)).free (req.ptr 1)).free (req.ptr 2))
    req.errbuf).seq {r} (Transfer.free _ (some r)) 0 rfl (add_comm _ _) (add_zero _)
  refine hslots.seq (own req.errbuf + {r}) hrest 0 ?_ ?_ (add_zero _)
  · rw [EioReq.blocks]
    abel
  · abel

/-- The state in which a run ended, or stopped. -/
def EioRun.state : EioRun → EioState
  | .ok s => s
  | .error (_, s) => s

/-- Whatever the system call returns, a work function that was called on a request in order frees
    nothing twice, leaves the request in order, with errors set exactly where there is a text, and
    `EIO_REQ_FREE` frees nothing again. It returns, unless `readv` or `writev` failed on a null
    array with a positive count; then it stops before it frees anything. -/
theorem eio_owned {s : EioState} {r : Nat} {others : Multiset Nat} (h : s.Held r others)
    (result : SysResult) :
    (EioRun.state (s.work result)).heap.freed.Nodup ∧
    (∀ s', s.work result = .ok s' →
      s'.Held r others ∧ (eioReqFree r s'.req s'.heap).Sound ∧
        (eioReqFree r s'.req s'.heap).Owns (s'.bases + others)) ∧
    ∀ e s', s.work result = .error (e, s') →
      s.req.work.isVector = true ∧ s.req.ptr 0 = none ∧ 0 < (s.req.args 1).count ∧
        s'.heap.freed = s.heap.freed := by
  rcases h.work result with ⟨s', hrun, hheld⟩ | ⟨hvector, hnone, hcount, s', hrun, hfreed⟩
  · rw [hrun]
    refine ⟨hheld.sound.freed_nodup, ?_, fun e t ht => by cases ht⟩
    rintro t ht
    cases ht
    have howns := hheld.owns
    rw [add_assoc] at howns
    obtain ⟨hsound, howns', _⟩ :=
      eioReqFree_transfer r s'.req s'.heap (s'.bases + others) hheld.sound howns
    rw [zero_add] at howns'
    exact ⟨hheld, hsound, howns'⟩
  · rw [hrun]
    refine ⟨?_, fun t ht => (by cases ht), ?_⟩
    · simp only [EioRun.state]
      rw [hfreed]
      exact h.sound.freed_nodup
    · rintro e t ht
      cases ht
      exact ⟨hvector, hnone, hcount, hfreed⟩

/-- A `readv` into two buffers, in a heap of the two buffers, the array and the request. -/
def readvState : EioState where
  req := {
    args := fun i => if i = 1 then ⟨2, 0⟩ else ⟨0, 0⟩
    ret := 0
    ptr := fun i => if i = 0 then some 2 else none
    errnum := 0
    errbuf := none
    work := .readv
    callback := .callback1 }
  heap := (((Heap.empty.alloc (.bytes [none])).alloc (.bytes [none])).alloc
    (.iovecs [⟨some 0, 1⟩, ⟨some 1, 1⟩])).alloc .dir
  calls := []

theorem readvState_held : readvState.Held 3 0 := by
  obtain ⟨hs, ho, -⟩ :=
    Transfer.alloc Heap.empty (Object.bytes [none]) 0 Heap.Sound.empty Heap.Owns.zero
  obtain ⟨hs, ho, -⟩ := Transfer.alloc _ (Object.bytes [none]) _ hs (by rw [zero_add]; exact ho)
  obtain ⟨hs, ho, -⟩ := Transfer.alloc _ (Object.iovecs [⟨some 0, 1⟩, ⟨some 1, 1⟩]) _ hs
    (by rw [zero_add]; exact ho)
  obtain ⟨hs, ho, -⟩ := Transfer.alloc _ Object.dir _ hs (by rw [zero_add]; exact ho)
  refine ⟨hs, ?_, by simp [EioReq.ErrorSet, readvState], fun _ _ => by decide⟩
  have hblocks : readvState.req.blocks 3 + readvState.bases + 0
      = {3} + ({2} + ({1} + ({0} + 0))) := by decide
  rw [hblocks]
  exact ho

/-- `EBADF` -/
def badFile : SysError := ⟨9, bytes "Bad file descriptor", by decide, by decide⟩

/-- The failed call has the buffers freed, then the array; `EIO_REQ_FREE` frees the error text and
    the request. -/
theorem eio_owned_readv : ∃ s', readvState.work (.failure badFile) = .ok s' ∧
    s'.heap.freed = [0, 1, 2] ∧ (eioReqFree 3 s'.req s'.heap).freed = [0, 1, 2, 4, 3] ∧
    (eioReqFree 3 s'.req s'.heap).Sound :=
  ⟨_, rfl, rfl, rfl, ((eio_owned readvState_held (.failure badFile)).2.1 _ rfl).2.1⟩

end Ryze
