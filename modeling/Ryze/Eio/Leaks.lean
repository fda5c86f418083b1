import Ryze.Eio.Ownership
import Ryze.Lib.Leaks

set_option autoImplicit false

/-! # What a request leaves behind

A request comes into its work function without an error text. What the function and `EIO_REQ_FREE`
leave of its blocks is nothing, but for the buffers of an array that `readv` or `writev` did not
fail on, which are the callback's. Only `realpath` forgets a block: the one that `realpath(3)`
allocates when it is given none. -/

namespace Ryze

open CLib Ownership

/-- The system call did not fail. -/
def SysResult.isSuccess : SysResult → Bool
  | .success _ _ => true
  | .failure _ => false

namespace EioState

/-! ## Steps of a work function -/

/-- From `s` to `s'` no block of the request is left behind. -/
def Spares (s s' : EioState) : Prop :=
  ∀ r, Accounts s.heap (s.req.blocks r) s'.heap (s'.req.blocks r)

variable {s s' s'' : EioState}

theorem Spares.refl (s : EioState) : s.Spares s := fun _ => Accounts.refl _ _

theorem Spares.trans (h : s.Spares s') (h' : s'.Spares s'') : s.Spares s'' :=
  fun r => (h r).trans (h' r)

theorem Spares.trap (s : EioState) (call : Syscall) : s.Spares (s.trap call) :=
  fun _ => Accounts.refl _ _

theorem Spares.setRet (s : EioState) (ret : Int) : s.Spares (s.setRet ret) :=
  fun _ => Accounts.refl _ _

/-- The new text has no other to take the place of. -/
theorem Spares.seterr (h : s.req.errbuf = none) (e : SysError) : s.Spares (s.seterr e) := by
  intro r
  refine (Accounts.alloc s.heap (errText e)).seq (s.req.blocks r) (Accounts.refl _ _) 0 (zero_add _)
    (add_zero _).symm ?_
  simp only [EioReq.blocks, EioReq.slots, EioState.seterr, h, own_none, own_some]
  abel

theorem Spares.giveUp (s : EioState) (i : Fin 3) : s.Spares (s.giveUp i) := by
  intro r
  have hslots := slots_update s.req.ptr i none
  rw [own_none, add_zero] at hslots
  refine ((Accounts.free s.heap (s.req.ptr i)).frame ((s.giveUp i).req.blocks r)).congr ?_ ?_
  · simp only [EioReq.blocks, EioReq.slots, EioState.giveUp, setPtr, EioState.free]
    rw [← hslots]
    abel
  · exact zero_add _

theorem Spares.fill (s : EioState) (result : SysResult) (i : Fin 3) :
    s.Spares (s.fill result i) := by
  cases result with
  | failure e => exact Spares.refl s
  | success ret data =>
      intro r
      change Accounts s.heap (s.req.blocks r) (fillAt s.heap data (s.req.ptr i)) (s.req.blocks r)
      cases s.req.ptr i with
      | none => exact Accounts.refl _ _
      | some a => exact Accounts.modify _ _ _ _

theorem Spares.onError (h : s.req.errbuf = none) (result : SysResult)
    {handle : EioState → EioState} (hhandle : ∀ t : EioState, t.Spares (handle t)) :
    s.Spares (s.onError result handle) := by
  cases result with
  | success ret data => exact Spares.refl s
  | failure e => exact (Spares.seterr h e).trans (hhandle _)

/-! ## The families -/

theorem Spares.withoutSlot (h : s.req.errbuf = none) (call : Syscall) (result : SysResult) :
    s.Spares (s.withoutSlot call result) :=
  (Spares.trap s call).trans (Spares.onError (by exact h) result Spares.refl)

theorem Spares.withSlot (h : s.req.errbuf = none) (call : Syscall) (result : SysResult) :
    s.Spares (s.withSlot call result) :=
  (Spares.withoutSlot h call result).trans (Spares.giveUp _ 0)

theorem Spares.withTwoSlots (h : s.req.errbuf = none) (call : Syscall) (result : SysResult) :
    s.Spares (s.withTwoSlots call result) := by
  rw [withTwoSlots_eq]
  exact (Spares.withoutSlot h call result).trans ((Spares.giveUp _ 0).trans (Spares.giveUp _ 1))

/-- A buffer that is kept unless the call failed. -/
theorem Spares.keepUnless (h : s.req.errbuf = none) (result : SysResult) (i : Fin 3) :
    s.Spares ((s.fill result i).onError result (.giveUp i)) := by
  refine (Spares.fill s result i).trans (Spares.onError ?_ result fun t => Spares.giveUp t i)
  cases result <;> exact h

/-! ## The functions with a body of their own -/

theorem Spares.eioOpen (h : s.req.errbuf = none) (result : SysResult) :
    s.Spares (eioOpen result s) :=
  (Spares.trap s _).trans ((Spares.setRet _ _).trans
    ((Spares.onError (by exact h) result Spares.refl).trans (Spares.giveUp _ 0)))

theorem Spares.eioRead (h : s.req.errbuf = none) (result : SysResult) :
    s.Spares (eioRead result s) :=
  (Spares.trap s _).trans ((Spares.setRet _ _).trans (Spares.keepUnless (by exact h) result 0))

theorem Spares.eioWrite (h : s.req.errbuf = none) (result : SysResult) :
    s.Spares (eioWrite result s) :=
  (Spares.trap s _).trans ((Spares.setRet _ _).trans
    (Spares.onError (by exact h) result fun t => Spares.giveUp t 0))

theorem Spares.eioReadlink (h : s.req.errbuf = none) (result : SysResult) :
    s.Spares (eioReadlink result s) :=
  (Spares.trap s _).trans ((Spares.setRet _ _).trans
    ((Spares.keepUnless (by exact h) result 1).trans (Spares.giveUp _ 0)))

theorem Spares.eioStat (h : s.req.errbuf = none) (result : SysResult) :
    s.Spares (eioStat result s) :=
  (Spares.trap s _).trans ((Spares.keepUnless (by exact h) result 1).trans (Spares.giveUp _ 0))

/-- A slot that moves to the place of a block that is freed. -/
theorem Spares.move (t : EioState) :
    t.Spares (((t.free 0).setPtr 0 (t.req.ptr 1)).setPtr 1 none) := by
  intro r
  refine ((Accounts.free t.heap (t.req.ptr 0)).frame
    (own (t.req.ptr 1) + own (t.req.ptr 2) + own t.req.errbuf + {r})).congr ?_ ?_
  · simp only [EioReq.blocks, EioReq.slots]
    abel
  · simp [EioReq.blocks, EioReq.slots, setPtr, EioState.free, Function.update]

theorem Spares.eioLstat (h : s.req.errbuf = none) (result : SysResult) :
    s.Spares (eioLstat result s) :=
  (Spares.trap s _).trans ((Spares.keepUnless (by exact h) result 1).trans (Spares.move _))

theorem Spares.eioOpendir (h : s.req.errbuf = none) (result : SysResult) :
    s.Spares (eioOpendir result s) := by
  refine (Spares.trap s (.opendir (s.path 0))).trans ?_
  cases result with
  | failure e => exact (Spares.seterr (by exact h) e).trans (Spares.giveUp _ 0)
  | success ret data =>
      intro r
      refine (Accounts.alloc s.heap .dir).seq (s.req.blocks r) (Accounts.free _ (s.req.ptr 0))
        ({s.heap.next} + own (s.req.ptr 1) + own (s.req.ptr 2) + own s.req.errbuf + {r})
        (zero_add _) ?_ ?_
      · simp only [EioReq.blocks, EioReq.slots]
        abel
      · simp [EioReq.blocks, EioReq.slots, Ryze.eioOpendir, setPtr, EioState.free, EioState.trap,
          Function.update]

/-- `realpath` that is given a buffer, or fails. -/
theorem Spares.eioRealpath (h : s.req.errbuf = none) (result : SysResult)
    (hbuf : s.req.ptr 1 ≠ none ∨ result.isSuccess = false) : s.Spares (eioRealpath result s) := by
  refine (Spares.trap s (.realpath (s.path 0) (s.req.ptr 1))).trans
    ((Spares.fill _ result 1).trans ?_)
  have herrbuf :
      ((s.trap (.realpath (s.path 0) (s.req.ptr 1))).fill result 1).req.errbuf = none := by
    cases result <;> exact h
  cases result with
  | failure e =>
      exact (Spares.onError herrbuf _ fun t => Spares.giveUp t 1).trans (Spares.giveUp _ 0)
  | success ret data =>
      cases hptr : s.req.ptr 1 with
      | none =>
          rcases hbuf with hsome | hfail
          · exact absurd hptr hsome
          · cases hfail
      | some a =>
          simp only [Ryze.eioRealpath, EioState.fill, EioState.trap, EioState.onError, hptr]
          exact Spares.giveUp _ 0

/-! ## Arrays of buffers -/

/-- Freeing a block leaves the array as it is, or takes it away. -/
theorem iovecs_free (s : EioState) (p : Option Nat) :
    EioState.iovecs { s with heap := s.heap.free p } = s.iovecs ∨
      EioState.iovecs { s with heap := s.heap.free p } = [] := by
  cases p with
  | none => exact Or.inl rfl
  | some b =>
      cases hptr : s.req.ptr 0 with
      | none =>
          left
          simp only [iovecs, hptr, Option.bind_none]
      | some a =>
          by_cases ha : a = b
          · right
            simp only [iovecs, hptr, Option.bind_some, Heap.free, ha, Function.update_self]
          · left
            simp only [iovecs, hptr, Option.bind_some, Heap.free, Function.update_of_ne ha]

/-- A loop that returns has freed the buffers it was to free. -/
theorem freeBases_accounts {left i : Nat} {s s' : EioState} (hrun : s.freeBases left i = .ok s') :
    s'.req = s.req ∧
      Accounts s.heap (ownBases ((s.iovecs.drop i).take left)) s'.heap 0 := by
  induction left generalizing i s with
  | zero =>
      cases hrun
      rw [List.take_zero]
      exact ⟨rfl, Accounts.refl _ _⟩
  | succ left ih =>
      rw [freeBases] at hrun
      split at hrun
      · cases hrun
      · next v hentry =>
          obtain ⟨hlt, hv⟩ := List.getElem?_eq_some_iff.1 hentry
          obtain ⟨hreq, hrest⟩ := ih hrun
          refine ⟨hreq, ?_⟩
          rw [List.drop_eq_getElem_cons hlt, List.take_succ_cons, ownBases_cons, hv]
          have hfree := Accounts.free s.heap v.base
          rcases iovecs_free s v.base with hsame | hgone
          · rw [hsame] at hrest
            exact hfree.seq _ hrest 0 rfl (by rw [zero_add, add_zero]) (add_zero _)
          · cases left with
            | zero =>
                rw [List.take_zero] at hrest ⊢
                exact (hfree.trans hrest).congr (add_zero _).symm rfl
            | succ left =>
                -- there is no array left to go on with
                rw [freeBases, hgone] at hrun
                cases hrun

/-- What a failed `readv` or `writev` gives up is all it had. -/
theorem giveUpVector_accounts {s s' : EioState} {r : Nat} {others : Multiset Nat}
    (h : s.Held r others) (herrbuf : s.req.errbuf = none) (hvector : s.req.work.isVector = true)
    {e : SysError} (hrun : s.giveUpVector e = .ok s') :
    Accounts s.heap (s.req.blocks r + s.bases) s'.heap (s'.req.blocks r + s'.bases) := by
  obtain ⟨t, hfree, hrun⟩ : ∃ t, (s.seterr e).freeBases (s.req.args 1).count.toNat 0 = .ok t ∧
      t.giveUp 0 = s' := by
    rw [giveUpVector] at hrun
    cases ht : (s.seterr e).freeBases (s.req.args 1).count.toNat 0 with
    | error f =>
        rw [show ((s.seterr e).req.args 1).count = (s.req.args 1).count from rfl, ht] at hrun
        cases hrun
    | ok t =>
        rw [show ((s.seterr e).req.args 1).count = (s.req.args 1).count from rfl, ht] at hrun
        cases hrun
        exact ⟨t, rfl, rfl⟩
  subst hrun
  obtain ⟨hreq, hbases⟩ := freeBases_accounts hfree
  rw [List.drop_zero, (h.seterr e).2] at hbases
  have htext : Accounts s.heap (s.req.blocks r) (s.seterr e).heap ((s.seterr e).req.blocks r) :=
    Spares.seterr herrbuf e r
  have hgive : Accounts t.heap (t.req.blocks r) (t.giveUp 0).heap ((t.giveUp 0).req.blocks r) :=
    Spares.giveUp t 0 r
  rw [hreq] at hgive
  rw [bases_of_none (giveUp_self t 0), add_zero, bases, if_pos hvector]
  exact ((htext.frame _).trans ((hbases.frame _).congr (add_comm _ _) (zero_add _))).trans hgive

/-- Filling a block with bytes does not make an array of it. -/
theorem iovecs_fillAt (s : EioState) (data : List UInt8) (p : Option Nat) :
    EioState.iovecs { s with heap := fillAt s.heap data p } = s.iovecs := by
  cases p with
  | none => rfl
  | some b =>
      cases hptr : s.req.ptr 0 with
      | none => simp only [iovecs, hptr, Option.bind_none]
      | some a =>
          simp only [iovecs, hptr, Option.bind_some, fillAt]
          by_cases ha : a = b
          · rw [ha, Heap.modify_self]
            cases s.heap.objs b with
            | none => rfl
            | some o => cases o <;> rfl
          · rw [Heap.modify_of_ne _ _ ha]

theorem scatter_accounts (entries : List Iovec) (data : List UInt8) (s : EioState)
    (as : Multiset Nat) :
    Accounts s.heap as (EioState.scatter entries data s.heap) as ∧
      EioState.iovecs { s with heap := EioState.scatter entries data s.heap } = s.iovecs := by
  induction entries generalizing data s with
  | nil => exact ⟨Accounts.refl _ _, rfl⟩
  | cons v entries ih =>
      obtain ⟨haccounts, hsame⟩ := ih (data.drop v.len)
        { s with heap := fillAt s.heap (data.take v.len) v.base }
      have hfill : Accounts s.heap as (fillAt s.heap (data.take v.len) v.base) as := by
        cases v.base with
        | none => exact Accounts.refl _ _
        | some a => exact Accounts.modify _ _ _ _
      exact ⟨hfill.trans haccounts, hsame.trans (iovecs_fillAt s _ _)⟩

/-! ## Every work function -/

/-- Apart from `readv`, `writev` and a `realpath` without a buffer the work functions leave nothing
    behind. -/
theorem apply_spares {s s' : EioState} (h : s.req.errbuf = none) {op : EioOp}
    (hop : op.isVector = false) {result : SysResult}
    (hbuf : op = .realpath → s.req.ptr 1 ≠ none ∨ result.isSuccess = false)
    (hrun : op.apply result s = .ok s') : s.Spares s' := by
  cases op with
  | readv => cases hop
  | writev => cases hop
  | access | chmod | chown | futimes | lchown | mkdir | rmdir | truncate | unlink =>
      cases hrun
      exact Spares.withSlot h _ _
  | close | fchmod | fchown | fdatasync | fsync | ftruncate =>
      cases hrun
      exact Spares.withoutSlot h _ _
  | lutimes | link | rename | symlink | utimes =>
      cases hrun
      exact Spares.withTwoSlots h _ _
  | fstat | mkdtemp =>
      cases hrun
      exact (Spares.trap _ _).trans (Spares.keepUnless (by exact h) result 0)
  | lstat =>
      cases hrun
      exact Spares.eioLstat h result
  | «open» =>
      cases hrun
      exact Spares.eioOpen h result
  | opendir =>
      cases hrun
      exact Spares.eioOpendir h result
  | read =>
      cases hrun
      exact Spares.eioRead h result
  | readlink =>
      cases hrun
      exact Spares.eioReadlink h result
  | realpath =>
      cases hrun
      exact Spares.eioRealpath h result (hbuf rfl)
  | stat =>
      cases hrun
      exact Spares.eioStat h result
  | write =>
      cases hrun
      exact Spares.eioWrite h result

/-- `readv` and `writev`, the buffers of the array included. -/
theorem applyVector_accounts {s s' : EioState} {r : Nat} {others : Multiset Nat}
    (h : s.Held r others) (herrbuf : s.req.errbuf = none) (hvector : s.req.work.isVector = true)
    {result : SysResult} (hrun : s.work result = .ok s') :
    Accounts s.heap (s.req.blocks r + s.bases) s'.heap (s'.req.blocks r + s'.bases) := by
  have hop : s.req.work = .readv ∨ s.req.work = .writev := by
    revert hvector
    cases s.req.work <;> decide
  rcases hop with hop | hop
  · rw [work, hop] at hrun
    have ht := h.setRet (.readv (s.req.args 0).fd (s.req.ptr 0) (s.req.args 1).count) result.ret
    cases result with
    | failure e =>
        have haccounts := giveUpVector_accounts ht herrbuf hvector hrun
        exact haccounts
    | success ret data =>
        cases hrun
        obtain ⟨haccounts, hsame⟩ := scatter_accounts
          (s.iovecs.take (s.req.args 1).count.toNat) data s (s.req.blocks r + s.bases)
        refine haccounts.congr rfl (congrArg (s.req.blocks r + ·) ?_)
        exact congrArg (fun l => if s.req.work.isVector
          then ownBases (List.take (s.req.args 1).count.toNat l) else 0) hsame.symm
  · rw [work, hop] at hrun
    have ht := h.setRet (.writev (s.req.args 0).fd (s.req.ptr 0) (s.req.args 1).count) result.ret
    cases result with
    | failure e =>
        have haccounts := giveUpVector_accounts ht herrbuf hvector hrun
        exact haccounts
    | success ret data =>
        cases hrun
        exact Accounts.refl _ _

end EioState

/-! ## The whole way -/

/-- `EIO_REQ_FREE` leaves nothing of what the request owns. -/
theorem eioReqFree_accounts (r : Nat) (req : EioReq) (h : Heap Object) :
    Accounts h (req.blocks r) (eioReqFree r req h) 0 := by
  have hslots : Accounts h req.slots
      (((h.free (req.ptr 0)).free (req.ptr 1)).free (req.ptr 2)) 0 := by
    have hlast : Accounts (h.free (req.ptr 0)) (own (req.ptr 1) + own (req.ptr 2))
        (((h.free (req.ptr 0)).free (req.ptr 1)).free (req.ptr 2)) 0 :=
      (Accounts.free _ (req.ptr 1)).seq (own (req.ptr 2)) (Accounts.free _ (req.ptr 2)) 0 rfl
        (by abel) (add_zero _)
    refine (Accounts.free h (req.ptr 0)).seq (own (req.ptr 1) + own (req.ptr 2)) hlast 0 ?_ ?_
      (add_zero _)
    · rw [EioReq.slots]
      abel
    · abel
  have hrest := (Accounts.free (((h.free (req.ptr 0)).free (req.ptr 1)).free (req.ptr 2))
    req.errbuf).seq {r} (Accounts.free _ (some r)) 0 rfl (add_comm _ _) (add_zero _)
  refine hslots.seq (own req.errbuf + {r}) hrest 0 ?_ ?_ (add_zero _)
  · rw [EioReq.blocks]
    abel
  · abel

/-- `free` does not take a block it is not given. -/
theorem objs_free_of_ne {h : Heap Object} {a : Nat} {p : Option Nat} (ha : p ≠ some a) :
    (h.free p).objs a = h.objs a := by
  cases p with
  | none => rfl
  | some b => exact Function.update_of_ne (fun heq => ha (congrArg some heq.symm)) _ _

theorem objs_eioReqFree {r a : Nat} {req : EioReq} {h : Heap Object} (ha : a ∉ req.blocks r) :
    (eioReqFree r req h).objs a = h.objs a := by
  have hne : ∀ p, own p ≤ req.blocks r → p ≠ some a := fun p hle heq =>
    ha (Multiset.mem_of_le hle (by rw [heq]; exact Multiset.mem_singleton_self a))
  have hslot : ∀ i, own (req.ptr i) ≤ req.blocks r := fun i => by
    obtain ⟨rest, hrest⟩ := EioState.blocks_eq_slot req i r
    rw [hrest]
    exact Multiset.le_add_right _ _
  have herrbuf : own req.errbuf ≤ req.blocks r :=
    (Multiset.le_add_left _ req.slots).trans (Multiset.le_add_right _ _)
  have hself : own (some r) ≤ req.blocks r := Multiset.le_add_left _ _
  change ((((((h.free (req.ptr 0)).free (req.ptr 1)).free (req.ptr 2)).free req.errbuf).free
    (some r)).objs a) = _
  rw [objs_free_of_ne (hne _ hself), objs_free_of_ne (hne _ herrbuf),
    objs_free_of_ne (hne _ (hslot 2)), objs_free_of_ne (hne _ (hslot 1)),
    objs_free_of_ne (hne _ (hslot 0))]

/-- The request's `realpath` allocates, and nobody takes what it returns. -/
def Forgets (s : EioState) (result : SysResult) : Prop :=
  s.req.work = .realpath ∧ s.req.ptr 1 = none ∧ result.isSuccess = true

instance (s : EioState) (result : SysResult) : Decidable (Forgets s result) :=
  inferInstanceAs (Decidable (_ ∧ _ ∧ _))

/-- The block that a `realpath` without a buffer allocates outlives the request. -/
theorem forgets_live {s s' : EioState} {r : Nat} {others : Multiset Nat} (h : s.Held r others)
    (herrbuf : s.req.errbuf = none) {result : SysResult} (hforgets : Forgets s result)
    (hrun : s.work result = .ok s') :
    ((eioReqFree r s'.req s'.heap).objs s.heap.next).isSome ∧ s'.bases = 0 := by
  obtain ⟨hop, hnone, hsuccess⟩ := hforgets
  -- what the request owns is live, so it is older
  have hold : ∀ a ∈ s.req.blocks r, a ≠ s.heap.next := fun a ha heq => by
    have hlive := h.owns.live a (by
      rw [add_assoc]
      exact Multiset.mem_add.2 (Or.inl ha))
    exact Nat.lt_irrefl _ (heq ▸ h.sound.live_lt a hlive)
  have hptr : ∀ i, s.req.ptr i ≠ some s.heap.next := fun i heq => by
    obtain ⟨rest, hrest⟩ := EioState.blocks_eq_slot s.req i r
    exact hold s.heap.next (by rw [hrest, heq]; simp) rfl
  cases result with
  | failure e => cases hsuccess
  | success ret data =>
      rw [EioState.work, hop] at hrun
      simp only [EioOp.apply, Except.ok.injEq] at hrun
      have hs' : s' = { s with
          heap := (s.heap.alloc (.bytes (cells data))).free (s.req.ptr 0)
          req := { s.req with ptr := Function.update s.req.ptr 0 none }
          calls := s.calls ++ [.realpath (s.path 0) (s.req.ptr 1)] } := by
        rw [← hrun]
        simp only [eioRealpath, EioState.fill, EioState.trap, EioState.onError, hnone, fillAt,
          EioState.free, EioState.setPtr]
      subst hs'
      constructor
      · rw [objs_eioReqFree]
        · rw [objs_free_of_ne (hptr 0), Heap.alloc_self]
          rfl
        · intro hmem
          refine hold s.heap.next ?_ rfl
          simp only [EioReq.blocks, EioReq.slots, herrbuf, Multiset.mem_add, own_none] at hmem ⊢
          simp [Function.update] at hmem
          rcases hmem with (hmem | hmem) | hmem
          · exact Or.inl (Or.inl (Or.inl (Or.inr hmem)))
          · exact Or.inl (Or.inl (Or.inr hmem))
          · exact Or.inr (by simpa using hmem)
      · exact EioState.bases_of_not (by simp only [hop]; rfl)

/-- **No leaks.** A request comes in order and without an error text into its work function. When
    the function returns and `EIO_REQ_FREE` has run, what is live was live before and is nothing of
    the request's, or is a buffer of the array that was read or written: unless it is the block that
    `realpath` allocated. -/
theorem eio_leaks_iff {s s' : EioState} {r : Nat} {others : Multiset Nat} (h : s.Held r others)
    (herrbuf : s.req.errbuf = none) {result : SysResult} (hrun : s.work result = .ok s') :
    Accounts s.heap (s.req.blocks r + s.bases) (eioReqFree r s'.req s'.heap) s'.bases ↔
      ¬ Forgets s result := by
  constructor
  · intro haccounts hforgets
    obtain ⟨hlive, hbases⟩ := forgets_live h herrbuf hforgets hrun
    rcases haccounts s.heap.next hlive with hmem | ⟨hsome, _⟩
    · rw [hbases] at hmem
      exact Multiset.notMem_zero _ hmem
    · exact Nat.lt_irrefl _ (h.sound.live_lt _ hsome)
  · intro hnot
    have hwork :
        Accounts s.heap (s.req.blocks r + s.bases) s'.heap (s'.req.blocks r + s'.bases) := by
      cases hvector : s.req.work.isVector with
      | true => exact EioState.applyVector_accounts h herrbuf hvector hrun
      | false =>
          have hspares := EioState.apply_spares herrbuf hvector (fun hop => ?_) hrun
          · have hworks : s.Works s' := by
              obtain ⟨t, ht, hworks⟩ := EioState.apply_works result s hvector
              rw [show s.req.work.apply result s = .ok s' from hrun] at ht
              cases ht
              exact hworks
            rw [EioState.bases_of_not hvector,
              EioState.bases_of_not (by rw [hworks.work]; exact hvector), add_zero, add_zero]
            exact hspares r
          · by_contra hboth
            rw [not_or, not_ne_iff, Bool.not_eq_false] at hboth
            exact hnot ⟨hop, hboth⟩
    exact hwork.seq 0 (eioReqFree_accounts r s'.req s'.heap) s'.bases (add_zero _) (add_zero _)
      (zero_add _)

/-- The request of `readvState`: after a failed call nothing of it is left. -/
theorem eio_leaks_readv : ∃ s', readvState.work (.failure badFile) = .ok s' ∧
    Accounts readvState.heap (readvState.req.blocks 3 + readvState.bases)
      (eioReqFree 3 s'.req s'.heap) s'.bases := by
  have hrun : readvState.work (.failure badFile) = .ok _ := rfl
  exact ⟨_, hrun, (eio_leaks_iff readvState_held rfl hrun).2 (by decide)⟩

end Ryze
