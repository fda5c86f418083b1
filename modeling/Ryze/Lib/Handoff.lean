import Ryze.Lib.Population
import Ryze.Lib.Transition

set_option autoImplicit false

/-! # Handing requests to a pool of workers

What a pool with a queue is for: a request is submitted once, taken from the front of the queue by
one worker, worked on, and handed over at the end of a list. The ledger keeps the history of each
kind of event. In every reachable state the requests that were taken are a prefix of the submitted
ones, and each submitted request is in one place. -/

namespace Handoff

open Population Transition

/-- What a worker has in hand. -/
inductive Hand (ρ : Type)
  | free
  /-- taken, work not yet called -/
  | took (r : ρ)
  /-- work called -/
  | working (r : ρ)
  /-- work returned, not yet handed over -/
  | worked (r : ρ)
deriving DecidableEq, Repr

/-- The history: the requests of each kind of event in the order of the events. -/
structure Ledger (ρ : Type) where
  submitted : List ρ
  taken : List ρ
  called : List ρ
  returned : List ρ
  appended : List ρ
deriving DecidableEq, Repr

structure Pool (ι ρ : Type) where
  queue : List ρ
  hand : ι → Hand ρ
  ledger : Ledger ρ

inductive Action (ι ρ : Type)
  | submit (r : ρ)
  | take (i : ι)
  | call (i : ι)
  | ret (i : ι)
  | append (i : ι)
deriving DecidableEq, Repr

variable {ι ρ : Type} [DecidableEq ι] [DecidableEq ρ]

def Ledger.empty : Ledger ρ := ⟨[], [], [], [], []⟩

/-- One event of the pool; a submitted request is a fresh one. -/
def Pool.step (s : Pool ι ρ) : Action ι ρ → Option (Pool ι ρ)
  | .submit r =>
    if r ∈ s.ledger.submitted then none
    else some { s with
      queue := s.queue ++ [r]
      ledger := { s.ledger with submitted := s.ledger.submitted ++ [r] } }
  | .take i =>
    match s.hand i, s.queue with
    | .free, r :: rest => some {
        queue := rest
        hand := Function.update s.hand i (.took r)
        ledger := { s.ledger with taken := s.ledger.taken ++ [r] } }
    | _, _ => none
  | .call i =>
    match s.hand i with
    | .took r => some { s with
        hand := Function.update s.hand i (.working r)
        ledger := { s.ledger with called := s.ledger.called ++ [r] } }
    | _ => none
  | .ret i =>
    match s.hand i with
    | .working r => some { s with
        hand := Function.update s.hand i (.worked r)
        ledger := { s.ledger with returned := s.ledger.returned ++ [r] } }
    | _ => none
  | .append i =>
    match s.hand i with
    | .worked r => some { s with
        hand := Function.update s.hand i .free
        ledger := { s.ledger with appended := s.ledger.appended ++ [r] } }
    | _ => none

def system (ι ρ : Type) [DecidableEq ι] [DecidableEq ρ] : System (Pool ι ρ) (Action ι ρ) where
  init := ⟨[], fun _ => .free, .empty⟩
  step := Pool.step

/-- `r` is in hand. -/
def Hand.holds (r : ρ) : Hand ρ → Bool
  | .free => false
  | .took q => q = r
  | .working q => q = r
  | .worked q => q = r

/-- Work on `r` was called. -/
def Hand.started (r : ρ) : Hand ρ → Bool
  | .free => false
  | .took _ => false
  | .working q => q = r
  | .worked q => q = r

/-- Work on `r` has returned. -/
def Hand.finished (r : ρ) : Hand ρ → Bool
  | .free => false
  | .took _ => false
  | .working _ => false
  | .worked q => q = r

theorem Hand.holds_of_started {r : ρ} {h : Hand ρ} (hs : h.started r = true) :
    h.holds r = true := by
  cases h with
  | free => cases hs
  | took q => cases hs
  | working q => exact hs
  | worked q => exact hs

theorem Hand.started_of_finished {r : ρ} {h : Hand ρ} (hs : h.finished r = true) :
    h.started r = true := by
  cases h with
  | free => cases hs
  | took q => cases hs
  | working q => cases hs
  | worked q => exact hs

variable [Fintype ι]

/-- How often each request occurs in each history is told by where it is. -/
structure Pool.Inv (s : Pool ι ρ) : Prop where
  nodup : s.ledger.submitted.Nodup
  submitted_eq : s.ledger.submitted = s.ledger.taken ++ s.queue
  taken_count : ∀ r, s.ledger.taken.count r
    = howMany s.hand (Hand.holds r) + s.ledger.appended.count r
  called_count : ∀ r, s.ledger.called.count r
    = howMany s.hand (Hand.started r) + s.ledger.appended.count r
  returned_count : ∀ r, s.ledger.returned.count r
    = howMany s.hand (Hand.finished r) + s.ledger.appended.count r

theorem count_concat (l : List ρ) (r q : ρ) :
    (l ++ [r]).count q = l.count q + (decide (r = q)).toNat := by
  rw [List.count_append, List.count_singleton]
  by_cases h : r = q
  · simp [h]
  · simp [h]

/-- When a worker's hand changes, a history and the list of what was handed over keep their balance if
    they grow by what the hand lets go. -/
theorem count_move {hand : ι → Hand ρ} {i : ι} {p q : Hand ρ} {kind : Hand ρ → Bool} {r : ρ}
    {past past' done done' : List ρ} (hi : hand i = p)
    (h : past.count r = howMany hand kind + done.count r)
    (hmove : past'.count r + (kind p).toNat + done.count r
      = past.count r + (kind q).toNat + done'.count r) :
    past'.count r = howMany (Function.update hand i q) kind + done'.count r := by
  have hhand := howMany_update hi q kind
  omega

/-- What a worker does keeps the balances if each history grows by what its hand lets go. -/
theorem Pool.Inv.move {s : Pool ι ρ} (h : s.Inv) {i : ι} {p q : Hand ρ} (hi : s.hand i = p)
    {queue : List ρ} {ledger : Ledger ρ} (hsubmitted : ledger.submitted = s.ledger.submitted)
    (hqueue : ledger.submitted = ledger.taken ++ queue)
    (htaken : ∀ r, ledger.taken.count r + (Hand.holds r p).toNat + s.ledger.appended.count r
      = s.ledger.taken.count r + (Hand.holds r q).toNat + ledger.appended.count r)
    (hcalled : ∀ r, ledger.called.count r + (Hand.started r p).toNat + s.ledger.appended.count r
      = s.ledger.called.count r + (Hand.started r q).toNat + ledger.appended.count r)
    (hreturned : ∀ r,
      ledger.returned.count r + (Hand.finished r p).toNat + s.ledger.appended.count r
      = s.ledger.returned.count r + (Hand.finished r q).toNat + ledger.appended.count r) :
    Pool.Inv ⟨queue, Function.update s.hand i q, ledger⟩ where
  nodup := hsubmitted ▸ h.nodup
  submitted_eq := hqueue
  taken_count := fun r => count_move hi (h.taken_count r) (htaken r)
  called_count := fun r => count_move hi (h.called_count r) (hcalled r)
  returned_count := fun r => count_move hi (h.returned_count r) (hreturned r)

theorem Pool.Inv.step {s s' : Pool ι ρ} {a : Action ι ρ} (h : s.Inv) (hstep : s.step a = some s') :
    s'.Inv := by
  cases a with
  | submit r =>
      simp only [Pool.step] at hstep
      split at hstep
      · cases hstep
      · next hfresh =>
          cases hstep
          refine ⟨?_, ?_, h.taken_count, h.called_count, h.returned_count⟩
          · exact List.nodup_append.2 ⟨h.nodup, by simp, by
              intro a ha b hb
              rw [List.mem_singleton.1 hb]
              rintro rfl
              exact hfresh ha⟩
          · simp only
            rw [h.submitted_eq, List.append_assoc]
  | take i =>
      simp only [Pool.step] at hstep
      split at hstep
      · next r rest hi hqueue =>
          cases hstep
          refine h.move hi rfl ?_ (fun q => ?_) (fun q => rfl) fun q => rfl
          · simp only
            rw [h.submitted_eq, hqueue, List.append_assoc]
            rfl
          · simp only [Hand.holds, Bool.toNat_false, count_concat]
            omega
      · cases hstep
  | call i =>
      simp only [Pool.step] at hstep
      split at hstep
      · next r hi =>
          cases hstep
          refine h.move hi rfl h.submitted_eq (fun q => rfl) (fun q => ?_) fun q => rfl
          simp only [Hand.started, Bool.toNat_false, count_concat]
          omega
      · cases hstep
  | ret i =>
      simp only [Pool.step] at hstep
      split at hstep
      · next r hi =>
          cases hstep
          refine h.move hi rfl h.submitted_eq (fun q => rfl) (fun q => rfl) fun q => ?_
          simp only [Hand.finished, Bool.toNat_false, count_concat]
          omega
      · cases hstep
  | append i =>
      simp only [Pool.step] at hstep
      split at hstep
      · next r hi =>
          cases hstep
          refine h.move hi rfl h.submitted_eq (fun q => ?_) (fun q => ?_) fun q => ?_
          · simp only [Hand.holds, Bool.toNat_false, count_concat]
            omega
          · simp only [Hand.started, Bool.toNat_false, count_concat]
            omega
          · simp only [Hand.finished, Bool.toNat_false, count_concat]
            omega
      · cases hstep

theorem Pool.Inv.init : (system ι ρ).init.Inv where
  nodup := List.nodup_nil
  submitted_eq := rfl
  taken_count := fun _ => (howMany_eq_zero.2 fun _ => rfl).symm
  called_count := fun _ => (howMany_eq_zero.2 fun _ => rfl).symm
  returned_count := fun _ => (howMany_eq_zero.2 fun _ => rfl).symm

theorem Pool.Inv.of_reachable {s : Pool ι ρ} (hs : Reachable (system ι ρ) s) : s.Inv :=
  hs.invariant _ Pool.Inv.init fun _ _ _ hinv hstep => hinv.step hstep

namespace Pool.Inv

omit [DecidableEq ι]

variable {s : Pool ι ρ} (h : s.Inv)

include h

/-- **One place.** A submitted request is in the queue, in one worker's hands or handed over, once;
    any other request is nowhere. -/
theorem one_place (r : ρ) :
    s.queue.count r + howMany s.hand (Hand.holds r) + s.ledger.appended.count r
      = if r ∈ s.ledger.submitted then 1 else 0 := by
  have hcount := h.taken_count r
  have hsub := congrArg (List.count r) h.submitted_eq
  rw [List.count_append] at hsub
  have hone := h.nodup.count (a := r)
  omega

/-- **Order.** -/
theorem taken_inOrder : s.ledger.taken <+: s.ledger.submitted :=
  ⟨s.queue, h.submitted_eq.symm⟩

theorem called_le_one (r : ρ) : s.ledger.called.count r ≤ 1 := by
  have hplace := h.one_place r
  have hcount := h.called_count r
  have hle : howMany s.hand (Hand.started r) ≤ howMany s.hand (Hand.holds r) :=
    howMany_mono fun _ hi => Hand.holds_of_started hi
  split at hplace <;> omega

/-- What was handed over is what work has returned from, but for the requests still in hand. -/
theorem mem_appended (r : ρ) :
    r ∈ s.ledger.appended ↔ r ∈ s.ledger.returned ∧ howMany s.hand (Hand.holds r) = 0 := by
  have hplace := h.one_place r
  have hcount := h.returned_count r
  have hle : howMany s.hand (Hand.finished r) ≤ howMany s.hand (Hand.holds r) :=
    howMany_mono fun _ hi => Hand.holds_of_started (Hand.started_of_finished hi)
  rw [← List.count_pos_iff, ← List.count_pos_iff]
  split at hplace
  · omega
  · omega

theorem appended_nodup : s.ledger.appended.Nodup := by
  rw [List.nodup_iff_count_le_one]
  intro r
  have hplace := h.one_place r
  split at hplace <;> omega

/-- With nothing in the queue and nothing in hand all requests were handed over. -/
theorem appended_perm (hqueue : s.queue = []) (hhand : ∀ i, s.hand i = .free) :
    s.ledger.appended.Perm s.ledger.submitted := by
  rw [List.perm_iff_count]
  intro r
  have hplace := h.one_place r
  have hnone : howMany s.hand (Hand.holds r) = 0 := howMany_eq_zero.2 fun i => by rw [hhand i]; rfl
  rw [hqueue, List.count_nil, hnone] at hplace
  rw [h.nodup.count]
  omega

theorem appended_returned {r : ρ} (hr : r ∈ s.ledger.appended) : r ∈ s.ledger.returned :=
  ((h.mem_appended r).1 hr).1

/-- A request in hand was submitted. -/
theorem held_submitted {i : ι} {r : ρ} (hi : (s.hand i).holds r = true) :
    r ∈ s.ledger.submitted := by
  have hplace := h.one_place r
  have hpos : 0 < howMany s.hand (Hand.holds r) := howMany_pos.2 ⟨i, hi⟩
  by_contra hnot
  rw [if_neg hnot] at hplace
  omega

theorem called_submitted {r : ρ} (hr : r ∈ s.ledger.called) : r ∈ s.ledger.submitted := by
  have hplace := h.one_place r
  have hcalled := h.called_count r
  have hle : howMany s.hand (Hand.started r) ≤ howMany s.hand (Hand.holds r) :=
    howMany_mono fun _ hi => Hand.holds_of_started hi
  have hpos := List.count_pos_iff.2 hr
  by_contra hnot
  rw [if_neg hnot] at hplace
  omega

theorem appended_called {r : ρ} (hr : r ∈ s.ledger.appended) : r ∈ s.ledger.called := by
  have hcalled := h.called_count r
  have hpos := List.count_pos_iff.2 hr
  rw [← List.count_pos_iff]
  omega

end Pool.Inv

end Handoff
