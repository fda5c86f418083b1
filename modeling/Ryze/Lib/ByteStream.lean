import Ryze.Lib.Transition
import Mathlib.Data.List.Basic

set_option autoImplicit false

/-! # Streams

What a connection with a send queue is for: elements are put in at one end and sent out at the other,
in the same order, and the stream may be closed once nothing is left in it. -/

namespace Transition

variable {α : Type}

/-- All elements put in and all elements sent, which is history, what is still to be sent, and
    whether the stream is closed. -/
structure Stream (α : Type) where
  put : List α
  sent : List α
  pending : List α
  closed : Bool
deriving DecidableEq, Repr

inductive Stream.Action (α : Type)
  | put (xs : List α)
  | send (n : Nat)
  | close
deriving DecidableEq, Repr

/-- Closing is refused as long as anything is pending, and nothing happens to a closed stream. -/
def stream (α : Type) : System (Stream α) (Stream.Action α) where
  init := ⟨[], [], [], false⟩
  step s a :=
    if s.closed then none
    else
      match a with
      | .put xs => some { s with put := s.put ++ xs, pending := s.pending ++ xs }
      | .send n =>
        if n ≤ s.pending.length then
          some { s with sent := s.sent ++ s.pending.take n, pending := s.pending.drop n }
        else none
      | .close => if s.pending.isEmpty then some { s with closed := true } else none

theorem stream_step_of_open {s : Stream α} (h : s.closed = false) (a : Stream.Action α) :
    (stream α).step s a = match a with
      | .put xs => some { s with put := s.put ++ xs, pending := s.pending ++ xs }
      | .send n =>
        if n ≤ s.pending.length then
          some { s with sent := s.sent ++ s.pending.take n, pending := s.pending.drop n }
        else none
      | .close => if s.pending.isEmpty then some { s with closed := true } else none := by
  change (if s.closed = true then none else _) = _
  rw [if_neg (by rw [h]; exact Bool.false_ne_true)]

/-- What was put in was sent or is pending, and nothing is pending in a closed stream. -/
structure Stream.Inv (s : Stream α) : Prop where
  put_eq : s.put = s.sent ++ s.pending
  closed_pending : s.closed = true → s.pending = []

theorem Stream.Inv.step {s s' : Stream α} {a : Stream.Action α} (hs : s.Inv)
    (h : (stream α).step s a = some s') : s'.Inv := by
  cases hclosed : s.closed with
  | true => simp only [stream, hclosed, if_true, reduceCtorEq] at h
  | false =>
    rw [stream_step_of_open hclosed] at h
    cases a with
    | put xs =>
        cases h
        refine ⟨?_, fun hc => absurd hc (by simp [hclosed])⟩
        change s.put ++ xs = s.sent ++ (s.pending ++ xs)
        rw [hs.put_eq, List.append_assoc]
    | send n =>
        simp only at h
        split at h
        · cases h
          refine ⟨?_, fun hc => absurd hc (by simp [hclosed])⟩
          change s.put = s.sent ++ s.pending.take n ++ s.pending.drop n
          rw [hs.put_eq, List.append_assoc, List.take_append_drop]
        · cases h
    | close =>
        simp only at h
        split at h
        · next hempty =>
            cases h
            exact ⟨hs.put_eq, fun _ => List.isEmpty_iff.1 hempty⟩
        · cases h

theorem Stream.Inv.of_reachable {s : Stream α} (hs : Reachable (stream α) s) : s.Inv := by
  refine hs.invariant Stream.Inv ⟨rfl, fun _ => rfl⟩ ?_
  intro s a s' hinv hstep
  exact hinv.step hstep

/-- What was sent is the beginning of what was put in. -/
theorem Stream.sent_inOrder {s : Stream α} (hs : Reachable (stream α) s) : s.sent <+: s.put :=
  ⟨s.pending, (Stream.Inv.of_reachable hs).put_eq.symm⟩

/-- In a closed stream everything was sent. -/
theorem Stream.sent_eq_put {s : Stream α} (hs : Reachable (stream α) s) (hclosed : s.closed = true) :
    s.sent = s.put := by
  have hinv := Stream.Inv.of_reachable hs
  rw [hinv.put_eq, hinv.closed_pending hclosed, List.append_nil]

end Transition
