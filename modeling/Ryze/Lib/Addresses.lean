import Mathlib.Data.Set.Card
import Ryze.Lib.Unfolding

set_option autoImplicit false

/-! # Addresses in an unfolding

Whatever an unfolding finds has an address: the numbers of the edges that were taken from the entry.
With the addresses beside the nodes every graph becomes a tree, whose nodes are found once each; so
without them a node is found once for every way that leads to it. -/

namespace Unfolding

open Relation Transition

variable {α : Type}

/-- What is left when the addresses are forgotten. -/
def Progress.nodes (s : Progress (List Nat × α)) : Progress α :=
  ⟨s.expanded.map Prod.snd, s.agenda.map Prod.snd⟩

variable {edges : α → List α} {entry : α}

section Count

variable [BEq α] [LawfulBEq α] {s : Progress α} (hs : Reachable (unfolding edges entry) s) (p : α)

include hs

end Count

end Unfolding
