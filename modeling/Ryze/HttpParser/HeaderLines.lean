import Ryze.HttpParser.PrefixStability
import Ryze.HttpParser.RequestLineSafety

set_option autoImplicit false

/-! # The lines `http_parse_header` takes off a buffer

A line is what the two inner scans of the function make of one: bytes up to the first colon, and
bytes behind it up to the first LF that stands behind an odd run of CRs. Such a line may hold line
ends of its own, in front of its colon and behind even runs of CRs. `Lines data ls b` says that the
function, on `data`, has taken the lines `ls` and is about to take the next one at the start of `b`. -/

namespace Ryze

open CLib

/-! ## The scan for CR LF -/

/-- The bytes behind a colon end no line: no LF stands behind an odd run of CRs, and the CRs at
    their end pair up, so a CR LF behind them ends the line. -/
def IsTail (v : List UInt8) : Prop := Unclosed [] v ∧ crRun v % 2 = 0

theorem crlfLoop_cases (f : List UInt8) (hf : crRun f % 2 = 0) (ds : List UInt8) (p : Nat) :
    (∃ v rest, ds = v ++ CR :: LF :: rest ∧ Unclosed f v ∧ crRun (f ++ v) % 2 = 0 ∧
      crlfLoop ds p = .ok (some (p + v.length + 1))) ∨
    Unclosed f ds ∧ (crlfLoop ds p = .ok none ∨ crlfLoop ds p = .error .read) := by
  fun_induction crlfLoop ds p generalizing f with
  | case1 p => exact Or.inr ⟨unclosed_nil f, Or.inl rfl⟩
  | case2 p =>
      refine Or.inr ⟨unclosed_cons.2 ⟨fun h => absurd h (by decide), unclosed_nil _⟩, Or.inr rfl⟩
  | case3 p ds' =>
      exact Or.inl ⟨[], ds', rfl, unclosed_nil f, by rwa [List.append_nil], rfl⟩
  | case4 p c' ds' hc' ih =>
      have hf' : crRun (f ++ [CR] ++ [c']) % 2 = 0 := by
        by_cases hcr : c' = CR
        · rw [hcr, crRun_cr, crRun_cr]
          omega
        · rw [crRun_ne hcr]
      have hpair : ∀ v, Unclosed (f ++ [CR] ++ [c']) v → Unclosed f (CR :: c' :: v) := by
        intro v hv
        exact unclosed_cons.2 ⟨fun h => absurd h (by decide),
          unclosed_cons.2 ⟨fun h => absurd h hc', hv⟩⟩
      rcases ih _ hf' with ⟨v, rest, rfl, hv, heven, hrun⟩ | ⟨hds, hrun⟩
      · refine Or.inl ⟨CR :: c' :: v, rest, rfl, hpair v hv, ?_, ?_⟩
        · rwa [show f ++ CR :: c' :: v = f ++ [CR] ++ [c'] ++ v by simp]
        · rw [hrun, List.length_cons, List.length_cons]
          congr 2
          omega
      · exact Or.inr ⟨hpair ds' hds, hrun⟩
  | case5 c ds p hc ih =>
      have hf' : crRun (f ++ [c]) % 2 = 0 := by rw [crRun_ne hc]
      have hone : ∀ v, Unclosed (f ++ [c]) v → Unclosed f (c :: v) := fun v hv =>
        unclosed_cons.2 ⟨fun _ => hf, hv⟩
      rcases ih _ hf' with ⟨v, rest, rfl, hv, heven, hrun⟩ | ⟨hds, hrun⟩
      · refine Or.inl ⟨c :: v, rest, rfl, hone v hv, ?_, ?_⟩
        · rwa [show f ++ c :: v = f ++ [c] ++ v by simp]
        · rw [hrun, List.length_cons]
          congr 2
          omega
      · exact Or.inr ⟨hone ds hds, hrun⟩

/-- A LF behind an odd run is a line end, so two ways of cutting at one are the same. -/
theorem tail_unique {v v' rest rest' : List UInt8} (hv : IsTail v) (hv' : IsTail v')
    (h : v ++ CR :: LF :: rest = v' ++ CR :: LF :: rest') : v = v' ∧ rest = rest' := by
  have hodd : ∀ {u : List UInt8}, IsTail u → crRun (u ++ [CR]) % 2 = 1 := by
    intro u hu
    rw [crRun_cr]
    have := hu.2
    omega
  -- the shorter of the two would leave a closed line end in the longer one
  have hshort : ∀ {a b ra rb : List UInt8}, IsTail a → IsTail b →
      a ++ CR :: LF :: ra = b ++ CR :: LF :: rb → a.length < b.length → False := by
    intro a b ra rb ha hb hab hlt
    obtain ⟨t, ht⟩ : ∃ t, b = a ++ [CR] ++ t := by
      rcases List.append_eq_append_iff.1 hab with ⟨t, hb', ht⟩ | ⟨t, ha', -⟩
      · cases t with
        | nil =>
            rw [hb', List.append_nil] at hlt
            omega
        | cons c t =>
            obtain rfl : CR = c := (List.cons.inj ht).1
            exact ⟨t, by rw [hb']; simp⟩
      · rw [ha', List.length_append] at hlt
        omega
    rw [ht, List.append_assoc, List.append_assoc] at hab
    have hrest : LF :: ra = t ++ CR :: LF :: rb :=
      (List.cons.inj (List.append_cancel_left hab)).2
    cases t with
    | nil => exact absurd (List.cons.inj hrest).1 (by decide)
    | cons c t =>
        obtain rfl : LF = c := (List.cons.inj hrest).1
        have heven := hb.1 (a ++ [CR]) t (by rw [ht])
        rw [List.nil_append] at heven
        have := hodd ha
        omega
  rcases Nat.lt_trichotomy v.length v'.length with hlt | heq | hgt
  · exact (hshort hv hv' h hlt).elim
  · obtain ⟨hvv, hrest⟩ := List.append_inj h heq
    exact ⟨hvv, (List.cons.inj (List.cons.inj hrest).2).2⟩
  · exact (hshort hv' hv h.symm hgt).elim

/-- The scan stops behind the bytes of a tail. -/
theorem crlfLoop_tail {v : List UInt8} (hv : IsTail v) (rest : List UInt8) (p : Nat) :
    crlfLoop (v ++ CR :: LF :: rest) p = .ok (some (p + v.length + 1)) := by
  rcases crlfLoop_cases [] (by decide) (v ++ CR :: LF :: rest) p with
    ⟨v', rest', heq, hv', heven, hrun⟩ | ⟨hopen, -⟩
  · obtain ⟨rfl, -⟩ := tail_unique hv ⟨hv', heven⟩ heq
    exact hrun
  · have heven := hopen (v ++ [CR]) rest (by simp)
    rw [List.nil_append, crRun_cr] at heven
    have := hv.2
    omega

/-! ## Lines -/

/-- A line as the function takes it, without its CR LF. -/
structure RawLine where
  name : List UInt8
  tail : List UInt8
  name_colon : colon ∉ name
  tail_open : IsTail tail

namespace RawLine

def wire (l : RawLine) : List UInt8 := l.name ++ colon :: (l.tail ++ [CR, LF])

/-- `is_token`. -/
def isToken (l : RawLine) : Bool := l.name.all isTokenChar

/-- The line starts with a blank. -/
def isFolded (l : RawLine) : Bool := l.name.head?.any isBlank

theorem wire_length (l : RawLine) : l.wire.length = l.name.length + l.tail.length + 3 := by
  simp only [wire, List.length_append, List.length_cons, List.length_nil]
  omega

theorem wire_append (l : RawLine) (rest : List UInt8) :
    l.wire ++ rest = l.name ++ colon :: (l.tail ++ CR :: LF :: rest) := by
  simp [wire]

/-- A buffer begins with one line at most. -/
theorem wire_unique {l l' : RawLine} {rest rest' : List UInt8}
    (h : l.wire ++ rest = l'.wire ++ rest') : l = l' ∧ rest = rest' := by
  rw [wire_append, wire_append] at h
  obtain ⟨hname, htail⟩ := (append_cons_inj l.name_colon l'.name_colon).1 h
  obtain ⟨htail, hrest⟩ := tail_unique l.tail_open l'.tail_open htail
  obtain ⟨name, tail, _, _⟩ := l
  obtain ⟨name', tail', _, _⟩ := l'
  subst hname htail
  exact ⟨rfl, hrest⟩

end RawLine

/-- No line begins here: there is no colon, or no CR LF behind the first one that ends a line. -/
def NoLine (b : List UInt8) : Prop :=
  ∀ w t, b = w ++ colon :: t → colon ∉ w → Unclosed [] t

theorem noLine_or_line (b : List UInt8) : NoLine b ∨ ∃ (l : RawLine) (rest : List UInt8),
    b = l.wire ++ rest := by
  by_cases hcolon : colon ∈ b
  · obtain ⟨w, t, rfl, hw⟩ := List.eq_append_cons_of_mem hcolon
    rcases crlfLoop_cases [] (by decide) t 0 with ⟨v, rest, rfl, hv, heven, -⟩ | ⟨hopen, -⟩
    · exact Or.inr ⟨⟨w, v, hw, hv, heven⟩, rest, by rw [RawLine.wire_append]⟩
    · refine Or.inl fun w' t' heq hw' => ?_
      obtain ⟨rfl, rfl⟩ := (append_cons_inj hw hw').1 heq
      exact hopen
  · refine Or.inl fun w t heq _ => ?_
    rw [heq] at hcolon
    exact absurd (by simp) hcolon

/-! ## The two scans -/

theorem colonLoop_line (w rest : List UInt8) (hw : colon ∉ w) (t : Nat) (b : Bool) :
    colonLoop (w ++ colon :: rest) t b = .ok (t + w.length, b && w.all isTokenChar) := by
  induction w generalizing t b with
  | nil => simp [colonLoop, isTokenChar_colon]
  | cons c w ih =>
      have hc : c ≠ colon := fun h => hw (h ▸ List.mem_cons_self ..)
      have hw' : colon ∉ w := fun h => hw (List.mem_cons_of_mem _ h)
      rw [List.cons_append, colonLoop, List.length_cons, show t + (w.length + 1) = t + 1 + w.length
        by omega, List.all_cons]
      by_cases htoken : isTokenChar c = true
      · rw [if_pos htoken, ih hw', htoken, Bool.true_and]
      · rw [if_neg htoken, if_neg hc, ih hw']
        simp [Bool.eq_false_iff.2 htoken]

theorem colonLoop_none {ds : List UInt8} (hds : colon ∉ ds) (t : Nat) (b : Bool) :
    colonLoop ds t b = .error .read := by
  induction ds generalizing t b with
  | nil => rfl
  | cons c ds ih =>
      have hc : c ≠ colon := fun h => hds (h ▸ List.mem_cons_self ..)
      have hds' : colon ∉ ds := fun h => hds (List.mem_cons_of_mem _ h)
      rw [colonLoop, if_neg hc, ih hds', ih hds', ite_self]

section Scan

variable {data rest : List UInt8} {p1 : Nat}

theorem scanLine_line {l : RawLine} (h : data.drop p1 = l.wire ++ rest) :
    scanLine data p1
      = .ok (p1 + l.name.length, l.isToken, p1 + l.name.length + l.tail.length + 2) := by
  rw [RawLine.wire_append] at h
  have hcolon : data.drop (p1 + l.name.length) = colon :: (l.tail ++ CR :: LF :: rest) :=
    drop_add_of_drop h
  rw [scanLine, h, colonLoop_line _ _ l.name_colon, ok_bind]
  simp only [hcolon, crlfLoop_ne (show colon ≠ CR by decide), crlfLoop_tail l.tail_open, ok_bind,
    pure_eq_ok, Bool.true_and]
  rw [RawLine.isToken]
  congr 3
  omega

theorem scanLine_noLine (h : NoLine (data.drop p1)) : scanLine data p1 = .error .read := by
  rw [scanLine]
  by_cases hcolon : colon ∈ data.drop p1
  · obtain ⟨w, t, hdrop, hw⟩ := List.eq_append_cons_of_mem hcolon
    have hat : data.drop (p1 + w.length) = colon :: t := drop_add_of_drop hdrop
    rw [hdrop, colonLoop_line _ _ hw, ok_bind]
    simp only [hat, crlfLoop_ne (show colon ≠ CR by decide)]
    rcases crlfLoop_cases [] (by decide) t (p1 + w.length + 1) with
      ⟨v, rest, rfl, hv, heven, -⟩ | ⟨-, hrun | hrun⟩
    · have hopen := h w _ hdrop hw (v ++ [CR]) rest (by simp)
      rw [List.nil_append] at heven hopen
      rw [crRun_cr] at hopen
      omega
    · rw [hrun]
      rfl
    · rw [hrun]
      rfl
  · rw [colonLoop_none hcolon]
    rfl

end Scan

/-! ## The lines of a buffer -/

/-- Behind a line, these bytes begin another one: they are not the end of the buffer, nor a single
    CR in front of it, nor the empty line. -/
def Continues (rest : List UInt8) : Prop :=
  rest ≠ [] ∧ rest ≠ [CR] ∧ ∀ body, rest ≠ CR :: LF :: body

/-- The function takes the lines `ls` off `data` and goes on at the start of `b`. -/
inductive Lines (data : List UInt8) : List RawLine → List UInt8 → Prop
  | start (hdata : data ≠ []) : Lines data [] data
  | next {ls : List RawLine} {l : RawLine} {rest : List UInt8} (h : Lines data ls (l.wire ++ rest))
      (hrest : Continues rest) : Lines data (ls ++ [l]) rest

/-- The bytes of some lines. -/
def linesWire (ls : List RawLine) : List UInt8 := ls.flatMap RawLine.wire

theorem linesWire_cons (l : RawLine) (ls : List RawLine) :
    linesWire (l :: ls) = l.wire ++ linesWire ls := List.flatMap_cons

theorem linesWire_append (ls ls' : List RawLine) :
    linesWire (ls ++ ls') = linesWire ls ++ linesWire ls' := List.flatMap_append

theorem linesWire_snoc (ls : List RawLine) (l : RawLine) :
    linesWire (ls ++ [l]) = linesWire ls ++ l.wire := by
  simp [linesWire]

theorem Lines.data_eq {data b : List UInt8} {ls : List RawLine} (h : Lines data ls b) :
    data = linesWire ls ++ b := by
  induction h with
  | start => rfl
  | next _ _ ih => rw [linesWire_snoc, List.append_assoc, ← ih]

theorem Lines.data_ne {data b : List UInt8} {ls : List RawLine} (h : Lines data ls b) :
    data ≠ [] := by
  induction h with
  | start hdata => exact hdata
  | next _ _ ih => exact ih

theorem rest_cases (rest : List UInt8) :
    Continues rest ∨ (rest = [] ∨ rest = [CR]) ∨ ∃ body, rest = CR :: LF :: body := by
  by_cases hnil : rest = []
  · exact Or.inr (Or.inl (Or.inl hnil))
  · by_cases hcr : rest = [CR]
    · exact Or.inr (Or.inl (Or.inr hcr))
    · by_cases hempty : ∃ body, rest = CR :: LF :: body
      · exact Or.inr (Or.inr hempty)
      · exact Or.inl ⟨hnil, hcr, fun body h => hempty ⟨body, h⟩⟩

/-- The lines `ls` are all there are: behind the last one the function does not go on. -/
def AllLines (data : List UInt8) (ls : List RawLine) : Prop :=
  ∃ before l rest, ls = before ++ [l] ∧ Lines data before (l.wire ++ rest) ∧ ¬ Continues rest

theorem AllLines.data_ne {data : List UInt8} {ls : List RawLine} (h : AllLines data ls) :
    data ≠ [] := by
  obtain ⟨_, _, _, _, hlines, _⟩ := h
  exact hlines.data_ne

theorem not_continues {rest : List UInt8} (h : rest = [] ∨ rest = [CR]) : ¬ Continues rest := by
  rintro ⟨hnil, hcr, -⟩
  exact h.elim hnil hcr

theorem not_continues_empty (body : List UInt8) : ¬ Continues (CR :: LF :: body) :=
  fun h => h.2.2 body rfl

/-- The function comes to a place in the buffer where no line begins. -/
def Stuck (data : List UInt8) : Prop := ∃ ls b, Lines data ls b ∧ NoLine b

/-! ## Loops over lines -/

/-- A loop that takes a buffer apart line by line. `At ls b` are its states in front of a line,
    `Drained ls l rest` those at the end of the buffer; `Closed` and `Ended` describe what it returns
    at an empty line and at the end of the buffer. -/
structure LineLoop (data : List UInt8) {σ β : Type} (body : σ → CRun (σ ⊕ β)) (start : σ) where
  At : List RawLine → List UInt8 → σ → Prop
  Drained : List RawLine → RawLine → List UInt8 → σ → Prop
  Closed : List RawLine → RawLine → List UInt8 → β → Prop
  Ended : List RawLine → RawLine → List UInt8 → β → Prop
  at_start : At [] data start
  at_lines {ls b s} : At ls b s → Lines data ls b
  noLine {ls b s} : At ls b s → NoLine b → body s = .error .read
  continues {ls l rest s} : At ls (l.wire ++ rest) s → Continues rest →
    ∃ s', body s = .ok (.inl s') ∧ At (ls ++ [l]) rest s'
  drains {ls l rest s} : At ls (l.wire ++ rest) s → rest = [] ∨ rest = [CR] →
    ∃ s', body s = .ok (.inl s') ∧ Drained ls l rest s'
  closes {ls l rest s} : At ls (l.wire ++ CR :: LF :: rest) s →
    ∃ r, body s = .ok (.inr r) ∧ Closed ls l rest r
  ends {ls l rest s} : Drained ls l rest s → ∃ r, body s = .ok (.inr r) ∧ Ended ls l rest r

namespace LineLoop

variable {data : List UInt8} {σ β : Type} {body : σ → CRun (σ ⊕ β)} {start : σ}

/-- The loop is in front of a line, or at the end of the buffer. -/
theorem reached (L : LineLoop data body start) {s : σ} (hs : LoopReaches body start s) :
    (∃ ls b, L.At ls b s) ∨ ∃ ls l rest, L.Drained ls l rest s := by
  refine hs.invariant (fun s => (∃ ls b, L.At ls b s) ∨ ∃ ls l rest, L.Drained ls l rest s)
    (Or.inl ⟨[], data, L.at_start⟩) ?_
  rintro s s' (⟨ls, b, h⟩ | ⟨ls, l, rest, h⟩) hbody
  · rcases noLine_or_line b with hb | ⟨l, rest, rfl⟩
    · rw [L.noLine h hb] at hbody
      cases hbody
    · rcases rest_cases rest with hcont | hdrained | ⟨rest, rfl⟩
      · obtain ⟨t, ht, hat⟩ := L.continues h hcont
        rw [ht] at hbody
        cases hbody
        exact Or.inl ⟨_, _, hat⟩
      · obtain ⟨t, ht, hat⟩ := L.drains h hdrained
        rw [ht] at hbody
        cases hbody
        exact Or.inr ⟨_, _, _, hat⟩
      · obtain ⟨r, hr, -⟩ := L.closes h
        rw [hr] at hbody
        cases hbody
  · obtain ⟨r, hr, -⟩ := L.ends h
    rw [hr] at hbody
    cases hbody

/-- Every line of the buffer is come to. -/
theorem reaches (L : LineLoop data body start) {ls : List RawLine} {b : List UInt8}
    (h : Lines data ls b) : ∃ s, LoopReaches body start s ∧ L.At ls b s := by
  induction h with
  | start hdata => exact ⟨start, LoopReaches.start, L.at_start⟩
  | next _ hrest ih =>
      obtain ⟨s, hs, hat⟩ := ih
      obtain ⟨s', hs', hat'⟩ := L.continues hat hrest
      exact ⟨s', hs.next hs', hat'⟩

/-- What the loop returns. -/
theorem result (L : LineLoop data body start) {n : Nat} {r : β} (h : cLoop body n start = .ok r) :
    (∃ ls l rest, Lines data ls (l.wire ++ CR :: LF :: rest) ∧ L.Closed ls l rest r) ∨
      ∃ ls l rest, L.Ended ls l rest r := by
  obtain ⟨s, hreach, hbody⟩ := cLoop_exit_state LoopReaches.start h
  rcases L.reached hreach with ⟨ls, b, hat⟩ | ⟨ls, l, rest, hat⟩
  · rcases noLine_or_line b with hb | ⟨l, rest, rfl⟩
    · rw [L.noLine hat hb] at hbody
      cases hbody
    · rcases rest_cases rest with hcont | hdrained | ⟨rest, rfl⟩
      · obtain ⟨t, ht, -⟩ := L.continues hat hcont
        rw [ht] at hbody
        cases hbody
      · obtain ⟨t, ht, -⟩ := L.drains hat hdrained
        rw [ht] at hbody
        cases hbody
      · obtain ⟨r', hr', hclosed⟩ := L.closes hat
        rw [hr'] at hbody
        cases hbody
        exact Or.inl ⟨ls, l, rest, L.at_lines hat, hclosed⟩
  · obtain ⟨r', hr', hended⟩ := L.ends hat
    rw [hr'] at hbody
    cases hbody
    exact Or.inr ⟨ls, l, rest, hended⟩

/-- Lines take bytes, so the loop ends. -/
theorem ne_fuel (L : LineLoop data body start) {ls : List RawLine} {b : List UInt8} {s : σ} {n : Nat}
    (h : L.At ls b s) (hn : b.length + 2 ≤ n) : cLoop body n s ≠ .error .fuel := by
  induction n generalizing ls b s with
  | zero => omega
  | succ n ih =>
      rcases noLine_or_line b with hb | ⟨l, rest, rfl⟩
      · have hstop : cLoop body (n + 1) s = .error .read := by simp only [cLoop, L.noLine h hb]
        rw [hstop]
        intro hfuel
        cases hfuel
      · have hlen := l.wire_length
        rw [List.length_append] at hn
        rcases rest_cases rest with hcont | hdrained | ⟨rest, rfl⟩
        · obtain ⟨s', hs', hat⟩ := L.continues h hcont
          rw [cLoop_next hs']
          exact ih hat (by omega)
        · obtain ⟨s', hs', hat⟩ := L.drains h hdrained
          obtain ⟨r, hr, -⟩ := L.ends hat
          obtain ⟨m, rfl⟩ : ∃ m, n = m + 1 := ⟨n - 1, by omega⟩
          rw [cLoop_next hs', cLoop_exit hr]
          simp
        · obtain ⟨r, hr, -⟩ := L.closes h
          rw [cLoop_exit hr]
          simp

/-- A loop that comes to an exit returns it. -/
theorem returns (L : LineLoop data body start) {s : σ} (hs : LoopReaches body start s) {r : β}
    (hr : body s = .ok (.inr r)) {n : Nat} (hn : data.length + 2 ≤ n) :
    cLoop body n start = .ok r := by
  obtain ⟨m, hm⟩ := cLoop_ok_from_reaches hs (cLoop_exit hr 0)
  exact cLoop_ok_of_ne_fuel hm (L.ne_fuel L.at_start hn)

theorem closed (L : LineLoop data body start) {ls : List RawLine} {l : RawLine} {rest : List UInt8}
    (h : Lines data ls (l.wire ++ CR :: LF :: rest)) {n : Nat} (hn : data.length + 2 ≤ n) :
    ∃ r, cLoop body n start = .ok r ∧ L.Closed ls l rest r := by
  obtain ⟨s, hs, hat⟩ := L.reaches h
  obtain ⟨r, hr, hclosed⟩ := L.closes hat
  exact ⟨r, L.returns hs hr hn, hclosed⟩

theorem ended (L : LineLoop data body start) {ls : List RawLine} {l : RawLine} {rest : List UInt8}
    (h : Lines data ls (l.wire ++ rest)) (hrest : rest = [] ∨ rest = [CR]) {n : Nat}
    (hn : data.length + 2 ≤ n) : ∃ r, cLoop body n start = .ok r ∧ L.Ended ls l rest r := by
  obtain ⟨s, hs, hat⟩ := L.reaches h
  obtain ⟨s', hs', hdrained⟩ := L.drains hat hrest
  obtain ⟨r, hr, hended⟩ := L.ends hdrained
  exact ⟨r, L.returns (hs.next hs') hr hn, hended⟩

/-- A loop that returns has taken all lines, and what it returns at either end holds of them. -/
theorem taken (L : LineLoop data body start) {P : List RawLine → β → Prop}
    (hclosed : ∀ {ls l rest r}, L.Closed ls l rest r → P (ls ++ [l]) r)
    (hended : ∀ ls l rest r, L.Ended ls l rest r →
      Lines data ls (l.wire ++ rest) ∧ ¬ Continues rest ∧ P (ls ++ [l]) r)
    {n : Nat} {r : β} (h : cLoop body n start = .ok r) : ∃ ls, AllLines data ls ∧ P ls r := by
  rcases L.result h with ⟨ls, l, rest, hlines, hend⟩ | ⟨ls, l, rest, hend⟩
  · exact ⟨ls ++ [l], ⟨ls, l, _, rfl, hlines, not_continues_empty rest⟩, hclosed hend⟩
  · obtain ⟨hlines, hstop, hP⟩ := hended ls l rest r hend
    exact ⟨ls ++ [l], ⟨ls, l, rest, rfl, hlines, hstop⟩, hP⟩

/-- Where the lines end, the loop returns. -/
theorem of_allLines (L : LineLoop data body start) {P : List RawLine → β → Prop}
    (hclosed : ∀ {ls l rest r}, L.Closed ls l rest r → P (ls ++ [l]) r)
    (hended : ∀ ls l rest r, L.Ended ls l rest r → P (ls ++ [l]) r) {ls : List RawLine}
    (h : AllLines data ls) {n : Nat} (hn : data.length + 2 ≤ n) :
    ∃ r, cLoop body n start = .ok r ∧ P ls r := by
  obtain ⟨before, l, rest, rfl, hlines, hstop⟩ := h
  rcases rest_cases rest with hcont | hrest | ⟨rest, rfl⟩
  · exact absurd hcont hstop
  · obtain ⟨r, hr, hend⟩ := L.ended hlines hrest hn
    exact ⟨r, hr, hended _ _ _ _ hend⟩
  · obtain ⟨r, hr, hend⟩ := L.closed hlines hn
    exact ⟨r, hr, hclosed hend⟩

/-- **Safety of a loop over lines.** It returns, without having read outside the buffer, exactly if
    a line begins wherever it comes to. -/
theorem ok_iff (L : LineLoop data body start) {n : Nat} (hn : data.length + 2 ≤ n) :
    (∃ r, cLoop body n start = .ok r) ↔ ¬ Stuck data := by
  constructor
  · rintro ⟨r, hr⟩ ⟨ls, b, hlines, hb⟩
    obtain ⟨s, hs, hat⟩ := L.reaches hlines
    obtain ⟨m, hm⟩ := cLoop_ok_of_reaches hr hs
    obtain ⟨k, -, hexit | ⟨t, ht, -⟩⟩ := cLoop_ok_cases hm
    · rw [L.noLine hat hb] at hexit
      cases hexit
    · rw [L.noLine hat hb] at ht
      cases ht
  · intro hstuck
    cases hrun : cLoop body n start with
    | ok r => exact ⟨r, rfl⟩
    | error e =>
        rcases cLoop_error_state LoopReaches.start hrun with rfl | ⟨t, ht, hbody⟩
        · exact absurd hrun (L.ne_fuel L.at_start hn)
        · rcases L.reached ht with ⟨ls, b, hat⟩ | ⟨ls, l, rest, hat⟩
          · rcases noLine_or_line b with hb | ⟨l, rest, rfl⟩
            · exact absurd ⟨ls, b, L.at_lines hat, hb⟩ hstuck
            · rcases rest_cases rest with hcont | hdrained | ⟨rest, rfl⟩
              · obtain ⟨s', hs', -⟩ := L.continues hat hcont
                rw [hs'] at hbody
                cases hbody
              · obtain ⟨s', hs', -⟩ := L.drains hat hdrained
                rw [hs'] at hbody
                cases hbody
              · obtain ⟨r, hr, -⟩ := L.closes hat
                rw [hr] at hbody
                cases hbody
          · obtain ⟨r, hr, -⟩ := L.ends hat
            rw [hr] at hbody
            cases hbody

end LineLoop

end Ryze
