import Ryze.HttpParser.RequestLine
import Mathlib.Data.List.DropRight

set_option autoImplicit false

/-! # Where `http_parse_request_line` leaves its buffer

The scan for CR LF reads the byte behind every CR it meets and steps over both, so CRs are taken in
pairs. A CR that is alone in the last byte of the buffer makes the loop's own `p++` pass `end`, and
`p != end` does not stop it any more. This file says for which buffers that happens, for the parser
of `server/` and for its copy in `src/http/`, and that there is exactly one place where a
well-formed line must not be cut. -/

namespace Ryze

open CLib

/-! ## Runs of CR -/

/-- How many CRs the bytes end with. -/
def crRun (l : List UInt8) : Nat := (l.rtakeWhile (· == CR)).length

theorem crRun_cr (l : List UInt8) : crRun (l ++ [CR]) = crRun l + 1 := by
  unfold crRun
  rw [List.rtakeWhile_concat_pos _ _ _ (by decide), List.length_append, List.length_singleton]

theorem crRun_ne {c : UInt8} (hc : c ≠ CR) (l : List UInt8) : crRun (l ++ [c]) = 0 := by
  unfold crRun
  rw [List.rtakeWhile_concat_neg _ _ _ (by simpa using hc), List.length_nil]

theorem crRun_of_ne {u : List UInt8} (h : crRun u ≠ 0) : ∃ w, u = w ++ [CR] := by
  rcases List.eq_nil_or_concat' u with rfl | ⟨w, c, rfl⟩
  · exact absurd rfl h
  · by_cases hc : c = CR
    · exact ⟨w, by rw [hc]⟩
    · exact absurd (crRun_ne hc w) h

/-- Behind `f`, no LF of `ds` has an odd run of CRs right before it. -/
def Unclosed (f ds : List UInt8) : Prop := ∀ u v, ds = u ++ LF :: v → crRun (f ++ u) % 2 = 0

theorem unclosed_cons {f ds : List UInt8} {c : UInt8} :
    Unclosed f (c :: ds) ↔ (c = LF → crRun f % 2 = 0) ∧ Unclosed (f ++ [c]) ds := by
  constructor
  · intro h
    constructor
    · intro hc
      have heven := h [] ds (by rw [hc, List.nil_append])
      rwa [List.append_nil] at heven
    · intro u v huv
      have heven := h (c :: u) v (by rw [huv, List.cons_append])
      rwa [List.append_assoc, List.singleton_append]
  · rintro ⟨hhead, htail⟩ u v huv
    cases u with
    | nil =>
        rw [List.append_nil]
        exact hhead (List.cons.inj huv).1
    | cons d u =>
        obtain ⟨rfl, hds⟩ := List.cons.inj huv
        have heven := htail u v hds
        rwa [List.append_assoc, List.singleton_append] at heven

theorem unclosed_nil (f : List UInt8) : Unclosed f [] := by
  intro u v huv
  exact absurd huv (by simp)

/-- The bytes end with a CR that no other CR pairs with, and no LF among them has such a CR right
    before it. -/
def LoneCr (t : List UInt8) : Prop := crRun t % 2 = 1 ∧ Unclosed [] t

/-- The scan reads behind the buffer exactly if it ends with a lone CR. `f` is what the scan has
    passed; it ends with a whole number of pairs. -/
theorem crlfLoop_error_iff (f : List UInt8) (hf : crRun f % 2 = 0) (ds : List UInt8) (p : Nat) :
    crlfLoop ds p = .error .read ↔ crRun (f ++ ds) % 2 = 1 ∧ Unclosed f ds := by
  fun_induction crlfLoop ds p generalizing f with
  | case1 p =>
      rw [List.append_nil, hf]
      simp
  | case2 p =>
      refine iff_of_true rfl ⟨?_, ?_⟩
      · rw [crRun_cr]
        omega
      · exact unclosed_cons.2 ⟨fun h => absurd h (by decide), unclosed_nil _⟩
  | case3 p ds' =>
      refine iff_of_false (by simp) ?_
      rintro ⟨-, hclose⟩
      -- the LF found here has an odd run of CRs before it
      have hodd := (unclosed_cons.1 (unclosed_cons.1 hclose).2).1 rfl
      rw [crRun_cr] at hodd
      omega
  | case4 p c' ds' hc' ih =>
      have hf' : crRun (f ++ [CR] ++ [c']) % 2 = 0 := by
        by_cases hcr : c' = CR
        · rw [hcr, crRun_cr, crRun_cr]
          omega
        · rw [crRun_ne hcr]
      have hcr : CR ≠ LF := by decide
      rw [ih _ hf', unclosed_cons, unclosed_cons]
      simp [hc', hcr]
  | case5 c ds p hc ih =>
      have hf' : crRun (f ++ [c]) % 2 = 0 := by rw [crRun_ne hc]
      rw [ih _ hf', unclosed_cons]
      simp [hf]

theorem crlfLoop_loneCr (t : List UInt8) (p : Nat) :
    crlfLoop t p = .error .read ↔ LoneCr t := by
  simpa [LoneCr] using crlfLoop_error_iff [] (by decide) t p

theorem crlfLoop_error {ds : List UInt8} {p : Nat} {e : Fault} (h : crlfLoop ds p = .error e) :
    e = .read := by
  fun_induction crlfLoop ds p with
  | case1 p => cases h
  | case2 p => exact (Except.error.inj h).symm
  | case3 p ds' => cases h
  | case4 p c' ds' _ ih => exact ih h
  | case5 c ds p _ ih => exact ih h

/-! ## The whole function -/

/-- The buffer holds two spaces, and what follows the second one ends with a lone CR. -/
def StopsAtCr (data : List UInt8) : Prop :=
  ∃ a b t, (∀ c ∈ a, c ≠ SP) ∧ (∀ c ∈ b, c ≠ SP) ∧ data = a ++ SP :: (b ++ SP :: t) ∧ LoneCr t

theorem spaceLoop_spaces {a b : List UInt8} (ha : ∀ c ∈ a, c ≠ SP) (hb : ∀ c ∈ b, c ≠ SP)
    (t : List UInt8) : spaceLoop (a ++ SP :: (b ++ SP :: t)) 0 []
      = ([a.length, a.length + 1 + b.length], a.length + 1 + b.length) := by
  rw [spaceLoop_skip _ _ ha]
  simp only [spaceLoop, if_true, List.nil_append, List.length_singleton]
  rw [if_neg (by decide), spaceLoop_skip _ _ hb]
  simp [spaceLoop]

/-- How the space loop leaves a buffer: at its end, or at its second space. -/
theorem spaceLoop_cases (data : List UInt8) :
    (∃ pos, pos.length < 2 ∧ spaceLoop data 0 [] = (pos, data.length)) ∨
      ∃ a b t, (∀ c ∈ a, c ≠ SP) ∧ (∀ c ∈ b, c ≠ SP) ∧ data = a ++ SP :: (b ++ SP :: t) ∧
        spaceLoop data 0 [] = ([a.length, a.length + 1 + b.length], a.length + 1 + b.length) := by
  have hno : ∀ w : List UInt8, SP ∉ w → ∀ c ∈ w, c ≠ SP := fun w hw c hc h => hw (h ▸ hc)
  have hend : ∀ (w : List UInt8) (p : Nat) (pos : List Nat), SP ∉ w →
      spaceLoop w p pos = (pos, p + w.length) := by
    intro w p pos hw
    have hskip := spaceLoop_skip w [] (hno w hw) p pos
    rwa [List.append_nil] at hskip
  by_cases h1 : SP ∈ data
  · obtain ⟨a, r, rfl, ha⟩ := List.eq_append_cons_of_mem h1
    have hfirst : spaceLoop (a ++ SP :: r) 0 [] = spaceLoop r (a.length + 1) [a.length] := by
      rw [spaceLoop_skip _ _ (hno a ha)]
      simp [spaceLoop]
    by_cases h2 : SP ∈ r
    · obtain ⟨b, t, rfl, hb⟩ := List.eq_append_cons_of_mem h2
      exact Or.inr ⟨a, b, t, hno a ha, hno b hb, rfl, spaceLoop_spaces (hno a ha) (hno b hb) t⟩
    · refine Or.inl ⟨[a.length], by simp, ?_⟩
      rw [hfirst, hend r _ _ h2]
      simp only [List.length_append, List.length_cons, Prod.mk.injEq, true_and]
      omega
  · refine Or.inl ⟨[], by simp, ?_⟩
    rw [hend data 0 [] h1, Nat.zero_add]

/-- The second loop starts at the second space, so it meets a lone CR if the rest ends with one. -/
theorem crlfLoop_second (a b t : List UInt8) :
    crlfLoop ((a ++ SP :: (b ++ SP :: t)).drop (a.length + 1 + b.length)) (a.length + 1 + b.length)
      = crlfLoop t (a.length + 1 + b.length + 1) := by
  have hdrop : (a ++ SP :: (b ++ SP :: t)).drop (a.length + 1 + b.length) = SP :: t := by
    have hlen : a.length + 1 + b.length = (a ++ SP :: b).length := by
      simp only [List.length_append, List.length_cons]
      omega
    rw [hlen, show a ++ SP :: (b ++ SP :: t) = (a ++ SP :: b) ++ SP :: t by simp, List.drop_left]
  rw [hdrop, crlfLoop_ne (by decide)]

/-- A buffer with two spaces is taken apart in one way only. -/
theorem spaces_unique {a b t a' b' t' : List UInt8} (ha : ∀ c ∈ a, c ≠ SP) (hb : ∀ c ∈ b, c ≠ SP)
    (ha' : ∀ c ∈ a', c ≠ SP) (hb' : ∀ c ∈ b', c ≠ SP)
    (h : a ++ SP :: (b ++ SP :: t) = a' ++ SP :: (b' ++ SP :: t')) : t = t' := by
  have hno : ∀ w : List UInt8, (∀ c ∈ w, c ≠ SP) → SP ∉ w := fun w hw hs => hw SP hs rfl
  obtain ⟨-, htail⟩ := (append_cons_inj (hno a ha) (hno a' ha')).1 h
  exact ((append_cons_inj (hno b hb) (hno b' hb')).1 htail).2

/-- Once the scan for CR LF returns, the function does: the literal and the digit lie before the LF. -/
theorem httpParseRequestLine_of_scan {data : List UInt8} {lf : Option Nat}
    (h : crlfLoop (data.drop (spaceLoop data 0 []).2) (spaceLoop data 0 []).2 = .ok lf) :
    ∃ r, httpParseRequestLine data = .ok r := by
  unfold httpParseRequestLine
  simp only [h, ok_bind]
  split
  · next pos0 pos1 pos2 hpos =>
      split
      · exact ⟨_, rfl⟩
      · next hten =>
          have hp : (spaceLoop data 0 []).2 = pos1 := by
            rcases spaceLoop_cases data with ⟨pos, hlt, hspaces⟩ | ⟨a, b, t, _, _, _, hspaces⟩
            · rw [hspaces] at hpos
              change pos = [pos0, pos1] at hpos
              rw [hpos] at hlt
              exact absurd hlt (Nat.lt_irrefl 2)
            · rw [hspaces] at hpos ⊢
              simp only [List.cons.injEq, and_true] at hpos
              exact hpos.2
          obtain ⟨line, rest, hline, hpos2⟩ := crlfLoop_found h
          rw [hp] at hline hpos2
          have hlen : data.length - pos1 = line.length + (rest.length + 2) := by
            rw [← List.length_drop, hline, List.length_append, List.length_cons, List.length_cons]
          have hlit : (bytes "HTTP/1.").length = 7 := rfl
          obtain ⟨http, hhttp⟩ : ∃ http, matchesAt data (bytes "HTTP/1.") (pos1 + 1) = .ok http :=
            matchesAt_inBounds (by omega)
          obtain ⟨d, hd⟩ : ∃ d, load data (pos1 + 8) = .ok d :=
            ⟨_, load_eq_ok.2 (List.getElem?_eq_getElem (by omega))⟩
          rw [hhttp, ok_bind, hd]
          split
          · exact ⟨_, rfl⟩
          · exact ⟨_, rfl⟩
  · exact ⟨_, rfl⟩

/-- The function reads only its buffer, except when the scan meets a lone CR at its end. -/
theorem httpParseRequestLine_inBounds (data : List UInt8) :
    (∃ r, httpParseRequestLine data = .ok r) ↔ ¬ StopsAtCr data := by
  rcases spaceLoop_cases data with ⟨pos, hpos, hspaces⟩ | ⟨a, b, t, ha, hb, rfl, hspaces⟩
  · have hscan : crlfLoop (data.drop (spaceLoop data 0 []).2) (spaceLoop data 0 []).2
        = .ok none := by
      rw [hspaces, List.drop_length]
      rfl
    refine iff_of_true (httpParseRequestLine_of_scan hscan) ?_
    rintro ⟨a, b, t, ha, hb, rfl, -⟩
    rw [spaceLoop_spaces ha hb] at hspaces
    rw [← (Prod.mk.inj hspaces).1] at hpos
    simp at hpos
  · have hstop : StopsAtCr (a ++ SP :: (b ++ SP :: t)) ↔ LoneCr t := by
      constructor
      · rintro ⟨a', b', t', ha', hb', heq, ht'⟩
        rwa [spaces_unique ha hb ha' hb' heq]
      · intro ht
        exact ⟨a, b, t, ha, hb, rfl, ht⟩
    rw [hstop, ← crlfLoop_loneCr t (a.length + 1 + b.length + 1)]
    have hscan := crlfLoop_second a b t
    constructor
    · rintro ⟨r, hr⟩ herr
      unfold httpParseRequestLine at hr
      simp only [hspaces, hscan, herr, error_bind] at hr
      cases hr
    · intro hne
      cases hlf : crlfLoop t (a.length + 1 + b.length + 1) with
      | error e =>
          rw [crlfLoop_error hlf] at hlf
          exact absurd hlf hne
      | ok lf =>
          rw [hlf] at hscan
          exact httpParseRequestLine_of_scan (by rw [hspaces]; exact hscan)

/-! ## Cut lines -/

/-- The buffer is a proper prefix of a line `method SP path SP HTTP/1.d CR LF`. -/
def IsLinePrefix (data : List UInt8) : Prop :=
  ∃ method path d t, (∀ c ∈ method, c ≠ SP) ∧ (∀ c ∈ path, c ≠ SP) ∧ d < 10 ∧ t ≠ [] ∧
    data ++ t = requestLineWire method path d

theorem httpParseRequestLine_ret {data : List UInt8} {r : RequestLineResult}
    (h : httpParseRequestLine data = .ok r) :
    (r.ret = 0 ∧ r.readLen ≤ data.length) ∨ r.ret = -1 ∨ r.ret = 1 := by
  unfold httpParseRequestLine at h
  simp only at h
  obtain ⟨lf, hlf, h⟩ := bind_eq_ok.1 h
  split at h
  · next pos0 pos1 pos2 hpos =>
      split at h
      · cases h
        exact Or.inr (Or.inl rfl)
      · obtain ⟨http, hhttp, h⟩ := bind_eq_ok.1 h
        split at h
        · obtain ⟨d, hd, h⟩ := bind_eq_ok.1 h
          cases h
          refine Or.inl ⟨rfl, ?_⟩
          obtain ⟨line, rest, hline, hpos2⟩ := crlfLoop_found hlf
          have hlen := congrArg List.length hline
          rw [List.length_drop, List.length_append, List.length_cons, List.length_cons] at hlen
          change pos2 + 1 ≤ data.length
          omega
        · cases h
          exact Or.inr (Or.inl rfl)
  · cases h
    exact Or.inr (Or.inr rfl)

/-- What the parser says about a proper prefix of a line, if it says anything. -/
theorem httpParseRequestLine_incomplete {data : List UInt8} {r : RequestLineResult}
    (h : httpParseRequestLine data = .ok r) (hpre : IsLinePrefix data) : r.ret = 1 := by
  obtain ⟨method, path, d, t, hmethod, hpath, hd, ht, hwire⟩ := hpre
  have hfull := httpParseRequestLine_wire method path [] d hd hmethod hpath
  rw [List.append_nil, ← hwire] at hfull
  have hshort : data.length < (data ++ t).length := by
    rw [List.length_append]
    have := List.length_pos_iff.2 ht
    omega
  -- a decision about the prefix would be the decision about the whole line
  have hdecided : r.ret = 0 ∨ r.ret = -1 → r.ret = 0 ∧ r.readLen = (data ++ t).length := by
    intro hret
    have happ := httpParseRequestLine_append data t r h hret
    rw [hfull] at happ
    cases happ
    exact ⟨rfl, rfl⟩
  rcases httpParseRequestLine_ret h with ⟨hret, hle⟩ | hret | hret
  · have := (hdecided (Or.inl hret)).2
    omega
  · have := (hdecided (Or.inr hret)).1
    omega
  · exact hret

/-- Bytes without LF whose only CR is the last one end with a lone CR. -/
theorem loneCr_of_line {w : List UInt8} (hcr : CR ∉ w) (hlf : LF ∉ w) : LoneCr (w ++ [CR]) := by
  constructor
  · have hw : crRun w = 0 := by
      unfold crRun
      rw [List.rtakeWhile_eq_nil_iff.2, List.length_nil]
      intro hne hlast
      exact hcr (beq_iff_eq.1 hlast ▸ List.getLast_mem hne)
    rw [crRun_cr, hw]
  · intro u v huv
    have hmem : LF ∈ w ++ [CR] := by
      rw [huv]
      simp
    rcases List.mem_append.1 hmem with hmem | hmem
    · exact absurd hmem hlf
    · exact absurd hmem (by decide)

theorem LoneCr.last {t : List UInt8} (h : LoneCr t) : ∃ u, t = u ++ [CR] := by
  rcases List.eq_nil_or_concat' t with rfl | ⟨u, c, rfl⟩
  · exact absurd h.1 (by decide)
  · by_cases hc : c = CR
    · exact ⟨u, by rw [hc]⟩
    · have hodd := h.1
      rw [crRun_ne hc] at hodd
      exact absurd hodd (by decide)

/-- The only proper prefix of a line the parser must not be given: the one without its LF. So of the
    reads that may end within a well-formed line, one leads out of the buffer. -/
theorem linePrefix_stopsAtCr_iff {method path data t : List UInt8} {d : Nat}
    (hmethod : ∀ c ∈ method, c ≠ SP) (hpath : ∀ c ∈ path, c ≠ SP) (hd : d < 10) (ht : t ≠ [])
    (h : data ++ t = requestLineWire method path d) : StopsAtCr data ↔ t = [LF] := by
  have hlit : (bytes "HTTP/1." ++ [UInt8.ofNat (48 + d)]).all (fun c => c != CR && c != LF)
      = true := by
    interval_cases d <;> decide
  have hcr : CR ∉ bytes "HTTP/1." ++ [UInt8.ofNat (48 + d)] := by
    intro hmem
    exact absurd (List.all_eq_true.1 hlit CR hmem) (by decide)
  have hlf : LF ∉ bytes "HTTP/1." ++ [UInt8.ofNat (48 + d)] := by
    intro hmem
    exact absurd (List.all_eq_true.1 hlit LF hmem) (by decide)
  have hwire : requestLineWire method path d = method ++ SP :: (path ++ SP ::
      ((bytes "HTTP/1." ++ [UInt8.ofNat (48 + d)]) ++ CR :: [LF])) := by
    simp [requestLineWire]
  constructor
  · rintro ⟨a, b, s, ha, hb, rfl, hs⟩
    obtain ⟨u, rfl⟩ := hs.last
    have hsplit : a ++ SP :: (b ++ SP :: (u ++ CR :: t)) = method ++ SP :: (path ++ SP ::
        ((bytes "HTTP/1." ++ [UInt8.ofNat (48 + d)]) ++ CR :: [LF])) := by
      rw [← hwire, ← h]
      simp
    have htail := spaces_unique ha hb hmethod hpath hsplit
    -- the line holds one CR, so the prefix stops there
    have hone : (u ++ CR :: t).count CR = 1 := by
      rw [htail, List.count_append, List.count_eq_zero_of_not_mem hcr]
      decide
    have hu : CR ∉ u := by
      intro hmem
      have hpos := List.count_pos_iff.2 hmem
      rw [List.count_append, List.count_cons_self] at hone
      omega
    exact ((append_cons_inj hu hcr).1 htail).2
  · rintro rfl
    refine ⟨method, path, (bytes "HTTP/1." ++ [UInt8.ofNat (48 + d)]) ++ [CR], hmethod, hpath, ?_,
      loneCr_of_line hcr hlf⟩
    have hlast : data ++ [LF] = (method ++ SP :: (path ++ SP ::
        ((bytes "HTTP/1." ++ [UInt8.ofNat (48 + d)]) ++ [CR]))) ++ [LF] := by
      rw [h, hwire]
      simp
    exact List.append_cancel_right hlast

/-! ## The copy in `src/http` -/

namespace Http

/-- The return value of the copy and what it stores: the length it read, `-1` for a line it
    refuses, `-2` for one that is not all there. -/
structure RequestLineResult where
  ret : Int
  line : Option RequestLine
deriving DecidableEq, Repr

/-- `http_parse_request_line` of `src/http/http_parser.c`. -/
def httpParseRequestLine (data : List UInt8) : CRun RequestLineResult :=
  let (pos, p) := spaceLoop data 0 []
  do
    let lf ← crlfLoop (data.drop p) p
    match pos, lf with
    | [pos0, pos1], some pos2 =>
      -- " HTTP/1.1\r\n"
      if pos2 - pos1 ≠ 10 then return { ret := -1, line := none }
      else do
        let http ← matchesAt data (bytes "HTTP/1.") (pos1 + 1)
        if http then do
          let d ← load data (pos1 + 8)
          return {
            ret := toInt32 (pos2 + 1 : Nat)
            line := some {
              method := ⟨0, pos0⟩
              path := ⟨pos0 + 1, pos1 - (pos0 + 1)⟩
              minorVersion := schar d - 48 } }
        else return { ret := -1, line := none }
    | _, _ => return { ret := -2, line := none }

/-- What the copy returns where the parser of `server/` returns `r`. -/
def recode (r : Ryze.RequestLineResult) : RequestLineResult where
  ret := if r.ret = 0 then toInt32 r.readLen else if r.ret = 1 then -2 else -1
  line := r.line

/-- The two parsers differ only in how they report. -/
theorem httpParseRequestLine_eq (data : List UInt8) :
    httpParseRequestLine data = (Ryze.httpParseRequestLine data).map recode := by
  unfold httpParseRequestLine Ryze.httpParseRequestLine
  obtain ⟨pos, p⟩ := spaceLoop data 0 []
  simp only
  cases crlfLoop (data.drop p) p with
  | error e => rfl
  | ok lf =>
      simp only [ok_bind]
      rcases lf with _ | pos2
      · rcases pos with _ | ⟨pos0, _ | ⟨pos1, _ | ⟨pos3, pos⟩⟩⟩ <;> rfl
      · rcases pos with _ | ⟨pos0, _ | ⟨pos1, _ | ⟨pos3, pos⟩⟩⟩
        · rfl
        · rfl
        · by_cases hten : pos2 - pos1 ≠ 10
          · simp only [if_pos hten]
            rfl
          · simp only [if_neg hten]
            cases matchesAt data (bytes "HTTP/1.") (pos1 + 1) with
            | error e => rfl
            | ok http =>
                cases http with
                | false => rfl
                | true =>
                    simp only [ok_bind, if_true]
                    cases load data (pos1 + 8) with
                    | error e => rfl
                    | ok d => simp [recode, Except.map]
        · rfl

end Http

/-! ## Safety -/

/-- The parser returns without having read outside the buffer, and asks for more bytes if these are
    the beginning of a line. -/
def LineSafe (data : List UInt8) : Prop :=
  (∃ r, httpParseRequestLine data = .ok r) ∧
    (IsLinePrefix data → ∃ r, httpParseRequestLine data = .ok r ∧ r.ret = 1)

/-- The same of the copy, whose code for a line that is not all there is `-2`. -/
def Http.LineSafe (data : List UInt8) : Prop :=
  (∃ r, Http.httpParseRequestLine data = .ok r) ∧
    (IsLinePrefix data → ∃ r, Http.httpParseRequestLine data = .ok r ∧ r.ret = -2)

/-- Both parsers are safe on a buffer exactly if what follows its second space does not end with a
    lone CR. -/
theorem httpParseRequestLine_safe_iff (data : List UInt8) :
    (LineSafe data ↔ ¬ StopsAtCr data) ∧ (Http.LineSafe data ↔ ¬ StopsAtCr data) := by
  constructor
  · constructor
    · rintro ⟨hrun, -⟩
      exact (httpParseRequestLine_inBounds data).1 hrun
    · intro hstop
      obtain ⟨r, hr⟩ := (httpParseRequestLine_inBounds data).2 hstop
      exact ⟨⟨r, hr⟩, fun hpre => ⟨r, hr, httpParseRequestLine_incomplete hr hpre⟩⟩
  · constructor
    · rintro ⟨⟨r, hr⟩, -⟩
      rw [Http.httpParseRequestLine_eq] at hr
      refine (httpParseRequestLine_inBounds data).1 ?_
      cases hrun : httpParseRequestLine data with
      | error e =>
          rw [hrun] at hr
          cases hr
      | ok r' => exact ⟨r', rfl⟩
    · intro hstop
      obtain ⟨r, hr⟩ := (httpParseRequestLine_inBounds data).2 hstop
      have hcopy : Http.httpParseRequestLine data = .ok (Http.recode r) := by
        rw [Http.httpParseRequestLine_eq, hr]
        rfl
      refine ⟨⟨_, hcopy⟩, fun hpre => ⟨_, hcopy, ?_⟩⟩
      have hret := httpParseRequestLine_incomplete hr hpre
      unfold Http.recode
      simp [hret]

/-- `GET / HTTP/1.1` and a CR: the scan reads the byte behind the buffer. -/
theorem httpParseRequestLine_loneCr :
    httpParseRequestLine (bytes "GET / HTTP/1.1" ++ [CR]) = .error .read ∧
      ¬ LineSafe (bytes "GET / HTTP/1.1" ++ [CR]) := by
  have hrun : httpParseRequestLine (bytes "GET / HTTP/1.1" ++ [CR]) = .error .read := by
    decide +kernel
  refine ⟨hrun, ?_⟩
  rintro ⟨⟨r, hr⟩, -⟩
  rw [hrun] at hr
  cases hr

end Ryze
