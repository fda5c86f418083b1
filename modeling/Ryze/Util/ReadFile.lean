import Ryze.Lib.CBlock

set_option autoImplicit false

/-! # `read_file`

The loop asks `fread` for what is missing of the size that was taken first, and looks at the error
flag only. At the end of the file `fread` returns 0 without an error, so a file that has become
shorter is asked again forever; otherwise every call brings the loop nearer to its end. -/

namespace Ryze

open CLib

/-! ## The file -/

/-- How much the calls in front of call `k` have returned. -/
def delivered (count : Nat → Nat) : Nat → Nat
  | 0 => 0
  | k + 1 => delivered count k + count k

/-- What the calls of `fread` meet: the file as it was when its size was taken, and for each call the
    length the file still has, the number of bytes returned and the error flag behind it. A call
    returns bytes that are there, and none only at the end of the file or with the flag set. -/
structure FileReads where
  file : List UInt8
  len : Nat → Nat
  count : Nat → Nat
  error : Nat → Bool
  len_le : ∀ k, len k ≤ file.length
  shrinks : ∀ k, len (k + 1) ≤ len k
  count_le : ∀ k, count k ≤ len k - delivered count k
  zero : ∀ k, count k = 0 → len k ≤ delivered count k ∨ error k = true

/-! ## The function -/

/-- `i`, the block and the number of calls so far. -/
structure ReadState where
  calls : Nat
  i : Nat
  str : List (Option UInt8)

/-- One round of `for(size_t i = 0; i < size; )`. -/
def readRound (r : FileReads) (st : ReadState) :
    CRun (ReadState ⊕ Option (List (Option UInt8))) :=
  if st.i < r.file.length then do
    let n := r.count st.calls
    let str ← memcpy st.str st.i (cells (r.file.drop st.i)) n
    if r.error st.calls then return .inr none
    else return .inl ⟨st.calls + 1, sizeAdd st.i n, str⟩
  else return .inr (some st.str)

/-- `read_file(path)` with at most `fuel` rounds, `none` for NULL; `opened` is `none` if the file
    cannot be opened. -/
def readFile (opened : Option FileReads) (fuel : Nat) : CRun (Option (List (Option UInt8))) :=
  match opened with
  | none => .ok none
  | some r => do
    let size := r.file.length
    let str ← malloc (sizeAdd size 1)
    let str ← store str size 0
    cLoop (readRound r) fuel ⟨0, 0, str⟩

/-! ## The block -/

/-- The block when `i` bytes have been read: the NUL is there from the start. -/
def readBlock (file : List UInt8) (i : Nat) : List (Option UInt8) :=
  cells (file.take i) ++ (List.replicate (file.length - i) none ++ [some 0])

theorem readBlock_zero (file : List UInt8) :
    store (List.replicate (file.length + 1) none) file.length 0 = .ok (readBlock file 0) := by
  have hblock : List.replicate (file.length + 1) (none : Option UInt8)
      = List.replicate file.length none ++ none :: [] := by
    rw [List.replicate_succ']
  have hlen : ((file.length : Nat) : Int)
      = ((List.replicate file.length (none : Option UInt8)).length : Nat) := by
    rw [List.length_replicate]
  rw [hblock, hlen, store_append_cons, readBlock]
  simp

theorem readBlock_length {file : List UInt8} {i : Nat} (h : i ≤ file.length) :
    (readBlock file i).length = file.length + 1 := by
  rw [readBlock, List.length_append, List.length_append, cells_length, List.length_take,
    List.length_replicate, List.length_singleton]
  omega

theorem readBlock_full (file : List UInt8) : readBlock file file.length = cells (file ++ [0]) := by
  rw [readBlock, List.take_length, Nat.sub_self, cells_append]
  rfl

/-- A call continues what was read. -/
theorem readBlock_memcpy {file : List UInt8} {i n : Nat} (h : i + n ≤ file.length) :
    memcpy (readBlock file i) i (cells (file.drop i)) n = .ok (readBlock file (i + n)) := by
  have hi : (cells (file.take i)).length = i := by
    rw [cells_length, List.length_take]
    omega
  have hfront : (readBlock file i).take i = cells (file.take i) := List.take_left' hi
  have hmid : (cells (file.drop i)).take n = cells ((file.drop i).take n) := by
    rw [cells, cells, List.map_take]
  have hback : (readBlock file i).drop (i + n)
      = List.replicate (file.length - (i + n)) none ++ [some 0] := by
    rw [← List.drop_drop, readBlock, List.drop_left' hi,
      List.drop_append_of_le_length (by rw [List.length_replicate]; omega), List.drop_replicate]
    congr 2
    omega
  have htake : file.take (i + n) = file.take i ++ (file.drop i).take n := List.take_add
  rw [memcpy, if_pos (by rw [cells_length, List.length_drop]; omega),
    if_pos (by rw [readBlock_length (by omega)]; omega), hfront, hmid, hback, ← cells_append, ← htake]
  rfl

/-! ## Running through the calls -/

section Reads

variable {r : FileReads}

theorem FileReads.delivered_le (r : FileReads) (k : Nat) :
    delivered r.count k ≤ r.file.length := by
  induction k with
  | zero => exact Nat.zero_le _
  | succ k ih =>
      have hcount := r.count_le k
      have hlen := r.len_le k
      rw [delivered]
      omega

theorem FileReads.len_antitone (r : FileReads) {j k : Nat} (h : j ≤ k) : r.len k ≤ r.len j := by
  induction h with
  | refl => exact Nat.le_refl _
  | step _ ih => exact Nat.le_trans (r.shrinks _) ih

/-- The variables in front of call `k`. -/
def atCall (r : FileReads) (k : Nat) : ReadState :=
  ⟨k, delivered r.count k, readBlock r.file (delivered r.count k)⟩

/-- Call `k` reports an error, or is not made because everything was read. -/
def Stops (r : FileReads) (k : Nat) : Prop :=
  r.error k = true ∨ r.file.length ≤ delivered r.count k

theorem readRound_done {k : Nat} (h : r.file.length ≤ delivered r.count k) :
    readRound r (atCall r k) = .ok (.inr (some (cells (r.file ++ [0])))) := by
  have hall : delivered r.count k = r.file.length := Nat.le_antisymm (r.delivered_le k) h
  have hnot : ¬ (atCall r k).i < r.file.length := by
    show ¬ delivered r.count k < r.file.length
    omega
  rw [readRound, if_neg hnot, ← readBlock_full, ← hall]
  rfl

/-- What call `k` returns goes behind what was read. -/
theorem readRound_memcpy (r : FileReads) (k : Nat) :
    memcpy (atCall r k).str (atCall r k).i (cells (r.file.drop (atCall r k).i))
      (r.count (atCall r k).calls) = .ok (atCall r (k + 1)).str := by
  have hnext := r.delivered_le (k + 1)
  rw [delivered] at hnext
  exact readBlock_memcpy hnext

theorem readRound_error {k : Nat} (hlt : delivered r.count k < r.file.length)
    (herr : r.error k = true) : readRound r (atCall r k) = .ok (.inr none) := by
  have hi : (atCall r k).i < r.file.length := hlt
  have hflag : r.error (atCall r k).calls = true := herr
  simp only [readRound]
  rw [if_pos hi, readRound_memcpy, ok_bind, if_pos hflag]
  rfl

theorem readRound_next (hmax : r.file.length + 1 ≤ ptrdiffMax) {k : Nat} (h : ¬ Stops r k) :
    readRound r (atCall r k) = .ok (.inl (atCall r (k + 1))) := by
  obtain ⟨herr, hlt⟩ := not_or.1 h
  have hi : (atCall r k).i < r.file.length := Nat.lt_of_not_le hlt
  have hflag : ¬ r.error (atCall r k).calls = true := herr
  have hnext := r.delivered_le (k + 1)
  have hmod : sizeMod = 2 ^ 64 := rfl
  have hptr : ptrdiffMax = 2 ^ 63 - 1 := rfl
  have hsum : sizeAdd (atCall r k).i (r.count (atCall r k).calls) = (atCall r (k + 1)).i := by
    refine sizeAdd_of_lt (Nat.lt_of_le_of_lt ?_ (show r.file.length < sizeMod by omega))
    exact hnext
  simp only [readRound]
  rw [if_pos hi, readRound_memcpy, ok_bind, if_neg hflag, hsum]
  rfl

/-- The loop ends at a call that stops it. -/
theorem readLoop_ends (hmax : r.file.length + 1 ≤ ptrdiffMax) {j : Nat} (hj : Stops r j) (n : Nat)
    {k : Nat} (hk : k + n = j) :
    ∃ result, cLoop (readRound r) (n + 1) (atCall r k) = .ok result := by
  induction n generalizing k with
  | zero =>
      obtain rfl : k = j := by omega
      by_cases hdone : r.file.length ≤ delivered r.count k
      · exact ⟨_, cLoop_exit (readRound_done hdone) 0⟩
      · exact ⟨_, cLoop_exit (readRound_error (by omega) (hj.resolve_right hdone)) 0⟩
  | succ n ih =>
      by_cases hstop : Stops r k
      · by_cases hdone : r.file.length ≤ delivered r.count k
        · exact ⟨_, cLoop_exit (readRound_done hdone) _⟩
        · exact ⟨_, cLoop_exit (readRound_error (by omega) (hstop.resolve_right hdone)) _⟩
      · rw [cLoop_next (readRound_next hmax hstop)]
        exact ih (by omega)

/-- A loop that nothing stops is still going after any number of rounds. -/
theorem readLoop_spins (hmax : r.file.length + 1 ≤ ptrdiffMax) (h : ∀ k, ¬ Stops r k) (n k : Nat) :
    cLoop (readRound r) n (atCall r k) = .error .fuel := by
  induction n generalizing k with
  | zero => rfl
  | succ n ih =>
      rw [cLoop_next (readRound_next hmax (h k))]
      exact ih (k + 1)

/-- The bytes the calls in front of call `k` have returned. -/
def bytesRead (r : FileReads) : Nat → List UInt8
  | 0 => []
  | k + 1 => bytesRead r k ++ (r.file.drop (delivered r.count k)).take (r.count k)

theorem bytesRead_eq (r : FileReads) (k : Nat) :
    bytesRead r k = r.file.take (delivered r.count k) := by
  induction k with
  | zero => rfl
  | succ k ih => rw [bytesRead, ih, delivered, List.take_add]

/-- The block holds what the calls of the loop returned, which was all of the file. -/
def HoldsBytesRead (r : FileReads) (str : List (Option UInt8)) : Prop :=
  ∃ k, (∀ j < k, ¬ Stops r j) ∧ r.file.length ≤ delivered r.count k ∧
    str = cells (bytesRead r k ++ [0])

theorem readLoop_exact (hmax : r.file.length + 1 ≤ ptrdiffMax) {n : Nat}
    {result : Option (List (Option UInt8))} (h : cLoop (readRound r) n (atCall r 0) = .ok result) :
    ∀ str, result = some str → HoldsBytesRead r str := by
  refine cLoop_invariant (fun st => ∃ k, st = atCall r k ∧ ∀ j < k, ¬ Stops r j)
    (fun result => ∀ str, result = some str → HoldsBytesRead r str) ?_ ?_
    ⟨0, rfl, fun j hj => absurd hj (Nat.not_lt_zero j)⟩ h
  · rintro st st' ⟨k, rfl, hbefore⟩ hnext
    by_cases hstop : Stops r k
    · by_cases hdone : r.file.length ≤ delivered r.count k
      · rw [readRound_done hdone] at hnext
        cases hnext
      · rw [readRound_error (by omega) (hstop.resolve_right hdone)] at hnext
        cases hnext
    · rw [readRound_next hmax hstop] at hnext
      cases hnext
      refine ⟨k + 1, rfl, fun j hj => ?_⟩
      rcases Nat.lt_or_eq_of_le (Nat.le_of_lt_succ hj) with hlt | rfl
      · exact hbefore j hlt
      · exact hstop
  · rintro st result ⟨k, rfl, hbefore⟩ hexit str rfl
    by_cases hdone : r.file.length ≤ delivered r.count k
    · rw [readRound_done hdone] at hexit
      cases hexit
      have hall : delivered r.count k = r.file.length :=
        Nat.le_antisymm (r.delivered_le k) hdone
      exact ⟨k, hbefore, hdone, by rw [bytesRead_eq, hall, List.take_length]⟩
    · by_cases herr : r.error k = true
      · rw [readRound_error (by omega) herr] at hexit
        cases hexit
      · rw [readRound_next hmax (not_or.2 ⟨herr, hdone⟩)] at hexit
        cases hexit

/-! ## When nothing stops the loop -/

/-- Some call finds the end of the file before the size that was taken is reached, and no call reports
    an error. -/
def EndsEarly (r : FileReads) : Prop :=
  (∃ k, r.len k ≤ delivered r.count k ∧ delivered r.count k < r.file.length) ∧
    ∀ k, r.error k = false

/-- Behind the end of the file nothing more is delivered. -/
theorem delivered_stuck {k : Nat} (hend : r.len k ≤ delivered r.count k) (n : Nat) :
    delivered r.count (k + n) = delivered r.count k := by
  induction n with
  | zero => rfl
  | succ n ih =>
      have hcount := r.count_le (k + n)
      have hlen := r.len_antitone (Nat.le_add_right k n)
      rw [← Nat.add_assoc, delivered, ih]
      omega

theorem delivered_mono {j k : Nat} (h : j ≤ k) : delivered r.count j ≤ delivered r.count k := by
  induction h with
  | refl => exact Nat.le_refl _
  | step _ ih =>
      rw [delivered]
      omega

theorem EndsEarly.never_stops (h : EndsEarly r) (j : Nat) : ¬ Stops r j := by
  obtain ⟨⟨k, hend, hlt⟩, herr⟩ := h
  rintro (hj | hj)
  · rw [herr j] at hj
    cases hj
  · rcases Nat.le_total j k with hjk | hkj
    · have hle := @delivered_mono r _ _ hjk
      omega
    · obtain ⟨n, rfl⟩ := Nat.exists_eq_add_of_le hkj
      rw [delivered_stuck hend] at hj
      omega

/-- Every call that delivers nothing is at the end of the file or reports an error, so otherwise the
    bytes add up. -/
theorem stops_of_not_endsEarly (h : ¬ EndsEarly r) : ∃ j, Stops r j := by
  by_contra hnone
  have hgo : ∀ j, ¬ Stops r j := not_exists.1 hnone
  have herr : ∀ j, r.error j = false := by
    intro j
    have hj := (not_or.1 (hgo j)).1
    simpa using hj
  have hgrows : ∀ j, j ≤ delivered r.count j := by
    intro j
    induction j with
    | zero => exact Nat.zero_le _
    | succ j ih =>
        have hlt := (not_or.1 (hgo j)).2
        have hpos : r.count j ≠ 0 := by
          intro hzero
          rcases r.zero j hzero with hend | hj
          · exact h ⟨⟨j, hend, by omega⟩, herr⟩
          · rw [herr j] at hj
            cases hj
        rw [delivered]
        omega
  exact hgo r.file.length (Or.inr (hgrows _))

end Reads

/-! ## The whole function -/

/-- The call ends, and returns NULL or a block that holds exactly what was read and a NUL. -/
def ReadsExactly (opened : Option FileReads) : Prop :=
  ∃ fuel result, readFile opened fuel = .ok result ∧
    ∀ r str, opened = some r → result = some str → HoldsBytesRead r str

theorem readFile_eq {r : FileReads} (hmax : r.file.length + 1 ≤ ptrdiffMax) (fuel : Nat) :
    readFile (some r) fuel = cLoop (readRound r) fuel (atCall r 0) := by
  have hmod : sizeMod = 2 ^ 64 := rfl
  have hptr : ptrdiffMax = 2 ^ 63 - 1 := rfl
  simp only [readFile]
  rw [sizeAdd_of_lt (by omega), malloc, if_pos hmax, ok_bind, readBlock_zero]
  rfl

/-- **When `read_file` ends.** If the file can be opened, exactly if no call finds its end too early,
    or some call reports an error; and then it is exact. -/
theorem readFile_exact_iff (opened : Option FileReads)
    (hmax : ∀ r, opened = some r → r.file.length + 1 ≤ ptrdiffMax) :
    ReadsExactly opened ↔ ∀ r, opened = some r → ¬ EndsEarly r := by
  cases opened with
  | none =>
      constructor
      · rintro - r hr
        cases hr
      · intro _
        refine ⟨0, none, rfl, ?_⟩
        rintro r str hr
        cases hr
  | some r =>
      have hsize := hmax r rfl
      constructor
      · rintro ⟨fuel, result, hrun, -⟩ r' hr hearly
        cases hr
        rw [readFile_eq hsize, readLoop_spins hsize hearly.never_stops] at hrun
        cases hrun
      · intro h
        obtain ⟨j, hj⟩ := stops_of_not_endsEarly (h r rfl)
        obtain ⟨result, hrun⟩ := readLoop_ends hsize hj j (Nat.zero_add j)
        refine ⟨j + 1, result, by rw [readFile_eq hsize, hrun], ?_⟩
        rintro r' str hr hstr
        cases hr
        exact readLoop_exact hsize hrun str hstr

/-! ## Two files -/

theorem delivered_once (k : Nat) : delivered (fun k => if k = 0 then 2 else 0) (k + 1) = 2 := by
  induction k with
  | zero => rfl
  | succ k ih =>
      rw [delivered, ih]
      rfl

theorem oneCall_count (k : Nat) :
    (if k = 0 then 2 else 0) ≤ 2 - delivered (fun k => if k = 0 then 2 else 0) k := by
  cases k with
  | zero => exact Nat.le_refl _
  | succ k => exact Nat.zero_le _

theorem oneCall_zero (k : Nat) (h : (if k = 0 then 2 else 0) = 0) :
    2 ≤ delivered (fun k => if k = 0 then 2 else 0) k ∨ false = true := by
  cases k with
  | zero => cases h
  | succ k => exact Or.inl (Nat.le_of_eq (delivered_once k).symm)

/-- A file of two bytes that the first call returns. -/
def oneCall : FileReads where
  file := bytes "ok"
  len := fun _ => 2
  count := fun k => if k = 0 then 2 else 0
  error := fun _ => false
  len_le := fun _ => Nat.le_refl 2
  shrinks := fun _ => Nat.le_refl 2
  count_le := oneCall_count
  zero := oneCall_zero

theorem readFile_oneCall : ReadsExactly (some oneCall) := by
  have hearly : ¬ EndsEarly oneCall := by
    rintro ⟨⟨k, hend, hlt⟩, -⟩
    exact absurd (Nat.lt_of_le_of_lt hend hlt) (Nat.lt_irrefl 2)
  refine (readFile_exact_iff (some oneCall) ?_).2 ?_
  · rintro r hr
    cases hr
    decide
  · rintro r hr
    cases hr
    exact hearly

/-- A file of more bytes than a stream buffers, emptied behind its size's back. -/
def truncatedFile : FileReads where
  file := List.replicate 100000 97
  len := fun _ => 0
  count := fun _ => 0
  error := fun _ => false
  len_le := fun _ => Nat.zero_le _
  shrinks := fun _ => Nat.le_refl 0
  count_le := fun _ => Nat.zero_le _
  zero := fun _ _ => Or.inl (Nat.zero_le _)

theorem readFile_truncated :
    ¬ ∀ opened : Option FileReads, (∀ r, opened = some r → r.file.length + 1 ≤ ptrdiffMax) →
      ReadsExactly opened := by
  intro h
  have hlen : truncatedFile.file.length = 100000 := List.length_replicate
  have hmax : truncatedFile.file.length + 1 ≤ ptrdiffMax := by
    rw [hlen]
    decide
  obtain ⟨fuel, result, hrun, -⟩ := h (some truncatedFile) fun r hr => by cases hr; exact hmax
  have hearly : EndsEarly truncatedFile := by
    refine ⟨⟨0, Nat.le_refl 0, ?_⟩, fun _ => rfl⟩
    rw [hlen]
    exact Nat.succ_pos _
  rw [readFile_eq hmax, readLoop_spins hmax hearly.never_stops] at hrun
  cases hrun

end Ryze
