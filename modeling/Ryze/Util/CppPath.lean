import Ryze.Lib.Replay
import Ryze.Lib.CBuffer
import Ryze.Util.Path

set_option autoImplicit false

/-! # `NormalizePath` in C++

`src/main.cc`, `src/test.cc` and `src/xxx/main.cc` hold the same function. It keeps the segments of
the path in a vector, the empty ones too: the one in front of the leading `/` and one for every two
`/` in a row. A `..` pops whatever is last there, so it can take one of these instead of a name, and
the path is no longer absolute when the first one is gone. -/

namespace Ryze

open CLib Replay

namespace Cpp

/-- `std::getline(stream, segment, '/')` until it fails; `segment` is what was read since the last
    `/`. -/
def getlineLoop : List UInt8 → List UInt8 → List (List UInt8)
  -- at the end of the stream, a call that reads nothing fails
  | [], segment => if segment = [] then [] else [segment]
  | c :: s, segment =>
    if c = slash then segment :: getlineLoop s [] else getlineLoop s (segment ++ [c])

def getlines (s : List UInt8) : List (List UInt8) := getlineLoop s []

/-- The loop over the segments, with the vector. -/
def segmentLoop : List (List UInt8) → List (List UInt8) → List (List UInt8)
  | segments, [] => segments
  | segments, segment :: rest =>
    if segment = bytes ".." then
      segmentLoop (if segments.isEmpty then segments else segments.dropLast) rest
    else if segment ≠ bytes "." then segmentLoop (segments ++ [segment]) rest
    else segmentLoop segments rest

/-- Join path segments. -/
def joinSegments (segments : List (List UInt8)) : List UInt8 :=
  if segments.length > 1 then
    segments.dropLast.flatMap (· ++ [slash]) ++ segments.getLast?.getD []
  else slash :: segments.head?.getD []

/-- `absolute_path`. -/
def absolutePath (path dir : List UInt8) : List UInt8 :=
  if path.head? = some slash then path else dir ++ slash :: path

/-- `NormalizePath(path, dir)`. -/
def normalizePath (path dir : List UInt8) : List UInt8 :=
  joinSegments (segmentLoop [] (getlines (absolutePath path dir)))

/-! ## What is meant -/

/-- What a segment does to the vector. -/
def segmentAct (segment : List UInt8) : Act :=
  if segment = bytes ".." then .pop else if segment = bytes "." then .skip else .push

/-- What a component does to the names: an empty one is none. -/
def nameAct (component : List UInt8) : Act :=
  if component = [] then .skip else segmentAct component

/-- The names that are kept when the components of the joined path are read from left to right. -/
def keptNames (path dir : List UInt8) : List (List UInt8) :=
  replay nameAct [] ((absolutePath path dir).splitOn slash)

/-- The result is absolute, without `.` and `..`, and its names are those that are kept. -/
structure Normalizes (path dir : List UInt8) : Prop where
  absolute : (normalizePath path dir).head? = some slash
  no_dots : ∀ c ∈ (normalizePath path dir).splitOn slash, c ≠ bytes "." ∧ c ≠ bytes ".."
  names : ((normalizePath path dir).splitOn slash).filter (fun c => c ≠ []) = keptNames path dir

/-! ## Where `..` and `//` may stand -/

/-- How many of the segments are `..`. -/
def ups (segments : List (List UInt8)) : Nat := segments.countP fun c => c = bytes ".."

/-- How many of the segments are neither `.` nor `..`; empty ones count. -/
def solids (segments : List (List UInt8)) : Nat :=
  segments.countP fun c => c ≠ bytes "." ∧ c ≠ bytes ".."

/-- How many of the segments are names. -/
def names (segments : List (List UInt8)) : Nat :=
  segments.countP fun c => c ≠ [] ∧ c ≠ bytes "." ∧ c ≠ bytes ".."

/-- A `/` stays in front. Either an empty segment has as many `..`s as other segments in every stretch
    right in front of it, and no stretch right behind it has more `..`s than other segments; or no
    stretch at the end has two more other segments than `..`s. -/
def SlashStays (segments : List (List UInt8)) : Prop :=
  (∃ pre post, segments = pre ++ [] :: post ∧ (∀ v, v <:+ pre → solids v ≤ ups v) ∧
      ∀ u, u <+: post → ups u ≤ solids u) ∨
    ∀ v, v <:+ segments → solids v ≤ ups v + 1

/-- The `..`s take names. Where no stretch right behind a name has more `..`s than other segments,
    none has more `..`s than names. -/
def NamesStay (segments : List (List UInt8)) : Prop :=
  ∀ pre c post, segments = pre ++ c :: post → c ≠ [] ∧ c ≠ bytes "." ∧ c ≠ bytes ".." →
    (∀ u, u <+: post → ups u ≤ solids u) → ∀ u, u <+: post → ups u ≤ names u

/-! ## Segments -/

theorem segmentLoop_eq (segments rest : List (List UInt8)) :
    segmentLoop segments rest = replay segmentAct segments rest := by
  induction rest generalizing segments with
  | nil => rfl
  | cons segment rest ih =>
      simp only [segmentLoop, replay, segmentAct]
      by_cases hup : segment = bytes ".."
      · rw [if_pos hup, if_pos hup, ih]
        cases segments with
        | nil => rfl
        | cons s ss => rfl
      · rw [if_neg hup, if_neg hup]
        by_cases hdot : segment = bytes "."
        · rw [if_neg (by simpa using hdot), if_pos hdot, ih]
        · rw [if_pos hdot, if_neg hdot, ih]

theorem ignores_empty : Ignores segmentAct nameAct := by
  intro c
  by_cases hc : c = []
  · right
    rw [hc]
    exact ⟨by decide, by decide⟩
  · left
    unfold nameAct
    rw [if_neg hc]

theorem segmentAct_push (c : List UInt8) :
    segmentAct c = .push ↔ c ≠ bytes "." ∧ c ≠ bytes ".." := by
  unfold segmentAct
  by_cases hup : c = bytes ".."
  · simp [hup]
  · by_cases hdot : c = bytes "."
    · rw [if_neg hup, if_pos hdot]
      simp [hdot]
    · rw [if_neg hup, if_neg hdot]
      simp [hup, hdot]

theorem segmentAct_pop (c : List UInt8) : segmentAct c = .pop ↔ c = bytes ".." := by
  unfold segmentAct
  split
  · next hup => simp [hup]
  · next hup => split <;> simp [hup]

theorem nameAct_push (c : List UInt8) :
    nameAct c = .push ↔ c ≠ [] ∧ c ≠ bytes "." ∧ c ≠ bytes ".." := by
  unfold nameAct
  by_cases hempty : c = []
  · simp [hempty]
  · rw [if_neg hempty, segmentAct_push]
    simp [hempty]

theorem nameAct_pop (c : List UInt8) : nameAct c = .pop ↔ c = bytes ".." := by
  unfold nameAct
  by_cases hempty : c = []
  · rw [if_pos hempty, hempty]
    decide
  · rw [if_neg hempty, segmentAct_pop]

theorem pops_segmentAct (cs : List (List UInt8)) : pops segmentAct cs = ups cs := by
  simp only [pops, ups, segmentAct_pop]

theorem pushes_segmentAct (cs : List (List UInt8)) : pushes segmentAct cs = solids cs := by
  simp only [pushes, solids, segmentAct_push]

theorem pops_nameAct (cs : List (List UInt8)) : pops nameAct cs = ups cs := by
  simp only [pops, ups, nameAct_pop]

theorem pushes_nameAct (cs : List (List UInt8)) : pushes nameAct cs = names cs := by
  simp only [pushes, names, nameAct_push]

/-- What stays in the vector has a `/` in front. -/
theorem slashStays_iff (cs : List (List UInt8)) :
    (stays segmentAct cs).length < 2 ∨ (stays segmentAct cs).head? = some [] ↔
      SlashStays cs := by
  have hlen : (stays segmentAct cs).length < 2 ↔ ∀ v, v <:+ cs → solids v ≤ ups v + 1 := by
    rw [Nat.lt_succ_iff, stays_length_le_iff]
    simp only [pushes_segmentAct, pops_segmentAct]
  have hhead : (stays segmentAct cs).head? = some [] ↔ ∃ pre post, cs = pre ++ [] :: post ∧
      (∀ v, v <:+ pre → solids v ≤ ups v) ∧ ∀ u, u <+: post → ups u ≤ solids u := by
    have hempty : segmentAct [] = .push := by decide
    rw [stays_head?_iff]
    simp only [hempty, true_and, pushes_segmentAct, pops_segmentAct]
  rw [hlen, hhead, SlashStays, or_comm]

theorem namesStay_iff (cs : List (List UInt8)) :
    SameStays segmentAct nameAct cs ↔ NamesStay cs := by
  simp only [SameStays, NamesStay, excess_eq_zero_iff, nameAct_push, pops_segmentAct,
    pushes_segmentAct, pops_nameAct, pushes_nameAct]

theorem modifyHead_nil_append (cs : List (List UInt8)) :
    cs.modifyHead (([] : List UInt8) ++ ·) = cs := by
  cases cs <;> rfl

theorem getlineLoop_splitOn (s segment : List UInt8) :
    (s.splitOn slash).modifyHead (segment ++ ·) = getlineLoop s segment ∨
      (s.splitOn slash).modifyHead (segment ++ ·) = getlineLoop s segment ++ [[]] := by
  induction s generalizing segment with
  | nil =>
      unfold getlineLoop
      by_cases hseg : segment = []
      · rw [if_pos hseg, hseg]
        exact Or.inr rfl
      · rw [if_neg hseg]
        left
        simp
  | cons c s ih =>
      unfold getlineLoop
      rw [List.splitOn_cons_eq_if_modifyHead]
      by_cases hc : c = slash
      · rw [if_pos (beq_iff_eq.2 hc), if_pos hc]
        have htail := ih []
        rw [modifyHead_nil_append] at htail
        rcases htail with htail | htail
        · left
          simp [htail]
        · right
          simp [htail]
      · rw [if_neg (by simpa using hc), if_neg hc]
        have htail := ih (segment ++ [c])
        simpa [List.modifyHead_modifyHead, Function.comp_def] using htail

/-- The segments are the components, but an empty last one. -/
theorem getlines_splitOn (s : List UInt8) :
    s.splitOn slash = getlines s ∨ s.splitOn slash = getlines s ++ [[]] := by
  have h := getlineLoop_splitOn s []
  rwa [modifyHead_nil_append] at h

theorem slash_not_mem_getlines {s c : List UInt8} (hc : c ∈ getlines s) : slash ∉ c := by
  have hloop : ∀ (t segment : List UInt8), slash ∉ segment → ∀ c ∈ getlineLoop t segment,
      slash ∉ c := by
    intro t
    induction t with
    | nil =>
        intro segment hseg c hc
        unfold getlineLoop at hc
        split at hc
        · cases hc
        · rwa [List.mem_singleton.1 hc]
    | cons d t ih =>
        intro segment hseg c hc
        unfold getlineLoop at hc
        split at hc
        · rcases List.mem_cons.1 hc with rfl | hc
          · exact hseg
          · exact ih [] (by simp) c hc
        · next hd =>
            refine ih (segment ++ [d]) ?_ c hc
            intro hmem
            rcases List.mem_append.1 hmem with hmem | hmem
            · exact hseg hmem
            · exact hd (List.mem_singleton.1 hmem).symm
  exact hloop s [] (by simp) c hc

theorem keptNames_eq (path dir : List UInt8) :
    keptNames path dir = stays nameAct (getlines (absolutePath path dir)) := by
  unfold keptNames
  rw [replay_nil]
  rcases getlines_splitOn (absolutePath path dir) with heq | heq
  · rw [heq]
  · rw [heq]
    exact stays_concat_skip rfl _

theorem segmentLoop_getlines (path dir : List UInt8) :
    segmentLoop [] (getlines (absolutePath path dir))
      = stays segmentAct (getlines (absolutePath path dir)) := by
  rw [segmentLoop_eq, replay_nil]

/-! ## The joined segments -/

section Join

variable {segments : List (List UInt8)} (hslash : ∀ c ∈ segments, slash ∉ c)

theorem joinSegments_many (h : 1 < segments.length) :
    joinSegments segments = [slash].intercalate segments := by
  have hdrop : ∀ cs : List (List UInt8), cs ≠ [] →
      cs.dropLast.flatMap (· ++ [slash]) ++ cs.getLast?.getD [] = [slash].intercalate cs := by
    intro cs hne
    induction cs with
    | nil => exact absurd rfl hne
    | cons c cs ih =>
        cases cs with
        | nil => simp
        | cons d ds =>
            have htail := ih (by simp)
            rw [List.intercalate_cons_cons, ← htail, List.dropLast_cons_cons, List.flatMap_cons,
              List.getLast?_cons_cons, List.append_assoc]
  unfold joinSegments
  rw [if_pos h]
  exact hdrop segments (List.ne_nil_of_length_pos (by omega))

include hslash

/-- The components of the result are the segments, behind a `/` if there are fewer than two. -/
theorem joinSegments_splitOn :
    (joinSegments segments).splitOn slash
      = if segments.length > 1 then segments else [[], segments.head?.getD []] := by
  by_cases hmany : segments.length > 1
  · rw [if_pos hmany, joinSegments_many hmany]
    exact List.splitOn_intercalate slash hslash (List.ne_nil_of_length_pos (by omega))
  · have hhead : slash ∉ segments.head?.getD [] := by
      cases segments with
      | nil => simp
      | cons c cs => exact hslash c (List.mem_cons_self ..)
    unfold joinSegments
    rw [if_neg hmany, if_neg hmany, List.splitOn_cons_eq_if_modifyHead, if_pos (by simp),
      List.splitOn_eq_singleton hhead]

theorem joinSegments_names :
    ((joinSegments segments).splitOn slash).filter (fun c => c ≠ [])
      = segments.filter (fun c => c ≠ []) := by
  rw [joinSegments_splitOn hslash]
  split
  · rfl
  · next hmany =>
      rcases segments with _ | ⟨c, _ | ⟨d, ds⟩⟩
      · rfl
      · simp
      · simp at hmany

theorem joinSegments_head :
    (joinSegments segments).head? = some slash ↔
      segments.length < 2 ∨ segments.head? = some [] := by
  by_cases hmany : 1 < segments.length
  · rw [joinSegments_many hmany]
    rcases segments with _ | ⟨c, _ | ⟨d, ds⟩⟩
    · simp at hmany
    · simp at hmany
    · rw [List.intercalate_cons_cons]
      cases c with
      | nil => simp
      | cons e c =>
          have he : e ≠ slash := by
            rintro rfl
            exact hslash _ (List.mem_cons_self ..) (List.mem_cons_self ..)
          simp [he]
  · unfold joinSegments
    rw [if_neg (by omega), List.head?_cons]
    exact iff_of_true rfl (Or.inl (by omega))

end Join

theorem normalizes_iff_stays (path dir : List UInt8) :
    Normalizes path dir ↔
      SlashStays (getlines (absolutePath path dir)) ∧
        NamesStay (getlines (absolutePath path dir)) := by
  rw [← slashStays_iff, ← namesStay_iff]
  have hslash : ∀ c ∈ stays segmentAct (getlines (absolutePath path dir)), slash ∉ c := by
    intro c hc
    exact slash_not_mem_getlines ((stays_sublist _ _).subset hc)
  have hpush : ∀ c ∈ stays segmentAct (getlines (absolutePath path dir)),
      c ≠ bytes "." ∧ c ≠ bytes ".." := by
    intro c hc
    have hact := push_of_mem_stays hc
    constructor
    · rintro rfl
      exact absurd hact (by decide)
    · rintro rfl
      exact absurd hact (by decide)
  have hnames : (stays segmentAct (getlines (absolutePath path dir))).filter (fun c => c ≠ [])
      = (stays segmentAct (getlines (absolutePath path dir))).filter
        fun c => nameAct c = .push := by
    refine List.filter_congr fun c hc => ?_
    have hact := push_of_mem_stays hc
    unfold nameAct
    by_cases hempty : c = []
    · simp [hempty]
    · simp [hempty, hact]
  have hrun : normalizePath path dir
      = joinSegments (stays segmentAct (getlines (absolutePath path dir))) := by
    unfold normalizePath
    rw [segmentLoop_getlines]
  constructor
  · intro h
    constructor
    · have habsolute := h.absolute
      rw [hrun, joinSegments_head hslash] at habsolute
      exact habsolute
    · have hkept := h.names
      rw [hrun, joinSegments_names hslash, keptNames_eq, hnames] at hkept
      exact (filter_stays_iff ignores_empty _).1 hkept
  · rintro ⟨hfront, hsame⟩
    constructor
    · rw [hrun, joinSegments_head hslash]
      exact hfront
    · rw [hrun, joinSegments_splitOn hslash]
      split
      · exact hpush
      · intro c hc
        rcases List.mem_cons.1 hc with rfl | hc
        · exact ⟨by decide, by decide⟩
        · rw [List.mem_singleton.1 hc]
          cases hhead : (stays segmentAct (getlines (absolutePath path dir))).head? with
          | none => exact ⟨by decide, by decide⟩
          | some d => exact hpush d (List.mem_of_mem_head? hhead)
    · rw [hrun, joinSegments_names hslash, keptNames_eq, hnames]
      exact (filter_stays_iff ignores_empty _).2 hsame

/-- Behind the `/` in front there are names only, and nowhere more `..`s than names before them. -/
theorem stays_of_names {rest : List (List UInt8)} (hempty : [] ∉ rest)
    (hups : ∀ u, u <+: rest → ups u ≤ names u) :
    SlashStays ([] :: rest) ∧ NamesStay ([] :: rest) := by
  have hsame : ∀ u : List (List UInt8), [] ∉ u → solids u = names u := by
    intro u hu
    refine List.countP_congr fun c hc => ?_
    have hne : c ≠ [] := fun h => hu (h ▸ hc)
    simp [hne]
  constructor
  · refine Or.inl ⟨[], rest, rfl, fun v hv => ?_, fun u hu => ?_⟩
    · rw [List.suffix_nil.1 hv]
      exact Nat.le_refl 0
    · rw [hsame u fun hmem => hempty (hu.subset hmem)]
      exact hups u hu
  · intro pre c post heq hc hcover u hu
    rw [← hsame u]
    · exact hcover u hu
    · intro hmem
      have hpost : [] ∈ post := hu.subset hmem
      cases pre with
      | nil => exact hc.1 (List.cons.inj heq).1.symm
      | cons d pre =>
          refine hempty ?_
          rw [(List.cons.inj heq).2]
          exact List.mem_append_right _ (List.mem_cons_of_mem c hpost)

/-- **When `NormalizePath` does what is meant.** Exactly if no `..` takes the `/` in front, and none
    takes an empty segment where it should take a name; so for every path without `//` that starts
    with `/` and nowhere has more `..`s than names before them. -/
theorem normalizePath_normalizes_iff (path dir : List UInt8) :
    (Normalizes path dir ↔
      SlashStays (getlines (absolutePath path dir)) ∧
        NamesStay (getlines (absolutePath path dir))) ∧
    ∀ rest, getlines (absolutePath path dir) = [] :: rest → [] ∉ rest →
      (∀ u, u <+: rest → ups u ≤ names u) → Normalizes path dir := by
  refine ⟨normalizes_iff_stays path dir, fun rest hlines hempty hups => ?_⟩
  rw [normalizes_iff_stays, hlines]
  exact stays_of_names hempty hups

/-- `/../a/b` loses its first `/`, and in `/a//..` the `..` takes nothing from the names. -/
theorem normalizePath_not_normalizes :
    (normalizePath (bytes "/../a/b") [] = bytes "a/b" ∧ ¬ Normalizes (bytes "/../a/b") []) ∧
      normalizePath (bytes "/a//..") [] = bytes "/a" ∧ ¬ Normalizes (bytes "/a//..") [] := by
  have hup : normalizePath (bytes "/../a/b") [] = bytes "a/b" := by decide +kernel
  have hempty : normalizePath (bytes "/a//..") [] = bytes "/a" := by decide +kernel
  refine ⟨⟨hup, fun h => ?_⟩, hempty, fun h => ?_⟩
  · have habsolute := h.absolute
    rw [hup] at habsolute
    exact absurd habsolute (by decide)
  · have hnames := h.names
    rw [hempty] at hnames
    exact absurd hnames (by decide +kernel)

end Cpp

end Ryze
