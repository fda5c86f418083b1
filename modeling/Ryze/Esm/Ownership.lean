import Ryze.Esm.Sharing

set_option autoImplicit false

/-! # Who frees a path

The same functions as in `Loader`, with the path strings behind their pointers: `esm_init` and the
callback allocate them, `module_path_map` holds pointers, and `free` takes one. What V8 reports is a
script the functions run on, with no assumption about it. `esm_destroy` frees what the map holds, so
a string is freed once if the map owns it at the end and nobody else has freed it. -/

namespace Ryze

open CLib

/-- One call of the callback: the import, the importing module's hash, and the new module's hash if
    `CompileModule` gives a module. -/
structure Import where
  specifier : List UInt8
  referer : Int
  compiled : Option Int
deriving DecidableEq, Repr

/-- What V8 reports to `esm_init`: the entry's hash if it compiles, the calls `InstantiateModule`
    makes, and whether it and `Evaluate` succeed. A promise that stays pending is no run at all. -/
structure V8Script where
  entry : Option Int
  imports : List Import
  instantiated : Bool
  evaluated : Bool
deriving DecidableEq, Repr

/-- Nothing fails, and no two modules have the same hash. -/
def V8Script.Succeeds (v8 : V8Script) : Prop :=
  none ∉ v8.imports.map Import.compiled ∧ (v8.entry :: v8.imports.map Import.compiled).Nodup ∧
    v8.instantiated = true ∧ v8.evaluated = true

/-- The allocated paths, a pointer being an index, the arguments `free` was called with, and
    `module_path_map`. -/
structure PathHeap where
  strings : List (List UInt8)
  freed : List Nat
  modulePathMap : List (Int × Nat)
deriving DecidableEq, Repr

namespace PathHeap

def empty : PathHeap := ⟨[], [], []⟩

/-- The heap after a path was allocated; the pointer is the old number of strings. -/
def alloc (h : PathHeap) (path : List UInt8) : PathHeap :=
  { h with strings := h.strings ++ [path] }

def free (h : PathHeap) (ptr : Nat) : PathHeap := { h with freed := h.freed ++ [ptr] }

/-- The string behind a pointer. -/
def read (h : PathHeap) (ptr : Nat) : CRun (List UInt8) :=
  if ptr ∈ h.freed then throw .read else load h.strings ptr

/-- `module_path_map.insert`. -/
def insert (h : PathHeap) (key : Int) (ptr : Nat) : PathHeap :=
  if (h.modulePathMap.lookup key).isSome then h
  else { h with modulePathMap := (key, ptr) :: h.modulePathMap }

/-- A path is allocated, its text is fetched, and if it compiles the map gets the pointer. -/
def enter (fetch : List UInt8 → Option (List UInt8)) (path : List UInt8) (compiled : Option Int)
    (h : PathHeap) : CRun PathHeap :=
  match fetch path with
  -- `String::NewFromUtf8(isolate, NULL)`
  | none => throw .read
  | some _ =>
    match compiled with
    | none => return h.alloc path
    | some hash => return (h.alloc path).insert hash h.strings.length

def resolveModuleCallback (fetch : List UInt8 → Option (List UInt8)) (h : PathHeap)
    (call : Import) : CRun PathHeap :=
  match h.modulePathMap.lookup call.referer with
  -- `it->second` behind the end of the map
  | none => throw .read
  | some it => do
    let url ← h.read it
    let path ← resolveImport call.specifier url
    -- a path that does not compile is left to nobody
    h.enter fetch path call.compiled

/-- `esm_init`: its return value and what it leaves. -/
def esmInit (fetch : List UInt8 → Option (List UInt8)) (filePath cwd : List UInt8)
    (v8 : V8Script) : CRun (Bool × PathHeap) := do
  let path ← esmPath filePath cwd
  let h ← empty.enter fetch path v8.entry
  if v8.entry.isSome then
    let h ← v8.imports.foldlM (resolveModuleCallback fetch) h
    if v8.instantiated && v8.evaluated then return (true, h)
    -- `free(path)`, which the map holds by now
    else return (false, h.free 0)
  else return (false, h.free 0)

def esmDestroy (h : PathHeap) : PathHeap :=
  { h with freed := h.freed ++ h.modulePathMap.map Prod.snd, modulePathMap := [] }

/-- `main`: `esm_destroy` runs whatever `esm_init` returned. -/
def main (fetch : List UInt8 → Option (List UInt8)) (filePath cwd : List UInt8) (v8 : V8Script) :
    CRun PathHeap := do
  let (_, h) ← esmInit fetch filePath cwd v8
  return h.esmDestroy

/-- Every path string was freed once. -/
def FreedOnce (h : PathHeap) : Prop := ∀ ptr < h.strings.length, h.freed.count ptr = 1

/-! ## What an import does to the heap -/

section Enter

variable {h h' : PathHeap}

@[simp] theorem alloc_length (h : PathHeap) (path : List UInt8) :
    (h.alloc path).strings.length = h.strings.length + 1 := List.length_append

@[simp] theorem alloc_modulePathMap (h : PathHeap) (path : List UInt8) :
    (h.alloc path).modulePathMap = h.modulePathMap := rfl

theorem insert_of_isSome {key : Int} (hsome : (h.modulePathMap.lookup key).isSome) (ptr : Nat) :
    h.insert key ptr = h := if_pos hsome

theorem insert_of_not_isSome {key : Int} (hnone : ¬ (h.modulePathMap.lookup key).isSome)
    (ptr : Nat) : h.insert key ptr = { h with modulePathMap := (key, ptr) :: h.modulePathMap } :=
  if_neg hnone

/-- A path is allocated in any case, and its text is entered in the map if it compiles. -/
theorem enter_cases {fetch : List UInt8 → Option (List UInt8)} {path : List UInt8}
    {outcome : Option Int} (henter : h.enter fetch path outcome = .ok h') :
    (outcome = none ∧ h' = h.alloc path) ∨
      ∃ key, outcome = some key ∧ h' = (h.alloc path).insert key h.strings.length := by
  unfold enter at henter
  split at henter
  · cases henter
  · split at henter
    · cases henter
      exact Or.inl ⟨rfl, rfl⟩
    · next key =>
        cases henter
        exact Or.inr ⟨key, rfl, rfl⟩

theorem resolveModuleCallback_enter {fetch : List UInt8 → Option (List UInt8)} {call : Import}
    (hcall : h.resolveModuleCallback fetch call = .ok h') :
    ∃ path, h.enter fetch path call.compiled = .ok h' := by
  unfold resolveModuleCallback at hcall
  split at hcall
  · cases hcall
  · obtain ⟨url, _, hcall⟩ := bind_eq_ok.1 hcall
    obtain ⟨path, _, hcall⟩ := bind_eq_ok.1 hcall
    exact ⟨path, hcall⟩

end Enter

/-! ## What the map owns -/

/-- The heap after allocations with these outcomes: nothing is freed, and the map holds every pointer
    exactly if all outcomes are hashes and no two of them are equal. -/
structure Holds (outcomes : List (Option Int)) (h : PathHeap) : Prop where
  length_eq : h.strings.length = outcomes.length
  freed_eq : h.freed = []
  lt_length : ∀ e ∈ h.modulePathMap, e.2 < h.strings.length
  nodup : (h.modulePathMap.map Prod.snd).Nodup
  isSome_iff : ∀ key, (h.modulePathMap.lookup key).isSome ↔ some key ∈ outcomes
  all_iff : (∀ ptr < h.strings.length, ptr ∈ h.modulePathMap.map Prod.snd) ↔
    none ∉ outcomes ∧ outcomes.Nodup

theorem holds_empty : Holds [] empty where
  length_eq := rfl
  freed_eq := rfl
  lt_length := by
    intro e he
    cases he
  nodup := List.nodup_nil
  isSome_iff := by
    intro key
    simp [empty]
  all_iff := by simp [empty]

variable {outcomes : List (Option Int)} {h : PathHeap}

theorem Holds.length_not_mem (hh : Holds outcomes h) :
    h.strings.length ∉ h.modulePathMap.map Prod.snd := by
  intro hmem
  obtain ⟨e, he, heq⟩ := List.mem_map.1 hmem
  exact Nat.lt_irrefl _ (heq ▸ hh.lt_length e he)

/-- A string the map does not take is owned by nobody. -/
theorem Holds.alloc (hh : Holds outcomes h) (path : List UInt8) {outcome : Option Int}
    (hlost : ∀ key, outcome = some key → some key ∈ outcomes) :
    Holds (outcomes ++ [outcome]) (h.alloc path) where
  length_eq := by
    rw [alloc_length, List.length_append, hh.length_eq]
    rfl
  freed_eq := hh.freed_eq
  lt_length := by
    intro e he
    have := hh.lt_length e he
    rw [alloc_length]
    omega
  nodup := hh.nodup
  isSome_iff := by
    intro key
    refine (hh.isSome_iff key).trans ⟨List.mem_append_left _, ?_⟩
    intro hmem
    rcases List.mem_append.1 hmem with hmem | hmem
    · exact hmem
    · exact hlost key (List.mem_singleton.1 hmem).symm
  all_iff := by
    refine iff_of_false ?_ ?_
    · intro hall
      refine hh.length_not_mem (hall h.strings.length ?_)
      rw [alloc_length]
      exact Nat.lt_succ_self _
    · rintro ⟨hnone, hnodup⟩
      cases outcome with
      | none => exact hnone (by simp)
      | some key =>
          have hdisjoint := (List.nodup_append.1 hnodup).2.2
          exact hdisjoint _ (hlost key rfl) _ (List.mem_singleton_self _) rfl

/-- A string whose key is new becomes the map's. -/
theorem Holds.insert (hh : Holds outcomes h) (path : List UInt8) {key : Int}
    (hnew : some key ∉ outcomes) :
    Holds (outcomes ++ [some key]) ((h.alloc path).insert key h.strings.length) := by
  have hnone : ¬ ((h.alloc path).modulePathMap.lookup key).isSome := by
    intro hsome
    exact hnew ((hh.isSome_iff key).1 hsome)
  rw [insert_of_not_isSome hnone]
  constructor
  · simp only [alloc_length, List.length_append, hh.length_eq, List.length_singleton]
  · exact hh.freed_eq
  · intro e he
    simp only [alloc_length]
    rcases List.mem_cons.1 he with rfl | he
    · exact Nat.lt_succ_self _
    · have := hh.lt_length e he
      omega
  · exact List.nodup_cons.2 ⟨hh.length_not_mem, hh.nodup⟩
  · intro k
    simp only [List.lookup_cons, alloc_modulePathMap]
    by_cases hk : k = key
    · simp [hk]
    · have hkey : (k == key) = false := by simpa using hk
      rw [hkey]
      simp [hh.isSome_iff k, hk]
  · have hall : (∀ ptr < (h.alloc path).strings.length,
        ptr ∈ ((key, h.strings.length) :: h.modulePathMap).map Prod.snd) ↔
          ∀ ptr < h.strings.length, ptr ∈ h.modulePathMap.map Prod.snd := by
      rw [alloc_length, List.map_cons]
      constructor
      · intro hcover ptr hptr
        rcases List.mem_cons.1 (hcover ptr (by omega)) with heq | hmem
        · exact absurd hptr (by omega)
        · exact hmem
      · intro hcover ptr hptr
        rcases Nat.lt_or_ge ptr h.strings.length with hlt | hge
        · exact List.mem_cons_of_mem _ (hcover ptr hlt)
        · rw [show ptr = h.strings.length by omega]
          exact List.mem_cons_self
    refine hall.trans (hh.all_iff.trans ?_)
    rw [List.nodup_append]
    constructor
    · rintro ⟨hcompiled, hnodup⟩
      refine ⟨by simpa using hcompiled, hnodup, by simp, ?_⟩
      intro a ha b hb heq
      rw [List.mem_singleton.1 hb] at heq
      exact hnew (heq ▸ ha)
    · rintro ⟨hcompiled, hnodup, -, -⟩
      exact ⟨fun hmem => hcompiled (List.mem_append_left _ hmem), hnodup⟩

theorem Holds.enter {fetch : List UInt8 → Option (List UInt8)} (hh : Holds outcomes h)
    {path : List UInt8} {outcome : Option Int} {h' : PathHeap}
    (henter : h.enter fetch path outcome = .ok h') : Holds (outcomes ++ [outcome]) h' := by
  rcases enter_cases henter with ⟨rfl, rfl⟩ | ⟨key, rfl, rfl⟩
  · exact hh.alloc path (by simp)
  · by_cases hmem : some key ∈ outcomes
    · have hsome : ((h.alloc path).modulePathMap.lookup key).isSome := (hh.isSome_iff key).2 hmem
      rw [insert_of_isSome hsome]
      refine hh.alloc path ?_
      rintro k hk
      rwa [← hk]
    · exact hh.insert path hmem

/-- All calls of the callback; the induction is on them. -/
theorem Holds.imports {fetch : List UInt8 → Option (List UInt8)} {calls : List Import}
    (hh : Holds outcomes h) {h' : PathHeap}
    (hrun : calls.foldlM (resolveModuleCallback fetch) h = .ok h') :
    Holds (outcomes ++ calls.map Import.compiled) h' := by
  induction calls generalizing outcomes h with
  | nil =>
      cases hrun
      rwa [List.map_nil, List.append_nil]
  | cons call calls ih =>
      rw [List.foldlM_cons] at hrun
      obtain ⟨h1, hcall, hrest⟩ := bind_eq_ok.1 hrun
      obtain ⟨path, henter⟩ := resolveModuleCallback_enter hcall
      have htail := ih (hh.enter henter) hrest
      rwa [List.append_assoc] at htail

/-- What the map holds it keeps. -/
theorem enter_keeps {fetch : List UInt8 → Option (List UInt8)} {path : List UInt8}
    {outcome : Option Int} {h' : PathHeap} (henter : h.enter fetch path outcome = .ok h') {ptr : Nat}
    (hptr : ptr ∈ h.modulePathMap.map Prod.snd) : ptr ∈ h'.modulePathMap.map Prod.snd := by
  rcases enter_cases henter with ⟨-, rfl⟩ | ⟨key, -, rfl⟩
  · exact hptr
  · by_cases hsome : ((h.alloc path).modulePathMap.lookup key).isSome
    · rwa [insert_of_isSome hsome]
    · rw [insert_of_not_isSome hsome]
      exact List.mem_cons_of_mem _ hptr

theorem imports_keep {fetch : List UInt8 → Option (List UInt8)} {calls : List Import}
    {h' : PathHeap} (hrun : calls.foldlM (resolveModuleCallback fetch) h = .ok h') {ptr : Nat}
    (hptr : ptr ∈ h.modulePathMap.map Prod.snd) : ptr ∈ h'.modulePathMap.map Prod.snd := by
  induction calls generalizing h with
  | nil =>
      cases hrun
      exact hptr
  | cons call calls ih =>
      rw [List.foldlM_cons] at hrun
      obtain ⟨h1, hcall, hrest⟩ := bind_eq_ok.1 hrun
      obtain ⟨path, henter⟩ := resolveModuleCallback_enter hcall
      exact ih hrest (enter_keeps henter hptr)

/-- The entry's string is the map's as soon as the entry compiles. -/
theorem entry_mem {fetch : List UInt8 → Option (List UInt8)} {path : List UInt8} {key : Int}
    (henter : empty.enter fetch path (some key) = .ok h) : 0 ∈ h.modulePathMap.map Prod.snd := by
  rcases enter_cases henter with ⟨hnone, -⟩ | ⟨k, -, rfl⟩
  · cases hnone
  · exact List.mem_cons_self

/-! ## The whole run -/

/-- After `esm_destroy`, a map that holds all strings, each once, has freed all of them once. -/
theorem Holds.freedOnce_iff (hh : Holds outcomes h) :
    h.esmDestroy.FreedOnce ↔ none ∉ outcomes ∧ outcomes.Nodup := by
  rw [← hh.all_iff]
  unfold FreedOnce esmDestroy
  simp only [hh.freed_eq, List.nil_append]
  refine forall₂_congr fun ptr hptr => ?_
  constructor
  · intro hcount
    rw [← List.count_pos_iff, hcount]
    exact Nat.one_pos
  · intro hmem
    exact List.count_eq_one_of_mem hh.nodup hmem

/-- A string the map holds and `esm_init` frees is freed twice. -/
theorem not_freedOnce_free {ptr : Nat} (hlt : ptr < h.strings.length)
    (hptr : ptr ∈ h.modulePathMap.map Prod.snd) : ¬ (h.free ptr).esmDestroy.FreedOnce := by
  intro hfreed
  have hone := hfreed ptr hlt
  unfold esmDestroy free at hone
  simp only [List.count_append, List.count_singleton_self] at hone
  have hpos := List.count_pos_iff.2 hptr
  omega

/-- In a run that returns, every path string is freed once exactly if the entry does not compile, or
    nothing fails and no two modules have the same hash. -/
theorem main_freedOnce_iff (fetch : List UInt8 → Option (List UInt8)) (filePath cwd : List UInt8)
    (v8 : V8Script) (h : PathHeap) (hrun : main fetch filePath cwd v8 = .ok h) :
    h.FreedOnce ↔ v8.entry = none ∨ v8.Succeeds := by
  unfold main esmInit at hrun
  obtain ⟨⟨ret, h1⟩, hinit, hrun⟩ := bind_eq_ok.1 hrun
  cases hrun
  obtain ⟨path, _, hinit⟩ := bind_eq_ok.1 hinit
  obtain ⟨h2, henter, hinit⟩ := bind_eq_ok.1 hinit
  have hentry := holds_empty.enter henter
  cases hv8 : v8.entry with
  | none =>
      rw [hv8] at henter hinit
      rcases enter_cases henter with ⟨-, rfl⟩ | ⟨key, hkey, -⟩
      · cases hinit
        refine iff_of_true ?_ (Or.inl rfl)
        intro ptr hptr
        obtain rfl : ptr = 0 := by
          change ptr < 1 at hptr
          omega
        rfl
      · cases hkey
  | some key =>
      rw [hv8] at henter hinit hentry
      rw [Option.isSome_some, if_pos rfl] at hinit
      obtain ⟨h3, himports, hinit⟩ := bind_eq_ok.1 hinit
      have hh := hentry.imports himports
      rw [List.nil_append, List.singleton_append] at hh
      have hcond : v8.Succeeds ↔ (none ∉ some key :: v8.imports.map Import.compiled ∧
          (some key :: v8.imports.map Import.compiled).Nodup) ∧
          (v8.instantiated && v8.evaluated) = true := by
        unfold V8Script.Succeeds
        rw [hv8, Bool.and_eq_true, and_assoc]
        simp only [List.mem_cons, reduceCtorEq, false_or]
      rw [hcond, ← hh.freedOnce_iff]
      split at hinit
      · next hok =>
          cases hinit
          simp [hok]
      · next hfail =>
          cases hinit
          have hzero := imports_keep himports (entry_mem henter)
          have hlt : 0 < h3.strings.length := by
            rw [hh.length_eq]
            exact Nat.succ_pos _
          refine iff_of_false (not_freedOnce_free hlt hzero) ?_
          simp [hfail]

theorem main_freedOnce_chain :
    ∃ h, main (tableHost chain Int.ofNat).fetch (bytes "/m/a.js") []
      ⟨some 1, [⟨bytes "./b/c.js", 1, some 2⟩, ⟨bytes "./b/c.js", 2, some 3⟩], true, true⟩ = .ok h ∧
    h.strings.length = 3 ∧ h.FreedOnce := by
  have hrun : main (tableHost chain Int.ofNat).fetch (bytes "/m/a.js") []
      ⟨some 1, [⟨bytes "./b/c.js", 1, some 2⟩, ⟨bytes "./b/c.js", 2, some 3⟩], true, true⟩
      = .ok ⟨[bytes "/m/a.js", bytes "/m/b/c.js", bytes "/m/b/b/c.js"], [2, 1, 0], []⟩ := by
    decide +kernel
  refine ⟨_, hrun, rfl, (main_freedOnce_iff _ _ _ _ _ hrun).2 (Or.inr ?_)⟩
  unfold V8Script.Succeeds
  decide

/-- One module whose `Evaluate` returns nothing: `esm_init` frees its path, and so does
    `esm_destroy`. And if what an entry imports does not compile, its path is not freed at all. -/
theorem main_not_freedOnce :
    (∃ h, main (tableHost chain Int.ofNat).fetch (bytes "/m/b/b/c.js") [] ⟨some 1, [], true, false⟩
      = .ok h ∧ h.freed = [0, 0] ∧ ¬ h.FreedOnce) ∧
    ∃ h, main (tableHost chain Int.ofNat).fetch (bytes "/m/a.js") []
      ⟨some 1, [⟨bytes "./b/c.js", 1, none⟩], false, false⟩ = .ok h ∧ h.strings.length = 2 ∧
      h.freed = [0, 0] ∧ ¬ h.FreedOnce := by
  have hempty : main (tableHost chain Int.ofNat).fetch (bytes "/m/b/b/c.js") []
      ⟨some 1, [], true, false⟩ = .ok ⟨[bytes "/m/b/b/c.js"], [0, 0], []⟩ := by decide +kernel
  have himport : main (tableHost chain Int.ofNat).fetch (bytes "/m/a.js") []
      ⟨some 1, [⟨bytes "./b/c.js", 1, none⟩], false, false⟩
      = .ok ⟨[bytes "/m/a.js", bytes "/m/b/c.js"], [0, 0], []⟩ := by decide +kernel
  constructor
  · exact ⟨_, hempty, rfl, fun hfreed => absurd (hfreed 0 (by decide)) (by decide)⟩
  · exact ⟨_, himport, rfl, rfl, fun hfreed => absurd (hfreed 0 (by decide)) (by decide)⟩

/-! ## The runs of the loader -/

/-- The map of the loader, read through the pointers. -/
structure Represents (h : PathHeap) (s : Esm) : Prop where
  lookup_eq : ∀ key, s.modulePathMap.lookup key
    = (h.modulePathMap.lookup key).bind fun ptr => h.strings[ptr]?
  lt_length : ∀ key ptr, h.modulePathMap.lookup key = some ptr → ptr < h.strings.length
  freed_eq : h.freed = []

variable {host : Host} {s : Esm}

theorem Represents.alloc (hrep : h.Represents s) (path : List UInt8)
    (compiled : List (List UInt8)) :
    (h.alloc path).Represents ⟨compiled, s.modulePathMap⟩ where
  lookup_eq := by
    intro key
    rw [hrep.lookup_eq key]
    unfold PathHeap.alloc
    cases hptr : h.modulePathMap.lookup key with
    | none => rfl
    | some ptr =>
        simp only [Option.bind_some]
        rw [List.getElem?_append_left (hrep.lt_length key ptr hptr)]
  lt_length := by
    intro key ptr hptr
    have := hrep.lt_length key ptr hptr
    rw [alloc_length]
    omega
  freed_eq := hrep.freed_eq

/-- The two maps take a new entry alike. -/
theorem Represents.insert (hrep : h.Represents s) {path : List UInt8} {ptr : Nat}
    (hptr : h.strings[ptr]? = some path) (key : Int) :
    (h.insert key ptr).Represents ⟨s.compiled, mapInsert s.modulePathMap key path⟩ := by
  have hsome : (s.modulePathMap.lookup key).isSome ↔ (h.modulePathMap.lookup key).isSome := by
    rw [hrep.lookup_eq key]
    cases hold : h.modulePathMap.lookup key with
    | none => simp
    | some old => simp [List.getElem?_eq_getElem (hrep.lt_length key old hold)]
  unfold mapInsert
  by_cases hnew : (h.modulePathMap.lookup key).isSome
  · rw [insert_of_isSome hnew, if_pos (hsome.2 hnew)]
    exact hrep
  · rw [insert_of_not_isSome hnew, if_neg fun h => hnew (hsome.1 h)]
    constructor
    · intro k
      simp only [List.lookup_cons]
      split
      · rw [Option.bind_some, hptr]
      · exact hrep.lookup_eq k
    · intro k q hq
      simp only [List.lookup_cons] at hq
      split at hq
      · cases hq
        exact (List.getElem?_eq_some_iff.1 hptr).1
      · exact hrep.lt_length k q hq
    · exact hrep.freed_eq

theorem Represents.compileModule (hrep : h.Represents s) {path : List UInt8} {m : Option Module}
    {s' : Esm} (hrun : Ryze.compileModule host path s = .ok (m, s')) :
    ∃ h', h.enter host.fetch path (m.map fun m => host.hash m.id) = .ok h' ∧ h'.Represents s' := by
  unfold Ryze.compileModule at hrun
  split at hrun
  · cases hrun
  · next text hfetch =>
      unfold enter
      rw [hfetch]
      split at hrun
      · cases hrun
        exact ⟨_, rfl, hrep.alloc path _⟩
      · cases hrun
        exact ⟨_, rfl, (hrep.alloc path _).insert List.getElem?_concat_length _⟩

theorem Represents.resolveModuleCallback (hrep : h.Represents s) {specifier : List UInt8}
    {referer : Module} {m : Option Module} {s' : Esm}
    (hrun : Ryze.resolveModuleCallback host specifier referer s = .ok (m, s')) :
    ∃ h', h.resolveModuleCallback host.fetch
      ⟨specifier, host.hash referer.id, m.map fun m => host.hash m.id⟩ = .ok h' ∧
      h'.Represents s' := by
  unfold Ryze.resolveModuleCallback at hrun
  unfold PathHeap.resolveModuleCallback
  rw [hrep.lookup_eq] at hrun
  cases hit : h.modulePathMap.lookup (host.hash referer.id) with
  | none =>
      rw [hit] at hrun
      cases hrun
  | some it =>
      obtain ⟨url, hurl⟩ : ∃ url, h.strings[it]? = some url :=
        ⟨_, List.getElem?_eq_getElem (hrep.lt_length _ it hit)⟩
      rw [hit, Option.bind_some, hurl] at hrun
      obtain ⟨path, hpath, hrun⟩ := bind_eq_ok.1 hrun
      have hread : h.read it = .ok url := by
        unfold read
        rw [hrep.freed_eq, if_neg (by simp), load_eq_ok, hurl]
      simp only [hread, ok_bind, hpath]
      exact hrep.compileModule hrun

theorem Represents.resolveRequests {referer : Module} {specifiers : List (List UInt8)}
    (hrep : h.Represents s) {ms : List Module} {s' : Esm}
    (hrun : Ryze.resolveRequests host referer specifiers s = .ok (some ms, s')) :
    ∃ (calls : List Import) (h' : PathHeap), calls.foldlM (PathHeap.resolveModuleCallback host.fetch) h = .ok h' ∧
      h'.Represents s' := by
  induction specifiers generalizing h s ms with
  | nil =>
      cases hrun
      exact ⟨[], h, rfl, hrep⟩
  | cons specifier specifiers ih =>
      unfold Ryze.resolveRequests at hrun
      obtain ⟨⟨m, s1⟩, hcall, hrun⟩ := bind_eq_ok.1 hrun
      cases m with
      | none => cases hrun
      | some m =>
          obtain ⟨⟨ms', s2⟩, hrest, hrun⟩ := bind_eq_ok.1 hrun
          cases ms' with
          | none => cases hrun
          | some ms' =>
              cases hrun
              obtain ⟨h1, hcall1, hrep1⟩ := hrep.resolveModuleCallback hcall
              obtain ⟨calls, h2, hcalls, hrep2⟩ := ih hrep1 hrest
              refine ⟨⟨specifier, host.hash referer.id, some (host.hash m.id)⟩ :: calls, h2, ?_, hrep2⟩
              rw [Option.map_some] at hcall1
              rw [List.foldlM_cons, hcall1]
              exact hcalls

/-- Every state of a run of the loader is that of a heap after some calls of the callback, as
    `esm_init` makes them. So the scripts of this heap leave out no run of the loader. -/
theorem represents_of_loads {filePath cwd : List UInt8} {l : Linking}
    (hl : Loads host filePath cwd l) :
    ∃ path key h0 h, ∃ calls : List Import, esmPath filePath cwd = .ok path ∧
      empty.enter host.fetch path (some key) = .ok h0 ∧
      calls.foldlM (PathHeap.resolveModuleCallback host.fetch) h0 = .ok h ∧
      h.Represents l.esm := by
  obtain ⟨start, hstart, hreach⟩ := hl
  unfold Ryze.esmInit at hstart
  obtain ⟨path, hpath, hstart⟩ := bind_eq_ok.1 hstart
  obtain ⟨⟨m, esm⟩, hcompile, hstart⟩ := bind_eq_ok.1 hstart
  cases m with
  | none => cases hstart
  | some m =>
      cases hstart
      have hnil : empty.Represents ⟨[], []⟩ :=
        ⟨fun _ => rfl, fun _ _ hptr => (nomatch hptr), rfl⟩
      obtain ⟨h0, henter, hrep0⟩ := hnil.compileModule hcompile
      obtain ⟨h, calls, hcalls, hrep⟩ : ∃ h, ∃ calls : List Import,
          calls.foldlM (PathHeap.resolveModuleCallback host.fetch) h0 = .ok h ∧
            h.Represents l.esm := by
        refine hreach.invariant (fun l => ∃ h, ∃ calls : List Import,
          calls.foldlM (PathHeap.resolveModuleCallback host.fetch) h0 = .ok h ∧
            h.Represents l.esm) ⟨h0, [], rfl, hrep0⟩ ?_
        rintro t _ t' ⟨h, calls, hcalls, hrep⟩ hstep
        cases hlink : linkStep host t with
        | error e => simp only [instantiateModule, hlink, reduceCtorEq] at hstep
        | ok o =>
            simp only [instantiateModule, hlink] at hstep
            rw [hstep] at hlink
            unfold linkStep at hlink
            split at hlink
            · cases hlink
            · split at hlink
              · cases hlink
                exact ⟨h, calls, hcalls, hrep⟩
              · obtain ⟨⟨ms, esm'⟩, hreq, hlink⟩ := bind_eq_ok.1 hlink
                cases ms with
                | none => cases hlink
                | some ms =>
                    cases hlink
                    obtain ⟨more, h', hmore, hrep'⟩ := hrep.resolveRequests hreq
                    refine ⟨h', calls ++ more, ?_, hrep'⟩
                    rw [List.foldlM_append, hcalls]
                    exact hmore
      exact ⟨path, _, h0, h, calls, hpath, henter, hcalls, hrep⟩

end PathHeap

end Ryze
