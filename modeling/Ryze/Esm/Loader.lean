import Ryze.Lib.Unfolding
import Ryze.Util.Dirname

set_option autoImplicit false

/-! # Loading modules with `esm.cc`

`esm_init` and `resolve_module_callback`, and between them V8: `InstantiateModule` calls the callback
once for each import of a module that is not linked yet, and then goes on with the modules it got
back. What V8 and the outside world do is a parameter (`Host`). -/

namespace Ryze

open CLib Transition Unfolding

/-- What `esm.cc` runs on. A file that cannot be had is `none`, and so is the compilation of a text
    that does not compile. -/
structure Host where
  httpGet : List UInt8 → Option (List UInt8)
  readFile : List UInt8 → Option (List UInt8)
  /-- the specifiers of a text's imports, in their order -/
  compile : List UInt8 → Option (List (List UInt8))
  /-- `GetIdentityHash` of the `n`-th module that was compiled -/
  hash : Nat → Int

/-- A module object: which compilation made it, the path of the text, and its imports. -/
structure Module where
  id : Nat
  path : List UInt8
  requests : List (List UInt8)
deriving DecidableEq, Repr

/-- What loading leaves behind: the paths in the order of their compilations, which is history, and
    `module_path_map`. -/
structure Esm where
  compiled : List (List UInt8)
  modulePathMap : List (Int × List UInt8)
deriving DecidableEq, Repr

/-- `module_path_map.insert`, which keeps the entry of a key that is there already. -/
def mapInsert (map : List (Int × List UInt8)) (key : Int) (path : List UInt8) :
    List (Int × List UInt8) :=
  if (map.lookup key).isSome then map else (key, path) :: map

def Host.fetch (host : Host) (path : List UInt8) : Option (List UInt8) :=
  if isHttpPath path then host.httpGet path else host.readFile path

/-- What `esm_init` and `resolve_module_callback` do once they have a path: fetch, compile, and enter
    the new module's hash. -/
def compileModule (host : Host) (path : List UInt8) (s : Esm) : CRun (Option Module × Esm) :=
  match host.fetch path with
  -- `String::NewFromUtf8(isolate, NULL)`
  | none => throw .read
  | some text =>
    match host.compile text with
    | none => return (none, s)
    | some requests =>
      let m : Module := ⟨s.compiled.length, path, requests⟩
      return (some m, ⟨s.compiled ++ [path], mapInsert s.modulePathMap (host.hash m.id) path⟩)

def resolveModuleCallback (host : Host) (specifier : List UInt8) (referer : Module) (s : Esm) :
    CRun (Option Module × Esm) :=
  match s.modulePathMap.lookup (host.hash referer.id) with
  -- `it->second` behind the end of the map
  | none => throw .read
  | some url => do
    let path ← resolveImport specifier url
    compileModule host path s

/-- The callback for each of a module's imports, `none` as soon as one of them has no module. -/
def resolveRequests (host : Host) (referer : Module) : List (List UInt8) → Esm →
    CRun (Option (List Module) × Esm)
  | [], s => return (some [], s)
  | specifier :: specifiers, s => do
    match ← resolveModuleCallback host specifier referer s with
    | (none, s) => return (none, s)
    | (some m, s) =>
      let (ms, s) ← resolveRequests host referer specifiers s
      return (ms.map (m :: ·), s)

/-- `InstantiateModule` on the way: the modules it still has to go into, in this order, and those
    that are linked. -/
structure Linking where
  agenda : List Module
  linked : List Module
  esm : Esm
deriving DecidableEq, Repr

/-- Go into the next module; `none` when there is none left, or when an import has no module. -/
def linkStep (host : Host) (s : Linking) : CRun (Option Linking) :=
  match s.agenda with
  | [] => return none
  | m :: rest =>
    if m.id ∈ s.linked.map Module.id then return some { s with agenda := rest }
    else do
      match ← resolveRequests host m m.requests s.esm with
      | (none, _) => return none
      | (some ms, esm) => return some ⟨ms ++ rest, s.linked ++ [m], esm⟩

/-- The path of the entry file. -/
def esmPath (filePath cwd : List UInt8) : CRun (List UInt8) := do
  if ← isAbsolutePath filePath then
    let path ← copyPrefix filePath filePath.length
    cstr path
  else normalizedString filePath cwd

/-- `esm_init` up to `InstantiateModule`. -/
def esmInit (host : Host) (filePath cwd : List UInt8) : CRun (Option Linking) := do
  let path ← esmPath filePath cwd
  match ← compileModule host path ⟨[], []⟩ with
  | (none, _) => return none
  | (some m, esm) => return some ⟨[m], [], esm⟩

def instantiateModule (host : Host) (s : Linking) : System Linking Unit where
  init := s
  step s _ :=
    match linkStep host s with
    | .ok s' => s'
    | .error _ => none

/-- `s` is a state of the run of `esm_init`. -/
def Loads (host : Host) (filePath cwd : List UInt8) (s : Linking) : Prop :=
  ∃ start, esmInit host filePath cwd = .ok (some start) ∧
    Reachable (instantiateModule host start) s

/-! ## Module files -/

/-- The specifiers in the file at `path`. -/
def Host.requests (host : Host) (path : List UInt8) : Option (List (List UInt8)) :=
  (host.fetch path).bind host.compile

/-- The import graph: the paths of the files that the file at `path` imports. -/
def Host.imports (host : Host) (path : List UInt8) : List (List UInt8) :=
  ((host.requests path).getD []).filterMap fun specifier =>
    (resolveImport specifier path).toOption

/-- A finite set of module files: all of them compile and import files of the set. -/
structure ModuleSet (host : Host) where
  files : Finset (List UInt8)
  closed : ∀ p ∈ files, ∃ requests, host.requests p = some requests ∧
    ∀ specifier ∈ requests, ∃ q ∈ files, resolveImport specifier p = .ok q

theorem ModuleSet.imports_mem {host : Host} (M : ModuleSet host) {p q : List UInt8}
    (hp : p ∈ M.files) (hq : q ∈ host.imports p) : q ∈ M.files := by
  obtain ⟨requests, hrequests, hclosed⟩ := M.closed p hp
  rw [Host.imports, hrequests, Option.getD_some, List.mem_filterMap] at hq
  obtain ⟨specifier, hmem, hresolve⟩ := hq
  obtain ⟨r, hr, hok⟩ := hclosed specifier hmem
  rw [hok] at hresolve
  cases hresolve
  exact hr

/-! ## Compiling a module -/

theorem lookup_mapInsert {map : List (Int × List UInt8)} {key : Int} {path url : List UInt8}
    (h : map.lookup key = some url) (new : Int) :
    (mapInsert map new path).lookup key = some url := by
  rw [mapInsert]
  split
  · exact h
  · next hnone =>
      rw [List.lookup_cons]
      split
      · next hkey =>
          rw [← eq_of_beq hkey, h] at hnone
          exact absurd rfl hnone
      · exact h

/-- Each module's hash is in the map, and a hash leads to the path of a module that has it. -/
structure Esm.Keyed (host : Host) (s : Esm) : Prop where
  isSome : ∀ n, n < s.compiled.length → (s.modulePathMap.lookup (host.hash n)).isSome
  of_lookup : ∀ key p, s.modulePathMap.lookup key = some p →
    ∃ n, host.hash n = key ∧ s.compiled[n]? = some p

/-- Modules with the same hash are compiled from files in the same directory. -/
def Esm.Separated (host : Host) (s : Esm) : Prop :=
  ∀ n k p q, s.compiled[n]? = some p → s.compiled[k]? = some q → host.hash n = host.hash k →
    dirname p = dirname q

/-- Different hashes for different modules. -/
theorem Esm.separated_of_injective {host : Host} (h : Function.Injective host.hash) {s : Esm} :
    s.Separated host := by
  intro n k p q hn hk heq
  rw [h heq, hk] at hn
  cases hn
  rfl

theorem Esm.Keyed.nil (host : Host) : Esm.Keyed host ⟨[], []⟩ where
  isSome := fun _ h => by cases h
  of_lookup := fun _ _ h => by cases h

/-- Where modules with the same hash share a directory, a module's hash leads to its directory. -/
theorem Esm.Keyed.lookup_dir {host : Host} {s : Esm} (h : s.Keyed host) (hs : s.Separated host)
    {n : Nat} {p : List UInt8} (hn : s.compiled[n]? = some p) :
    ∃ url, s.modulePathMap.lookup (host.hash n) = some url ∧ dirname url = dirname p := by
  obtain ⟨url, hurl⟩ := Option.isSome_iff_exists.1 (h.isSome n (List.getElem?_eq_some_iff.1 hn).1)
  obtain ⟨k, hhash, hk⟩ := h.of_lookup _ url hurl
  exact ⟨url, hurl, hs k n url p hk hn hhash⟩

theorem Esm.Keyed.insert {host : Host} {s : Esm} (h : s.Keyed host) (path : List UInt8) :
    Esm.Keyed host ⟨s.compiled ++ [path],
      mapInsert s.modulePathMap (host.hash s.compiled.length) path⟩ := by
  constructor
  · intro n hn
    rw [List.length_append, List.length_singleton] at hn
    rcases Nat.lt_or_ge n s.compiled.length with hlt | hge
    · obtain ⟨url, hurl⟩ := Option.isSome_iff_exists.1 (h.isSome n hlt)
      simp only [lookup_mapInsert hurl, Option.isSome_some]
    · have heq : n = s.compiled.length := by omega
      subst heq
      simp only [mapInsert]
      split
      · next hsome => exact hsome
      · rw [List.lookup_cons, beq_self_eq_true]
        rfl
  · intro key p hp
    simp only [mapInsert] at hp
    have hold : s.modulePathMap.lookup key = some p →
        ∃ n, host.hash n = key ∧ (s.compiled ++ [path])[n]? = some p := fun hp => by
      obtain ⟨n, hhash, hn⟩ := h.of_lookup key p hp
      refine ⟨n, hhash, ?_⟩
      rw [List.getElem?_append_left (List.getElem?_eq_some_iff.1 hn).1, hn]
    split at hp
    · exact hold hp
    · rw [List.lookup_cons] at hp
      split at hp
      · next hkey =>
          cases hp
          exact ⟨s.compiled.length, (eq_of_beq hkey).symm, List.getElem?_concat_length⟩
      · exact hold hp

theorem compileModule_eq {host : Host} {path : List UInt8} {requests : List (List UInt8)}
    (hrequests : host.requests path = some requests) (s : Esm) :
    compileModule host path s = .ok (some ⟨s.compiled.length, path, requests⟩,
      ⟨s.compiled ++ [path], mapInsert s.modulePathMap (host.hash s.compiled.length) path⟩) := by
  obtain ⟨text, hfetch, hcompile⟩ := Option.bind_eq_some_iff.1 hrequests
  simp only [compileModule, hfetch, hcompile]
  rfl

end Ryze
