import Ryze.Esm.Sharing

set_option autoImplicit false

/-! # Which path a module is given

`module_path_map` is keyed by identity hashes. V8 promises neither that two modules have different
hashes nor anything else about them, and `insert` does not replace an entry, so a module's path is
that of the first module with its hash. Here modules are compiled in any order, also by callbacks
that the run of one `InstantiateModule` would not make. -/

namespace Ryze

open CLib Transition

/-- The two functions that compile a module. -/
inductive EsmCall
  | init (filePath cwd : List UInt8)
  | resolve (specifier : List UInt8) (referer : Module)
deriving DecidableEq, Repr

/-- The state a call leaves, if it returns. -/
def leaves (r : CRun (Option Module × Esm)) : Option Esm := (r.map Prod.snd).toOption

/-- All sequences of calls: `esm_init` once, then callbacks for modules that have been compiled. -/
def esmCalls (host : Host) : System Esm EsmCall where
  init := ⟨[], []⟩
  step s
    | .init filePath cwd =>
      if s.compiled = [] then
        leaves do
          let path ← esmPath filePath cwd
          compileModule host path s
      else none
    | .resolve specifier referer =>
      if s.compiled[referer.id]? = some referer.path then
        leaves (resolveModuleCallback host specifier referer s)
      else none

/-- What `import_meta_obj_callback` stores under `url`. -/
def importMetaObjCallback (host : Host) (module : Module) (s : Esm) : CRun (List UInt8) :=
  match s.modulePathMap.lookup (host.hash module.id) with
  -- `it->second` behind the end of the map
  | none => throw .read
  | some url => return url

theorem leaves_eq_some {r : CRun (Option Module × Esm)} {s : Esm} (h : leaves r = some s) :
    ∃ m, r = .ok (m, s) := by
  cases r with
  | error e => cases h
  | ok r =>
      obtain ⟨m, t⟩ := r
      cases h
      exact ⟨m, rfl⟩

/-- A compilation that returns has added nothing, or the path it was given under the next hash. -/
theorem compileModule_cases {host : Host} {path : List UInt8} {s s' : Esm} {m : Option Module}
    (h : compileModule host path s = .ok (m, s')) :
    s' = s ∨ s' = ⟨s.compiled ++ [path],
      mapInsert s.modulePathMap (host.hash s.compiled.length) path⟩ := by
  unfold compileModule at h
  split at h
  · cases h
  · split at h
    · cases h
      exact Or.inl rfl
    · cases h
      exact Or.inr rfl

/-- Every call adds at most one module. -/
theorem esmCalls_cases {host : Host} {s s' : Esm} {call : EsmCall}
    (h : (esmCalls host).step s call = some s') :
    s' = s ∨ ∃ path, s' = ⟨s.compiled ++ [path],
      mapInsert s.modulePathMap (host.hash s.compiled.length) path⟩ := by
  cases call with
  | init filePath cwd =>
      change (if _ then _ else _) = _ at h
      split at h
      · obtain ⟨m, hrun⟩ := leaves_eq_some h
        obtain ⟨path, _, hcompile⟩ := bind_eq_ok.1 hrun
        exact (compileModule_cases hcompile).imp_right fun heq => ⟨path, heq⟩
      · cases h
  | resolve specifier referer =>
      change (if _ then _ else _) = _ at h
      split at h
      · obtain ⟨m, hrun⟩ := leaves_eq_some h
        unfold resolveModuleCallback at hrun
        split at hrun
        · cases hrun
        · obtain ⟨path, _, hcompile⟩ := bind_eq_ok.1 hrun
          exact (compileModule_cases hcompile).imp_right fun heq => ⟨path, heq⟩
      · cases h

theorem esmCalls_keyed {host : Host} {s : Esm} (hs : Reachable (esmCalls host) s) :
    s.Keyed host := by
  refine hs.invariant (Esm.Keyed host) (Esm.Keyed.nil host) ?_
  intro s call s' hkeyed hstep
  rcases esmCalls_cases hstep with rfl | ⟨path, rfl⟩
  · exact hkeyed
  · exact hkeyed.insert path

/-! ## The first module with a hash -/

/-- An entry of the map is the path of the first module that has its key for a hash. -/
def Esm.First (host : Host) (s : Esm) : Prop :=
  ∀ key p, s.modulePathMap.lookup key = some p →
    ∃ n, host.hash n = key ∧ s.compiled[n]? = some p ∧ ∀ k < n, host.hash k ≠ key

theorem Esm.First.insert {host : Host} {s : Esm} (h : s.First host) (hkeyed : s.Keyed host)
    (path : List UInt8) : Esm.First host ⟨s.compiled ++ [path],
      mapInsert s.modulePathMap (host.hash s.compiled.length) path⟩ := by
  intro key p hp
  have hold : s.modulePathMap.lookup key = some p → ∃ n, host.hash n = key ∧
      (s.compiled ++ [path])[n]? = some p ∧ ∀ k < n, host.hash k ≠ key := by
    intro hlookup
    obtain ⟨n, hhash, hn, hfirst⟩ := h key p hlookup
    refine ⟨n, hhash, ?_, hfirst⟩
    rw [List.getElem?_append_left (List.getElem?_eq_some_iff.1 hn).1, hn]
  simp only [mapInsert] at hp
  split at hp
  · exact hold hp
  · next hnone =>
      rw [List.lookup_cons] at hp
      split at hp
      · next hkey =>
          cases hp
          obtain rfl := eq_of_beq hkey
          refine ⟨s.compiled.length, rfl, List.getElem?_concat_length, ?_⟩
          -- a module with this hash would have put an entry there
          intro k hk heq
          have hsome := hkeyed.isSome k hk
          rw [heq] at hsome
          exact hnone hsome
      · exact hold hp

theorem esmCalls_first {host : Host} {s : Esm} (hs : Reachable (esmCalls host) s) :
    s.First host := by
  have hboth : s.Keyed host ∧ s.First host := by
    refine hs.invariant (fun s => Esm.Keyed host s ∧ Esm.First host s)
      ⟨Esm.Keyed.nil host, fun _ _ h => by cases h⟩ ?_
    rintro s call s' ⟨hkeyed, hfirst⟩ hstep
    rcases esmCalls_cases hstep with rfl | ⟨path, rfl⟩
    · exact ⟨hkeyed, hfirst⟩
    · exact ⟨hkeyed.insert path, hfirst.insert hkeyed path⟩
  exact hboth.2

/-- A module's hash leads to the path of the first module that has it, so a module whose hash is
    taken resolves its imports below that module's directory and names its path as its own. -/
theorem esmCalls_lookup {host : Host} {s : Esm} (hs : Reachable (esmCalls host) s) {n : Nat}
    (hn : n < s.compiled.length) :
    ∃ k ≤ n, host.hash k = host.hash n ∧ (∀ j < k, host.hash j ≠ host.hash n) ∧
      s.modulePathMap.lookup (host.hash n) = s.compiled[k]? := by
  obtain ⟨p, hp⟩ := Option.isSome_iff_exists.1 ((esmCalls_keyed hs).isSome n hn)
  obtain ⟨k, hhash, hk, hfirst⟩ := esmCalls_first hs _ p hp
  have hle : k ≤ n := by
    by_contra hlt
    exact hfirst n (by omega) rfl
  exact ⟨k, hle, hhash, hfirst, hp.trans hk.symm⟩

/-! ## A module's own path -/

/-- The map, `import.meta.url` and the base of relative imports give a module the path it was
    compiled from. -/
structure Esm.OwnPath (host : Host) (s : Esm) (m : Module) : Prop where
  lookup_eq : s.modulePathMap.lookup (host.hash m.id) = some m.path
  url_eq : importMetaObjCallback host m s = .ok m.path
  base_eq : ∀ specifier, resolveModuleCallback host specifier m s = do
    let path ← resolveImport specifier m.path
    compileModule host path s

theorem Esm.ownPath_of_lookup {host : Host} {s : Esm} {m : Module}
    (h : s.modulePathMap.lookup (host.hash m.id) = some m.path) : s.OwnPath host m where
  lookup_eq := h
  url_eq := by
    unfold importMetaObjCallback
    rw [h]
    rfl
  base_eq := by
    intro specifier
    unfold resolveModuleCallback
    rw [h]

/-- In every state of every sequence of calls: all modules are given their own paths exactly if those
    with the same hash have the same path. -/
theorem esmCalls_ownPath_iff (host : Host) (s : Esm) (hs : Reachable (esmCalls host) s) :
    (∀ m : Module, s.compiled[m.id]? = some m.path → s.OwnPath host m) ↔
      ∀ n k p q, s.compiled[n]? = some p → s.compiled[k]? = some q → host.hash n = host.hash k →
        p = q := by
  constructor
  · intro hown n k p q hn hk heq
    have hp := (hown ⟨n, p, []⟩ hn).lookup_eq
    have hq := (hown ⟨k, q, []⟩ hk).lookup_eq
    rw [heq, hq] at hp
    exact (Option.some.inj hp).symm
  · intro hsame m hm
    refine Esm.ownPath_of_lookup ?_
    have hkeyed := esmCalls_keyed hs
    obtain ⟨p, hp⟩ := Option.isSome_iff_exists.1
      (hkeyed.isSome m.id (List.getElem?_eq_some_iff.1 hm).1)
    obtain ⟨k, hhash, hk⟩ := hkeyed.of_lookup _ p hp
    rw [hp, hsame m.id k m.path p hm hk hhash.symm]

/-- The calls that load the first two files of `chain`. -/
def chainCalls : List EsmCall :=
  [.init (bytes "/m/a.js") [], .resolve (bytes "./b/c.js") ⟨0, bytes "/m/a.js", []⟩]

theorem esmCalls_ownPath_chain : ∃ s, Reachable (esmCalls (tableHost chain Int.ofNat)) s ∧
    s.compiled = [bytes "/m/a.js", bytes "/m/b/c.js"] ∧
    ∀ m : Module, s.compiled[m.id]? = some m.path → s.OwnPath (tableHost chain Int.ofNat) m := by
  have hrun : (esmCalls (tableHost chain Int.ofNat)).run ⟨[], []⟩ chainCalls
      = some ⟨[bytes "/m/a.js", bytes "/m/b/c.js"],
        [(1, bytes "/m/b/c.js"), (0, bytes "/m/a.js")]⟩ := by decide +kernel
  have hs : Reachable (esmCalls (tableHost chain Int.ofNat)) _ := Reachable.init.run hrun
  refine ⟨_, hs, rfl, (esmCalls_ownPath_iff _ _ hs).2 ?_⟩
  intro n k p q hn hk heq
  obtain rfl : n = k := Int.ofNat.inj heq
  rw [hn] at hk
  exact Option.some.inj hk

/-- Two modules with one hash: the second one gets the first one's path. -/
theorem esmCalls_sameHash :
    ¬ ∀ (host : Host) (s : Esm), Reachable (esmCalls host) s →
      ∀ m : Module, s.compiled[m.id]? = some m.path →
        s.modulePathMap.lookup (host.hash m.id) = some m.path := by
  intro h
  have hrun : (esmCalls (tableHost chain fun _ => 1)).run ⟨[], []⟩ chainCalls
      = some ⟨[bytes "/m/a.js", bytes "/m/b/c.js"], [(1, bytes "/m/a.js")]⟩ := by decide +kernel
  have hlookup := h _ _ (Reachable.init.run hrun) ⟨1, bytes "/m/b/c.js", []⟩ rfl
  exact absurd hlookup (by decide)

end Ryze
