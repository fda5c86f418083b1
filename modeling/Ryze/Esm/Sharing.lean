import Ryze.Esm.Loader

set_option autoImplicit false

/-! # How often a file is compiled

`module_path_map` leads from a module to its path and not back, so the callback compiles a file for
every import of it, and `InstantiateModule` never gets a module it has seen. As long as modules with
the same hash share their directory, loading is the unfolding of the import graph
(`Lib/Unfolding.lean`): a file is compiled once when it is imported once, and on a cycle the run does
not end. -/

namespace Ryze

open CLib Transition Unfolding

/-- A module of a run: compiled from a file of the set, with the imports of that file. -/
structure Module.Of {host : Host} (M : ModuleSet host) (s : Esm) (m : Module) : Prop where
  compiled_eq : s.compiled[m.id]? = some m.path
  path_mem : m.path ∈ M.files
  requests_eq : host.requests m.path = some m.requests

theorem Module.Of.id_lt {host : Host} {M : ModuleSet host} {s : Esm} {m : Module}
    (h : m.Of M s) : m.id < s.compiled.length :=
  (List.getElem?_eq_some_iff.1 h.compiled_eq).1

theorem Module.Of.append {host : Host} {M : ModuleSet host} {s s' : Esm} {m : Module}
    (h : m.Of M s) {l : List (List UInt8)} (hs : s'.compiled = s.compiled ++ l) : m.Of M s' where
  compiled_eq := by rw [hs, List.getElem?_append_left h.id_lt, h.compiled_eq]
  path_mem := h.path_mem
  requests_eq := h.requests_eq

section Requests

variable {host : Host} (M : ModuleSet host) {s : Esm} (hs : s.Keyed host) {m : Module}
  {url : List UInt8} (hurl : s.modulePathMap.lookup (host.hash m.id) = some url)
  (hdir : dirname url = dirname m.path)

include hs hurl hdir

/-- The callback finds the importing module's directory and compiles a new module. -/
theorem resolveModuleCallback_eq {specifier q : List UInt8}
    (hresolve : resolveImport specifier m.path = .ok q) (hq : q ∈ M.files) :
    ∃ new s', resolveModuleCallback host specifier m s = .ok (some new, s') ∧ s'.Keyed host ∧
      s'.modulePathMap.lookup (host.hash m.id) = some url ∧
      s'.compiled = s.compiled ++ [q] ∧ new.path = q ∧ new.id = s.compiled.length ∧
      new.Of M s' := by
  obtain ⟨requests, hrequests, _⟩ := M.closed q hq
  refine ⟨⟨s.compiled.length, q, requests⟩, _, ?_, hs.insert q, lookup_mapInsert hurl _, rfl, rfl,
    rfl, ⟨List.getElem?_concat_length, hq, hrequests⟩⟩
  have hbase : resolveImport specifier url = resolveImport specifier m.path := by
    rw [resolveImport, resolveImport, hdir]
  simp only [resolveModuleCallback, hurl, hbase, hresolve, ok_bind, compileModule_eq hrequests]

/-- All of a module's imports give a new module each. -/
theorem resolveRequests_eq {specifiers : List (List UInt8)}
    (hclosed : ∀ specifier ∈ specifiers, ∃ q ∈ M.files, resolveImport specifier m.path = .ok q) :
    ∃ ms s', resolveRequests host m specifiers s = .ok (some ms, s') ∧ s'.Keyed host ∧
      s'.compiled = s.compiled ++ ms.map Module.path ∧
      ms.map Module.path
        = specifiers.filterMap (fun specifier => (resolveImport specifier m.path).toOption) ∧
      (ms.map Module.id).Nodup ∧ ∀ new ∈ ms, s.compiled.length ≤ new.id ∧ new.Of M s' := by
  induction specifiers generalizing s with
  | nil => exact ⟨[], s, rfl, hs, (List.append_nil _).symm, rfl, List.nodup_nil, by simp⟩
  | cons specifier specifiers ih =>
      obtain ⟨q, hq, hresolve⟩ := hclosed specifier List.mem_cons_self
      obtain ⟨new, s1, hcall, hs1, hurl1, hcompiled1, hpath, hid, hnew⟩ :=
        resolveModuleCallback_eq M hs hurl hdir hresolve hq
      obtain ⟨ms, s2, hrest, hs2, hcompiled2, hpaths, hnodup, hms⟩ :=
        ih hs1 hurl1 fun t ht => hclosed t (List.mem_cons_of_mem _ ht)
      have hlen : s1.compiled.length = s.compiled.length + 1 := by
        rw [hcompiled1, List.length_append, List.length_singleton]
      refine ⟨new :: ms, s2, ?_, hs2, ?_, ?_, ?_, ?_⟩
      · simp only [resolveRequests, hcall, hrest, ok_bind]
        rfl
      · rw [hcompiled2, hcompiled1, List.map_cons, hpath, List.append_assoc]
        rfl
      · rw [List.map_cons, hpath, hpaths, List.filterMap_cons, hresolve]
        rfl
      · rw [List.map_cons, List.nodup_cons]
        refine ⟨fun hmem => ?_, hnodup⟩
        obtain ⟨other, hother, heq⟩ := List.mem_map.1 hmem
        have hle := (hms other hother).1
        omega
      · intro other hother
        rcases List.mem_cons.1 hother with rfl | hother
        · exact ⟨by omega, hnew.append hcompiled2⟩
        · exact ⟨by have hle := (hms other hother).1; omega, (hms other hother).2⟩

end Requests

/-! ## The run as an unfolding -/

/-- The run seen through the paths of its modules. -/
def Linking.progress (s : Linking) : Progress (List UInt8) :=
  ⟨s.linked.map Module.path, s.agenda.map Module.path⟩

/-- No module is met twice, and everything compiled is on one of the two lists. -/
structure Linking.Fresh {host : Host} (M : ModuleSet host) (entry : List UInt8) (s : Linking) :
    Prop where
  keyed : s.esm.Keyed host
  modules : ∀ m ∈ s.linked ++ s.agenda, m.Of M s.esm
  ids_nodup : ((s.linked ++ s.agenda).map Module.id).Nodup
  compiled_eq : s.esm.compiled = s.progress.found host.imports entry

section Run

variable {host : Host} {M : ModuleSet host} {entry : List UInt8}

/-- Going into a module expands its path. -/
theorem linkStep_eq {s : Linking} (hs : s.Fresh M entry) (hhash : s.esm.Separated host) {m : Module}
    {rest : List Module} (hagenda : s.agenda = m :: rest) :
    ∃ s', linkStep host s = .ok (some s') ∧ s'.Fresh M entry ∧
      s'.progress = ⟨s.progress.expanded ++ [m.path], host.imports m.path
        ++ rest.map Module.path⟩ := by
  have hmodules := hs.modules
  have hids := hs.ids_nodup
  rw [hagenda] at hmodules hids
  have hm : m.Of M s.esm := hmodules m (by simp)
  obtain ⟨requests, hrequests, hclosed⟩ := M.closed m.path hm.path_mem
  have heq : requests = m.requests := Option.some.inj (hrequests.symm.trans hm.requests_eq)
  subst heq
  obtain ⟨url, hurl, hdir⟩ := hs.keyed.lookup_dir hhash hm.compiled_eq
  obtain ⟨ms, esm, hresolve, hkeyed, hcompiled, hpaths, hnodup, hms⟩ :=
    resolveRequests_eq M hs.keyed hurl hdir hclosed
  have himports : ms.map Module.path = host.imports m.path := by
    rw [hpaths, Host.imports, hrequests]
    rfl
  have hfresh : m.id ∉ s.linked.map Module.id := by
    rw [List.map_append, List.map_cons, List.nodup_append] at hids
    exact fun h => hids.2.2 _ h _ List.mem_cons_self rfl
  refine ⟨⟨ms ++ rest, s.linked ++ [m], esm⟩, ?_, ⟨hkeyed, ?_, ?_, ?_⟩, ?_⟩
  · simp only [linkStep, hagenda, if_neg hfresh, hresolve, ok_bind]
    rfl
  · intro t ht
    simp only [List.mem_append, List.mem_singleton] at ht
    rcases ht with (ht | rfl) | ht | ht
    · exact (hmodules t (by simp [ht])).append hcompiled
    · exact hm.append hcompiled
    · exact (hms t ht).2
    · exact (hmodules t (by simp [ht])).append hcompiled
  · -- the new modules' ids are larger than all the others
    have hperm : (s.linked ++ [m] ++ (ms ++ rest)).Perm (s.linked ++ m :: rest ++ ms) := by
      have hswap : (ms ++ rest).Perm (rest ++ ms) := List.perm_append_comm
      rw [List.append_assoc, List.append_assoc]
      exact (hswap.cons m).append_left s.linked
    rw [(hperm.map Module.id).nodup_iff, List.map_append, List.nodup_append]
    refine ⟨hids, hnodup, ?_⟩
    rintro i hi _ hj rfl
    obtain ⟨t, ht, rfl⟩ := List.mem_map.1 hi
    obtain ⟨new, hnew, heq⟩ := List.mem_map.1 hj
    have hlt := (hmodules t ht).id_lt
    have hle := (hms new hnew).1
    omega
  · have hnext : Linking.progress ⟨ms ++ rest, s.linked ++ [m], esm⟩
        = ⟨s.progress.expanded ++ [m.path], host.imports m.path ++ rest.map Module.path⟩ := by
      simp only [Linking.progress, List.map_append, himports, List.map_cons, List.map_nil]
    rw [hnext, found_next, ← hs.compiled_eq, hcompiled, himports]
  · simp only [Linking.progress, List.map_append, himports, List.map_cons, List.map_nil]

variable {start : Linking} (hstart : start.Fresh M entry)
  (hinit : start.progress = (unfolding host.imports entry).init)
  (hhash : ∀ s, Reachable (instantiateModule host start) s → s.esm.Separated host)

include hstart hhash

omit hinit in
theorem fresh_of_reachable {s : Linking} (hs : Reachable (instantiateModule host start) s) :
    s.Fresh M entry := by
  induction hs with
  | init => exact hstart
  | @step s s' a hs hstep ih =>
      cases hagenda : s.agenda with
      | nil =>
          simp only [instantiateModule, linkStep, hagenda] at hstep
          cases hstep
      | cons m rest =>
          obtain ⟨t, ht, hfresh, _⟩ := linkStep_eq ih (hhash s hs) hagenda
          simp only [instantiateModule, ht] at hstep
          cases hstep
          exact hfresh

include hinit

/-- **Refinement.** Loading does what the unfolding does. -/
theorem instantiateModule_refines :
    Refines (instantiateModule host start) (unfolding host.imports entry) Linking.progress where
  init := hinit
  step := by
    intro s a s' hs hstep
    have hfresh := fresh_of_reachable hstart hhash hs
    cases hagenda : s.agenda with
    | nil =>
        simp only [instantiateModule, linkStep, hagenda] at hstep
        cases hstep
    | cons m rest =>
        obtain ⟨t, ht, _, hprogress⟩ := linkStep_eq hfresh (hhash s hs) hagenda
        simp only [instantiateModule, ht] at hstep
        cases hstep
        refine Or.inr ⟨(), ?_⟩
        simp only [unfolding, Linking.progress, hagenda, List.map_cons]
        exact congrArg some hprogress.symm

/-- And the other way round. -/
theorem unfolding_lifts {t : Progress (List UInt8)}
    (ht : Reachable (unfolding host.imports entry) t) :
    ∃ s, Reachable (instantiateModule host start) s ∧ s.progress = t := by
  refine Reachable.lift (M := instantiateModule host start) hinit ?_ ht
  intro s b t hs hstep
  have hfresh := fresh_of_reachable hstart hhash hs
  obtain ⟨p, rest, hagenda, rfl⟩ := unfolding_step hstep
  obtain ⟨m, ms, hlist, rfl, rfl⟩ := List.map_eq_cons_iff.1 hagenda
  obtain ⟨s', hs', _, hprogress⟩ := linkStep_eq hfresh (hhash s hs) hlist
  refine ⟨(), s', ?_, hprogress⟩
  simp only [instantiateModule, hs']

end Run

/-- `esm_init` compiles the entry file and hands it to `InstantiateModule`. -/
theorem esmInit_eq {host : Host} (M : ModuleSet host) {filePath cwd entry : List UInt8}
    (hpath : esmPath filePath cwd = .ok entry) (hentry : entry ∈ M.files) :
    ∃ start, esmInit host filePath cwd = .ok (some start) ∧ start.Fresh M entry ∧
      start.progress = (unfolding host.imports entry).init := by
  obtain ⟨requests, hrequests, _⟩ := M.closed entry hentry
  refine ⟨⟨[⟨0, entry, requests⟩], [], _⟩, ?_, ⟨(Esm.Keyed.nil host).insert entry, ?_, ?_, rfl⟩,
    rfl⟩
  · simp only [esmInit, hpath, ok_bind, compileModule_eq hrequests]
    rfl
  · intro m hm
    rw [List.mem_singleton.1 hm]
    exact ⟨rfl, hentry, hrequests⟩
  · exact List.nodup_singleton _

/-- Loading the entry file compiles no path twice exactly when no file that can be reached is
    imported twice and the entry is not imported; then it ends. It ends exactly when no cycle of
    imports can be reached. -/
theorem esmInit_compilesOnce_iff {host : Host} (M : ModuleSet host)
    {filePath cwd entry : List UInt8} (hpath : esmPath filePath cwd = .ok entry)
    (hentry : entry ∈ M.files) (hhash : ∀ s, Loads host filePath cwd s → s.esm.Separated host) :
    ((∀ s, Loads host filePath cwd s → s.esm.compiled.Nodup) ↔ FoundOnce host.imports entry) ∧
    ((∀ s, Loads host filePath cwd s → s.esm.compiled.Nodup) →
      ∃ s, Loads host filePath cwd s ∧ s.agenda = []) ∧
    ((∃ s, Loads host filePath cwd s ∧ s.agenda = []) ↔ ¬ Cyclic host.imports entry) := by
  obtain ⟨start, hinit, hfresh, hprogress⟩ := esmInit_eq M hpath hentry
  have hloads : ∀ {s}, Loads host filePath cwd s ↔ Reachable (instantiateModule host start) s := by
    intro s
    constructor
    · rintro ⟨start', hinit', hs⟩
      cases hinit.symm.trans hinit'
      exact hs
    · exact fun hs => ⟨start, hinit, hs⟩
  have hseparated : ∀ s, Reachable (instantiateModule host start) s → s.esm.Separated host :=
    fun s hs => hhash s (hloads.2 hs)
  have hforth : ∀ {s}, Loads host filePath cwd s →
      Reachable (unfolding host.imports entry) s.progress ∧
        s.esm.compiled = s.progress.found host.imports entry := fun hs =>
    ⟨(instantiateModule_refines hfresh hprogress hseparated).reachable (hloads.1 hs),
      (fresh_of_reachable hfresh hseparated (hloads.1 hs)).compiled_eq⟩
  have hback : ∀ {t}, Reachable (unfolding host.imports entry) t →
      ∃ s, Loads host filePath cwd s ∧ s.progress = t := fun ht => by
    obtain ⟨s, hs, heq⟩ := unfolding_lifts hfresh hprogress hseparated ht
    exact ⟨s, hloads.2 hs, heq⟩
  have hnodup : (∀ s, Loads host filePath cwd s → s.esm.compiled.Nodup) ↔
      ∀ t, Reachable (unfolding host.imports entry) t →
        (t.found host.imports entry).Nodup := by
    constructor
    · intro h t ht
      obtain ⟨s, hs, rfl⟩ := hback ht
      rw [← (hforth hs).2]
      exact h s hs
    · intro h s hs
      rw [(hforth hs).2]
      exact h _ (hforth hs).1
  have hends : (∃ s, Loads host filePath cwd s ∧ s.agenda = []) ↔
      ∃ t, Reachable (unfolding host.imports entry) t ∧ t.agenda = [] := by
    constructor
    · rintro ⟨s, hs, hend⟩
      exact ⟨_, (hforth hs).1, List.map_eq_nil_iff.2 hend⟩
    · rintro ⟨t, ht, hend⟩
      obtain ⟨s, hs, rfl⟩ := hback ht
      exact ⟨s, hs, List.map_eq_nil_iff.1 hend⟩
  have hclosed : ∀ p ∈ M.files, ∀ q ∈ host.imports p, q ∈ M.files := fun _ hp _ => M.imports_mem hp
  rw [hnodup, hends]
  exact ⟨nodup_iff hentry hclosed, ends_of_nodup hentry hclosed, ends_iff hentry hclosed⟩

/-! ## Examples of import graphs -/

/-- Files given by a table of their specifiers; the text of each file is its own path. -/
def tableHost (table : List (List UInt8 × List (List UInt8))) (hash : Nat → Int) : Host where
  httpGet := fun path => (table.lookup path).map fun _ => path
  readFile := fun path => (table.lookup path).map fun _ => path
  compile := fun text => table.lookup text
  hash := hash

theorem requests_tableHost (table : List (List UInt8 × List (List UInt8))) (hash : Nat → Int)
    (path : List UInt8) : (tableHost table hash).requests path = table.lookup path := by
  have hfetch : (tableHost table hash).fetch path = (table.lookup path).map fun _ => path := by
    rw [Host.fetch]
    split <;> rfl
  rw [Host.requests, hfetch]
  cases hlookup : table.lookup path with
  | none => rfl
  | some requests => exact hlookup

theorem imports_tableHost (table : List (List UInt8 × List (List UInt8))) (hash : Nat → Int) :
    (tableHost table hash).imports = fun path =>
      ((table.lookup path).getD []).filterMap fun specifier =>
        (resolveImport specifier path).toOption := by
  funext path
  rw [Host.imports, requests_tableHost]

/-- The files of a table whose imports all lead to files of the table. -/
def tableSet (table : List (List UInt8 × List (List UInt8))) (hash : Nat → Int)
    (h : ∀ p ∈ table.map Prod.fst, (table.lookup p).isSome ∧
      ∀ specifier ∈ (table.lookup p).getD [],
        ∃ q ∈ table.map Prod.fst, resolveImport specifier p = .ok q) :
    ModuleSet (tableHost table hash) where
  files := (table.map Prod.fst).toFinset
  closed := by
    intro p hp
    obtain ⟨hsome, hclosed⟩ := h p (List.mem_toFinset.1 hp)
    obtain ⟨requests, hrequests⟩ := Option.isSome_iff_exists.1 hsome
    refine ⟨requests, (requests_tableHost table hash p).trans hrequests, fun specifier hmem => ?_⟩
    rw [hrequests] at hclosed
    obtain ⟨q, hq, hresolve⟩ := hclosed specifier hmem
    exact ⟨q, List.mem_toFinset.2 hq, hresolve⟩

/-- What has been compiled when `InstantiateModule` has gone into `n` modules. -/
def compiledAfter (host : Host) (filePath cwd : List UInt8) (n : Nat) :
    Option (List (List UInt8)) := do
  let start ← (esmInit host filePath cwd).toOption.join
  let s ← (instantiateModule host start).run start (List.replicate n ())
  return s.esm.compiled

theorem loads_of_compiledAfter {host : Host} {filePath cwd : List UInt8} {n : Nat}
    {l : List (List UInt8)} (h : compiledAfter host filePath cwd n = some l) :
    ∃ s, Loads host filePath cwd s ∧ s.esm.compiled = l := by
  obtain ⟨start, hstart, h⟩ := Option.bind_eq_some_iff.1 h
  obtain ⟨s, hs, h⟩ := Option.bind_eq_some_iff.1 h
  cases h
  cases hinit : esmInit host filePath cwd with
  | error e =>
      rw [hinit] at hstart
      cases hstart
  | ok o =>
      rw [hinit] at hstart
      cases hstart
      exact ⟨s, ⟨start, hinit, Reachable.init.run hs⟩, rfl⟩

/-- `/m/a.js` imports `/m/b/c.js`, which imports `/m/b/b/c.js`. -/
def chain : List (List UInt8 × List (List UInt8)) :=
  [(bytes "/m/a.js", [bytes "./b/c.js"]), (bytes "/m/b/c.js", [bytes "./b/c.js"]),
    (bytes "/m/b/b/c.js", [])]

def chainSet (hash : Nat → Int) : ModuleSet (tableHost chain hash) :=
  tableSet chain hash (by decide +kernel)

theorem chain_foundOnce (hash : Nat → Int) :
    FoundOnce (tableHost chain hash).imports (bytes "/m/a.js") := by
  rw [imports_tableHost]
  exact FoundOnce.of_nodes (show bytes "/m/a.js" ∈ (chain.map Prod.fst).toFinset by decide)
    (by decide +kernel) (by decide +kernel) (by decide +kernel) (by decide +kernel)

theorem esmInit_compilesOnce_chain :
    (∀ s, Loads (tableHost chain Int.ofNat) (bytes "/m/a.js") [] s → s.esm.compiled.Nodup) ∧
    ∃ s, Loads (tableHost chain Int.ofNat) (bytes "/m/a.js") [] s ∧ s.agenda = [] := by
  have h := esmInit_compilesOnce_iff (chainSet Int.ofNat)
    (show esmPath (bytes "/m/a.js") [] = .ok (bytes "/m/a.js") by decide +kernel) (by decide)
    fun _ _ => Esm.separated_of_injective fun _ _ => Int.ofNat.inj
  have hnodup := h.1.2 (chain_foundOnce Int.ofNat)
  exact ⟨hnodup, h.2.1 hnodup⟩

/-- `/m/a.js` imports `/m/b.js` and `/m/c.js`, which both import `/m/d.js`. -/
def diamond : List (List UInt8 × List (List UInt8)) :=
  [(bytes "/m/a.js", [bytes "./b.js", bytes "./c.js"]), (bytes "/m/b.js", [bytes "./d.js"]),
    (bytes "/m/c.js", [bytes "./d.js"]), (bytes "/m/d.js", [])]

/-- The file at the bottom of the diamond is compiled twice. And if all hashes are the same, what the
    second file of the chain imports is looked for in the first one's directory, and found to be the
    second file again. -/
theorem esmInit_diamond :
    (¬ ∀ (host : Host) (M : ModuleSet host) (filePath cwd entry : List UInt8),
      Function.Injective host.hash → esmPath filePath cwd = .ok entry → entry ∈ M.files →
      ∀ s, Loads host filePath cwd s → s.esm.compiled.Nodup) ∧
    ¬ ∀ (host : Host) (M : ModuleSet host) (filePath cwd entry : List UInt8),
      FoundOnce host.imports entry → esmPath filePath cwd = .ok entry → entry ∈ M.files →
      ∀ s, Loads host filePath cwd s → s.esm.compiled.Nodup := by
  have hpath : esmPath (bytes "/m/a.js") [] = .ok (bytes "/m/a.js") := by decide +kernel
  constructor
  · intro h
    obtain ⟨s, hs, hcompiled⟩ := loads_of_compiledAfter (n := 4) (show
      compiledAfter (tableHost diamond Int.ofNat) (bytes "/m/a.js") [] 4
        = some [bytes "/m/a.js", bytes "/m/b.js", bytes "/m/c.js", bytes "/m/d.js",
          bytes "/m/d.js"] by decide +kernel)
    have hnodup := h _ (tableSet diamond Int.ofNat (by decide +kernel)) _ _ _
      (fun _ _ => Int.ofNat.inj) hpath (by decide) s hs
    rw [hcompiled] at hnodup
    exact absurd hnodup (by decide)
  · intro h
    obtain ⟨s, hs, hcompiled⟩ := loads_of_compiledAfter (n := 2) (show
      compiledAfter (tableHost chain fun _ => 1) (bytes "/m/a.js") [] 2
        = some [bytes "/m/a.js", bytes "/m/b/c.js", bytes "/m/b/c.js"] by decide +kernel)
    have hnodup := h _ (chainSet fun _ => 1) _ _ _ (chain_foundOnce _) hpath (by decide) s hs
    rw [hcompiled] at hnodup
    exact absurd hnodup (by decide)

end Ryze
