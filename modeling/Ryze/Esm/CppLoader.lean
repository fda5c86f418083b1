import Ryze.Esm.Identity
import Ryze.Util.CppPath

set_option autoImplicit false

/-! # Loading modules in C++

`src/main.cc`, `src/test.cc` and `src/xxx/main.cc` start from an entry file each and give a module the
path that `NormalizePath` makes of its specifier and of its importer's directory. Along a chain of
imports this comes to one resolution, of the last specifier in the directories of all of them. Only
where these cancel out, so that a file on the way is in the working directory itself, does its path
get a `/` in front, and what it imports is looked for from the root on. -/

namespace Ryze

open CLib Replay Transition

namespace Cpp

/-! ## The functions -/

/-- `str.find_last_of('/')` -/
def findLastSlash : List UInt8 → Option Nat
  | [] => none
  | c :: s =>
    match findLastSlash s with
    | some i => some (i + 1)
    | none => if c = slash then some 0 else none

/-- `str.substr(0, str.find_last_of('/'))`, and the empty string if there is no `/`. -/
def dirName (str : List UInt8) : List UInt8 :=
  match findLastSlash str with
  | some i => str.take i
  | none => []

/-- The path of the entry file in `src/main.cc`. -/
def entryPath : List UInt8 := bytes "./js/main.js"

/-- `ReadFile`, `CompileModule` and the entry in `module_to_specifier_map`; `none` if there is no
    module. -/
def compileModule (host : Host) (path : List UInt8) (s : Esm) : Option Esm :=
  ((host.readFile path).bind host.compile).map fun _ =>
    ⟨s.compiled ++ [path], mapInsert s.modulePathMap (host.hash s.compiled.length) path⟩

/-- `ResolveModuleCallback`; the referer is the module that was compiled as the `referer`-th. -/
def resolveModuleCallback (host : Host) (specifier : List UInt8) (referer : Nat) (s : Esm) :
    CRun (Option Esm) :=
  match s.modulePathMap.lookup (host.hash referer) with
  -- `specifier_it->second` behind the end of the map
  | none => throw .read
  | some str => return compileModule host (normalizePath specifier (dirName str)) s

/-- What loading leaves behind, and as history the specifiers that lead from the entry file to each
    module. -/
structure Loading where
  esm : Esm
  chains : List (List (List UInt8))
deriving DecidableEq, Repr

/-- What V8 calls: `main` compiles the entry file, then come callbacks for modules that have been
    compiled. -/
inductive LoaderCall
  | main
  | resolve (specifier : List UInt8) (referer : Nat)
deriving DecidableEq, Repr

/-- A call that returns, for a program with the entry file `entry`. -/
def Loading.step (host : Host) (entry : List UInt8) (s : Loading) : LoaderCall → Option Loading
  | .main =>
    if s.esm.compiled = [] then
      (compileModule host entry s.esm).map fun esm => ⟨esm, s.chains ++ [[]]⟩
    else none
  | .resolve specifier referer =>
    match s.chains[referer]? with
    | none => none
    | some chain =>
      match resolveModuleCallback host specifier referer s.esm with
      | .error _ => none
      | .ok none => some s
      | .ok (some esm) => some ⟨esm, s.chains ++ [chain ++ [specifier]]⟩

def loader (host : Host) (entry : List UInt8) : System Loading LoaderCall where
  init := ⟨⟨[], []⟩, []⟩
  step := Loading.step host entry

/-! ## What is meant -/

/-- The path that a chain of specifiers leads to, import by import. -/
def resolveChain : List UInt8 → List (List UInt8) → List UInt8
  | path, [] => path
  | path, specifier :: specifiers =>
    resolveChain (normalizePath specifier (dirName path)) specifiers

/-- The directory of a specifier behind that of its importer. -/
def joinDir (dir specifier : List UInt8) : List UInt8 :=
  if slash ∈ specifier then dir ++ slash :: dirName specifier else dir

/-- The directory that a specifier's file is in, as it is written. -/
def fileDir (dir specifier : List UInt8) : List UInt8 :=
  if specifier.head? = some slash then dirName specifier else joinDir dir specifier

/-- The directory that the imports of a specifier's file start from: that of the file, but the root
    where it comes to nothing. -/
def nextDir (dir specifier : List UInt8) : List UInt8 :=
  if stays segmentAct ((fileDir dir specifier).splitOn slash) = [] then []
  else fileDir dir specifier

/-- The directory that a chain of imports leads to. -/
def chainDir (dir : List UInt8) (specifiers : List (List UInt8)) : List UInt8 :=
  specifiers.foldl nextDir dir

/-- The last component of the specifier is a name. -/
def EndsInName (specifier : List UInt8) : Prop :=
  ∃ name ∈ (specifier.splitOn slash).getLast?, name ≠ [] ∧ segmentAct name = .push

/-! ## Directories -/

theorem findLastSlash_eq_none {s : List UInt8} (h : slash ∉ s) : findLastSlash s = none := by
  induction s with
  | nil => rfl
  | cons c s ih =>
      rw [List.mem_cons, not_or] at h
      obtain ⟨hc, hs⟩ := h
      unfold findLastSlash
      rw [ih hs]
      exact if_neg (Ne.symm hc)

theorem findLastSlash_append (u : List UInt8) {v : List UInt8} (hv : slash ∉ v) :
    findLastSlash (u ++ slash :: v) = some u.length := by
  induction u with
  | nil =>
      simp only [List.nil_append, findLastSlash, findLastSlash_eq_none hv]
      rfl
  | cons c u ih =>
      simp only [List.cons_append, findLastSlash, ih, List.length_cons]

theorem dirName_of_not_mem {s : List UInt8} (h : slash ∉ s) : dirName s = [] := by
  rw [dirName, findLastSlash_eq_none h]

theorem dirName_append (u : List UInt8) {v : List UInt8} (hv : slash ∉ v) :
    dirName (u ++ slash :: v) = u := by
  rw [dirName, findLastSlash_append u hv]
  exact List.take_left

/-- Cut at the last `/`. -/
theorem exists_append_slash {s : List UInt8} (h : slash ∈ s) :
    ∃ u v, slash ∉ v ∧ s = u ++ slash :: v := by
  induction s with
  | nil => cases h
  | cons c s ih =>
      by_cases hs : slash ∈ s
      · obtain ⟨u, v, hv, heq⟩ := ih hs
        exact ⟨c :: u, v, hv, congrArg (c :: ·) heq⟩
      · obtain rfl : slash = c := (List.mem_cons.1 h).resolve_right hs
        exact ⟨[], s, hs, rfl⟩

/-- The components of a directory are all but the last one. -/
theorem dirName_eq (s : List UInt8) :
    dirName s = [slash].intercalate (s.splitOn slash).dropLast := by
  by_cases h : slash ∈ s
  · obtain ⟨u, v, hv, rfl⟩ := exists_append_slash h
    rw [dirName_append u hv, List.splitOn_append_cons_self, List.splitOn_eq_singleton hv,
      List.dropLast_concat, List.intercalate_splitOn]
  · rw [dirName_of_not_mem h, List.splitOn_eq_singleton h]
    rfl

theorem slash_not_mem_splitOn {s c : List UInt8} (hc : c ∈ s.splitOn slash) : slash ∉ c := by
  rcases getlines_splitOn s with heq | heq
  · exact slash_not_mem_getlines (heq ▸ hc)
  · rw [heq] at hc
    rcases List.mem_append.1 hc with hc | hc
    · exact slash_not_mem_getlines hc
    · rw [List.mem_singleton.1 hc]
      exact List.not_mem_nil

theorem joinDir_splitOn (dir specifier : List UInt8) :
    (joinDir dir specifier).splitOn slash
      = dir.splitOn slash ++ (specifier.splitOn slash).dropLast := by
  unfold joinDir
  split
  · next h =>
      obtain ⟨u, v, hv, rfl⟩ := exists_append_slash h
      rw [dirName_append u hv, List.splitOn_append_cons_self, List.splitOn_append_cons_self,
        List.splitOn_eq_singleton hv, List.dropLast_concat]
  · next h =>
      rw [List.splitOn_eq_singleton h]
      exact (List.append_nil _).symm

/-! ## One import -/

theorem getlineLoop_append (u v segment : List UInt8) :
    getlineLoop (u ++ slash :: v) segment
      = (u.splitOn slash).modifyHead (segment ++ ·) ++ getlines v := by
  induction u generalizing segment with
  | nil =>
      simp only [List.nil_append, getlineLoop, if_true, getlines]
      simp
  | cons c u ih =>
      simp only [List.cons_append, getlineLoop]
      rw [List.splitOn_cons_eq_if_modifyHead]
      by_cases hc : c = slash
      · rw [if_pos hc, if_pos (beq_iff_eq.2 hc), ih, modifyHead_nil_append]
        simp
      · rw [if_neg hc, if_neg (by simpa using hc), ih]
        simp [List.modifyHead_modifyHead, Function.comp_def]

theorem getlines_append (u v : List UInt8) :
    getlines (u ++ slash :: v) = u.splitOn slash ++ getlines v := by
  rw [getlines, getlineLoop_append, modifyHead_nil_append]

theorem normalizePath_eq (path dir : List UInt8) : normalizePath path dir
    = joinSegments (stays segmentAct (getlines (absolutePath path dir))) := by
  rw [normalizePath, segmentLoop_getlines]

/-- A relative specifier is read behind the components of the directory. -/
theorem getlines_relative {specifier : List UInt8} (h : specifier.head? ≠ some slash)
    (dir : List UInt8) : getlines (absolutePath specifier dir)
      = dir.splitOn slash ++ getlines specifier := by
  rw [absolutePath, if_neg h, getlines_append]

/-- Directories with the same components behind their dots are the same to every specifier. -/
theorem normalizePath_congr {d d' : List UInt8}
    (h : d.splitOn slash = stays segmentAct (d'.splitOn slash)) (specifier : List UInt8) :
    normalizePath specifier d = normalizePath specifier d' := by
  by_cases hhead : specifier.head? = some slash
  · rw [normalizePath_eq, normalizePath_eq, absolutePath, absolutePath, if_pos hhead,
      if_pos hhead]
  · rw [normalizePath_eq, normalizePath_eq, getlines_relative hhead, getlines_relative hhead, h,
      stays_append_stays]

/-- The segments of a specifier are its directory's and its name. -/
theorem EndsInName.getlines_eq {specifier : List UInt8} (h : EndsInName specifier) :
    ∃ name, slash ∉ name ∧ segmentAct name = .push ∧
      getlines specifier = (specifier.splitOn slash).dropLast ++ [name] := by
  obtain ⟨name, hlast, hne, hpush⟩ := h
  have hsplit := List.dropLast_append_getLast? name hlast
  have hlines : getlines specifier = specifier.splitOn slash := by
    rcases getlines_splitOn specifier with heq | heq
    · exact heq.symm
    · -- the last component would be empty
      rw [heq, List.getLast?_concat] at hlast
      exact absurd (Option.some.inj hlast).symm hne
  have hmem : name ∈ getlines specifier := by
    rw [hlines, ← hsplit]
    exact List.mem_append_right _ (List.mem_singleton_self name)
  exact ⟨name, slash_not_mem_getlines hmem, hpush, hlines.trans hsplit.symm⟩

/-- The segments that are read for a specifier are those of its file's directory and its name. -/
theorem EndsInName.getlines_absolutePath {specifier : List UInt8} (h : EndsInName specifier)
    (dir : List UInt8) :
    ∃ name, slash ∉ name ∧ segmentAct name = .push ∧
      getlines (absolutePath specifier dir)
        = (fileDir dir specifier).splitOn slash ++ [name] := by
  obtain ⟨name, hname, hpush, hlines⟩ := h.getlines_eq
  refine ⟨name, hname, hpush, ?_⟩
  by_cases hhead : specifier.head? = some slash
  · have hslash : slash ∈ specifier := List.mem_of_mem_head? hhead
    rw [absolutePath, if_pos hhead, fileDir, if_pos hhead, hlines]
    obtain ⟨u, v, hv, rfl⟩ := exists_append_slash hslash
    rw [dirName_append u hv, List.splitOn_append_cons_self, List.splitOn_eq_singleton hv,
      List.dropLast_concat]
  · rw [getlines_relative hhead, fileDir, if_neg hhead, joinDir_splitOn, hlines,
      List.append_assoc]

/-- What an import leaves for the next one. -/
theorem normalizePath_dirName {specifier : List UInt8} (h : EndsInName specifier)
    (dir next : List UInt8) : normalizePath next (dirName (normalizePath specifier dir))
      = normalizePath next (nextDir dir specifier) := by
  obtain ⟨name, hname, hpush, hlines⟩ := h.getlines_absolutePath dir
  have hpath : normalizePath specifier dir
      = joinSegments (stays segmentAct ((fileDir dir specifier).splitOn slash) ++ [name]) := by
    rw [normalizePath_eq, hlines, stays_concat_push hpush]
  unfold nextDir
  split
  · next hnil =>
      -- with one segment `NormalizePath` puts a `/` in front
      rw [hpath, hnil]
      exact congrArg (normalizePath next) (dirName_append [] hname)
  · next hne =>
      have hslash : ∀ c ∈ stays segmentAct ((fileDir dir specifier).splitOn slash) ++ [name],
          slash ∉ c := by
        intro c hc
        rcases List.mem_append.1 hc with hc | hc
        · exact slash_not_mem_splitOn ((stays_sublist _ _).subset hc)
        · rwa [List.mem_singleton.1 hc]
      have hmany : 1 < (stays segmentAct ((fileDir dir specifier).splitOn slash)
          ++ [name]).length := by
        have hpos := List.length_pos_of_ne_nil hne
        rw [List.length_append, List.length_singleton]
        omega
      refine normalizePath_congr ?_ next
      rw [hpath, dirName_eq, joinSegments_splitOn hslash, if_pos hmany, List.dropLast_concat]
      exact List.splitOn_intercalate slash (fun c hc => hslash c (List.mem_append_left _ hc)) hne

/-- A chain of imports comes to one resolution. -/
theorem resolveChain_eq {specifiers : List (List UInt8)} {path dir : List UInt8}
    (hsame : ∀ next, normalizePath next (dirName path) = normalizePath next dir)
    (hnames : ∀ specifier ∈ specifiers, EndsInName specifier) (specifier : List UInt8) :
    resolveChain path (specifiers ++ [specifier])
      = normalizePath specifier (chainDir dir specifiers) := by
  induction specifiers generalizing path dir with
  | nil => exact hsame specifier
  | cons next specifiers ih =>
      refine ih (fun later => ?_) fun c hc => hnames c (List.mem_cons_of_mem next hc)
      rw [hsame next]
      exact normalizePath_dirName (hnames next List.mem_cons_self) dir later

/-! ## Every run -/

/-- Each module has a chain, and the path that this chain leads to. -/
structure Loading.Inv (host : Host) (entry : List UInt8) (s : Loading) : Prop where
  keyed : s.esm.Keyed host
  length_eq : s.chains.length = s.esm.compiled.length
  resolved : ∀ (n : Nat) (chain : List (List UInt8)), s.chains[n]? = some chain →
    s.esm.compiled[n]? = some (resolveChain entry chain)

/-- Modules with the same hash are compiled from the same file. -/
def Loading.Distinct (host : Host) (s : Loading) : Prop :=
  ∀ (n k : Nat) (p q : List UInt8), s.esm.compiled[n]? = some p → s.esm.compiled[k]? = some q →
    host.hash n = host.hash k → p = q

variable {host : Host} {entry : List UInt8} {s s' : Loading}

theorem compileModule_eq_some {path : List UInt8} {t t' : Esm}
    (h : compileModule host path t = some t') :
    t' = ⟨t.compiled ++ [path], mapInsert t.modulePathMap (host.hash t.compiled.length) path⟩ := by
  obtain ⟨_, _, rfl⟩ := Option.map_eq_some_iff.1 h
  rfl

theorem resolveChain_concat (path : List UInt8) (chain : List (List UInt8))
    (specifier : List UInt8) : resolveChain path (chain ++ [specifier])
      = normalizePath specifier (dirName (resolveChain path chain)) := by
  induction chain generalizing path with
  | nil => rfl
  | cons c chain ih => exact ih _

theorem Loading.Inv.compile (h : s.Inv host entry) {path : List UInt8} {chain : List (List UInt8)}
    (hpath : path = resolveChain entry chain) :
    Loading.Inv host entry ⟨⟨s.esm.compiled ++ [path],
      mapInsert s.esm.modulePathMap (host.hash s.esm.compiled.length) path⟩,
      s.chains ++ [chain]⟩ where
  keyed := h.keyed.insert path
  length_eq := by
    simp only [List.length_append, List.length_singleton, h.length_eq]
  resolved := by
    intro n c hn
    rcases Nat.lt_or_ge n s.chains.length with hlt | hge
    · rw [List.getElem?_append_left hlt] at hn
      rw [List.getElem?_append_left (h.length_eq ▸ hlt)]
      exact h.resolved n c hn
    · have hlast : n = s.chains.length := by
        have hlen := (List.getElem?_eq_some_iff.1 hn).1
        rw [List.length_append, List.length_singleton] at hlen
        omega
      subst hlast
      rw [List.getElem?_concat_length] at hn
      obtain rfl := Option.some.inj hn
      rw [h.length_eq, List.getElem?_concat_length, hpath]

/-- The callback takes the path of the referer, where no other module has its hash. -/
theorem Loading.Inv.lookup (h : s.Inv host entry) (hdistinct : s.Distinct host) {n : Nat}
    {chain : List (List UInt8)} (hn : s.chains[n]? = some chain) :
    s.esm.modulePathMap.lookup (host.hash n) = some (resolveChain entry chain) := by
  have hpath := h.resolved n chain hn
  obtain ⟨p, hp⟩ := Option.isSome_iff_exists.1
    (h.keyed.isSome n (List.getElem?_eq_some_iff.1 hpath).1)
  obtain ⟨k, hhash, hk⟩ := h.keyed.of_lookup _ p hp
  rw [hp, hdistinct k n p _ hk hpath hhash]

theorem Loading.Distinct.of_append {path : List UInt8} {map : List (Int × List UInt8)}
    {chains : List (List (List UInt8))}
    (h : Loading.Distinct host ⟨⟨s.esm.compiled ++ [path], map⟩, chains⟩) : s.Distinct host := by
  have hold : ∀ (n : Nat) (p : List UInt8), s.esm.compiled[n]? = some p →
      (s.esm.compiled ++ [path])[n]? = some p := fun n p hn => by
    rw [List.getElem?_append_left (List.getElem?_eq_some_iff.1 hn).1, hn]
  exact fun n k p q hn hk => h n k p q (hold n p hn) (hold k q hk)

theorem Loading.inv_of_reachable (hs : Reachable (loader host entry) s)
    (hdistinct : s.Distinct host) : s.Inv host entry := by
  induction hs with
  | init => exact ⟨Esm.Keyed.nil host, rfl, nofun⟩
  | @step s s' call _ hstep ih =>
      change s.step host entry call = some s' at hstep
      cases call with
      | main =>
          simp only [Loading.step] at hstep
          split at hstep
          · obtain ⟨esm, hesm, rfl⟩ := Option.map_eq_some_iff.1 hstep
            obtain rfl := compileModule_eq_some hesm
            exact (ih hdistinct.of_append).compile rfl
          · cases hstep
      | resolve specifier referer =>
          simp only [Loading.step] at hstep
          split at hstep
          · cases hstep
          · next chain hchain =>
            split at hstep
            · cases hstep
            · cases hstep
              exact ih hdistinct
            · next esm hresolve =>
              cases hstep
              unfold resolveModuleCallback at hresolve
              split at hresolve
              · cases hresolve
              · next str hlookup =>
                obtain rfl := compileModule_eq_some (Except.ok.inj hresolve)
                have hinv := ih hdistinct.of_append
                have hstr := hinv.lookup hdistinct.of_append hchain
                rw [hlookup] at hstr
                refine hinv.compile ?_
                rw [resolveChain_concat, Option.some.inj hstr]

end Cpp

/-- **From the entry file on.** In whatever order the callbacks come: where modules with the same
    hash are the same file, and the specifiers on the way to a module end in names, the file that is
    read for it is the one that its own specifier names in the directory that this way leads to from
    the entry file's on. -/
theorem cppLoader_chain (host : Host) (entry : List UInt8) (s : Cpp.Loading)
    (hs : Reachable (Cpp.loader host entry) s) (hdistinct : s.Distinct host) {n : Nat}
    {specifiers : List (List UInt8)} {specifier : List UInt8}
    (hn : s.chains[n]? = some (specifiers ++ [specifier]))
    (hnames : ∀ c ∈ specifiers, Cpp.EndsInName c) :
    s.esm.compiled[n]? =
      some (Cpp.normalizePath specifier (Cpp.chainDir (Cpp.dirName entry) specifiers)) := by
  rw [(Cpp.Loading.inv_of_reachable hs hdistinct).resolved n _ hn,
    Cpp.resolveChain_eq (fun _ => rfl) hnames]

/-- `./js/main.js` imports `../a.js`, and this file `./x/b.js`. -/
def upFiles : List (List UInt8 × List (List UInt8)) :=
  [(bytes "./js/main.js", [bytes "../a.js"]), (bytes "/a.js", [bytes "./x/b.js"]),
    (bytes "/x/b.js", [])]

/-- The file beside `js` is looked for at the root, and so is what it imports. -/
theorem cppLoader_chain_up : ∃ s,
    Reachable (Cpp.loader (tableHost upFiles Int.ofNat) Cpp.entryPath) s ∧
    s.chains[2]? = some [bytes "../a.js", bytes "./x/b.js"] ∧
    s.esm.compiled[2]? = some (Cpp.normalizePath (bytes "./x/b.js")
      (Cpp.chainDir (Cpp.dirName Cpp.entryPath) [bytes "../a.js"])) ∧
    s.esm.compiled[2]? = some (bytes "/x/b.js") := by
  obtain ⟨s, hs, hchains, hcompiled⟩ : ∃ s,
      (Cpp.loader (tableHost upFiles Int.ofNat) Cpp.entryPath).run ⟨⟨[], []⟩, []⟩
        [.main, .resolve (bytes "../a.js") 0, .resolve (bytes "./x/b.js") 1] = some s ∧
      s.chains[2]? = some [bytes "../a.js", bytes "./x/b.js"] ∧
      s.esm.compiled[2]? = some (bytes "/x/b.js") :=
    ⟨⟨⟨[bytes "./js/main.js", bytes "/a.js", bytes "/x/b.js"],
      [(2, bytes "/x/b.js"), (1, bytes "/a.js"), (0, bytes "./js/main.js")]⟩,
      [[], [bytes "../a.js"], [bytes "../a.js", bytes "./x/b.js"]]⟩, by decide +kernel, rfl, rfl⟩
  have hreach : Reachable (Cpp.loader (tableHost upFiles Int.ofNat) Cpp.entryPath) s :=
    Reachable.init.run hs
  refine ⟨s, hreach, hchains, ?_, hcompiled⟩
  refine cppLoader_chain _ _ s hreach (fun n k p q hn hk heq => ?_) hchains fun c hc => ?_
  · obtain rfl : n = k := Int.ofNat.inj heq
    exact Option.some.inj (hn.symm.trans hk)
  · rw [List.mem_singleton.1 hc]
    exact ⟨bytes "a.js", rfl, by decide, by decide⟩

end Ryze
