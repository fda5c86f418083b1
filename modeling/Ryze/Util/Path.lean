import Ryze.Lib.CBlock

set_option autoImplicit false

/-! # The path functions of `util.c`

A `const char *` argument is the list of its bytes in front of the NUL; the strings the functions
build are blocks. The `int`s that count the components and place them in the result wrap, and so does
the `size_t total` of `normalize_path`, which goes below zero in the middle of a run. -/

namespace Ryze

open CLib

abbrev slash : UInt8 := 47

/-! ## `str_split` -/

/-- `for(size_t i = 0; i < len; i++)` of `str_split` with `left` bytes to go, on the memory from
    `str + i` on: the memory, `last` and `*count`. `delim` is compared with a plain `char`, and
    `*count`, unless `count` is `NULL`, wraps. -/
def splitLoopInt (delim : Int) : (left : Nat) → List (Option UInt8) → (i last : Nat) →
    (count : Option Int) → CRun (List (Option UInt8) × Nat × Option Int)
  | 0, m, _, last, count => .ok (m, last, count)
  | left + 1, some c :: m, i, last, count =>
    if schar c = delim then do
      let (m, r) ← if 0 < left then
          splitLoopInt delim left m (i + 1) (i + 1) (count.map fun n => toInt32 (n + 1))
        else splitLoopInt delim left m (i + 1) last count
      return (some 0 :: m, r)
    else do
      let (m, r) ← splitLoopInt delim left m (i + 1) last count
      return (some c :: m, r)
  | _ + 1, _, _, _, _ => .error .read

/-- `str_split(str, delim, count)`: the memory as it is left, the offset of the last component and
    `*count`; `given` says that `count` is not `NULL`. -/
def strSplitInt (str : List (Option UInt8)) (delim : Int) (given : Bool) :
    CRun (List (Option UInt8) × Nat × Option Int) := do
  let s ← cstr str
  splitLoopInt delim s.length str 0 0 (if given then some 1 else none)

/-! ## `is_http_path` and `is_absolute_path` -/

def isHttpPath (path : List UInt8) : Bool :=
  strstr (bytes "https://") path 0 = some 0 || strstr (bytes "http://") path 0 = some 0

def isAbsolutePath (path : List UInt8) : CRun Bool := do
  let c ← loadCell (cstrMem path) 0
  return c = slash || isHttpPath path

/-- `start` as `dirname` and `normalize_path` set it first, 0 for a path without a scheme. -/
def schemeLen (path : List UInt8) : Nat :=
  if strstr (bytes "https://") path 0 = some 0 then 8
  else if strstr (bytes "http://") path 0 = some 0 then 7
  else 0

/-! ## `dirname` -/

/-- `for(i = len - 1; i >= start; i--)`: where `i` stops. Stepping below 0 wraps, and the next
    `path[i]` is outside the string. -/
def dirnameLoop (path : List UInt8) (start : Nat) : Nat → CRun Nat
  | 0 =>
    if start ≤ 0 then do
      let c ← loadCell (cstrMem path) 0
      if c = slash ∧ 0 ≠ path.length - 1 then return 0 else throw .read
    else return 0
  | i + 1 =>
    if start ≤ i + 1 then do
      let c ← loadCell (cstrMem path) (i + 1)
      if c = slash ∧ i + 1 ≠ path.length - 1 then return i + 1 else dirnameLoop path start i
    else return i + 1

/-- The end of the host of a URL whose host starts at `start`: the first `/` or `?`, if there is
    one. -/
def hostEndLoop : List UInt8 → (i : Nat) → Option Nat
  | [], _ => none
  | c :: s, i => if c = slash ∨ c = 63 then some i else hostEndLoop s (i + 1)

/-- A new string that holds the first `n` bytes of `path`. -/
def copyPrefix (path : List UInt8) (n : Nat) : CRun (List (Option UInt8)) := do
  let str ← malloc (sizeAdd n 1)
  let str ← memcpy str 0 (cstrMem path) n
  store str n 0

/-- `dirname(path)`. -/
def dirname (path : List UInt8) : CRun (List (Option UInt8)) := do
  let start := schemeLen path
  -- `len - 1` wraps for the empty string
  if path.length = 0 then throw .read
  let i ← dirnameLoop path start (path.length - 1)
  if i = start then
    if isHttpPath path then copyPrefix path ((hostEndLoop (path.drop start) start).getD path.length)
    else do
      let str ← malloc 2
      let c ← loadCell (cstrMem path) i
      let str ← store str 0 (if c = slash then slash else 46)
      store str 1 0
  else copyPrefix path i

/-! ## `normalize_path` -/

/-- `for(size_t i = start; i < len; i++) if(basedir[i] == '/') …`: the first `/` at or behind
    `start`, `start` itself if there is none. -/
def pathStart (basedir : List UInt8) (start : Nat) : Nat :=
  start + ((basedir.drop start).idxOf? slash).getD 0

/-- The component stack: `index`, the cells of `stack`, and `total`. -/
structure StackState where
  index : Int
  stack : List (Option Nat)
  total : Nat

/-- One round of `for(int i = 0; i < count; i++)`: the component at `p`, which is `s`. -/
def stackStep (str : List (Option UInt8)) (p prev : Nat) (s : List UInt8) (st : StackState) :
    CRun StackState :=
  if s ≠ bytes ".." then
    if s ≠ bytes "." then do
      let stack ← store st.stack st.index p
      return ⟨toInt32 (st.index + 1), stack, sizeAdd st.total (sizeAdd s.length 1)⟩
    else return st
  else do
    let q ← cstr (str.drop prev)
    return ⟨toInt32 (st.index - 1), st.stack, sizeSub st.total (sizeAdd q.length 1)⟩

/-- The loop over the components with `left` components to go. -/
def stackLoop (str : List (Option UInt8)) : (left : Nat) → (p prev : Nat) → StackState →
    CRun StackState
  | 0, _, _, st => .ok st
  | left + 1, p, prev, st => do
    let s ← cstr (str.drop p)
    let st ← stackStep str p prev s st
    stackLoop str left (p + s.length + 1) p st

/-- The loop that writes the components on the stack, `left` of them from `stack[i]` on, to
    `result[j]` on. -/
def resultLoop (str : List (Option UInt8)) (stack : List (Option Nat)) : (left i : Nat) → (j : Int) →
    List (Option UInt8) → CRun (List (Option UInt8))
  | 0, _, _, result => .ok result
  | left + 1, i, j, result => do
    let p ← loadCell stack i
    let s ← cstr (str.drop p)
    let result ← store result j slash
    let j := toInt32 (j + 1)
    let result ← memcpyAt result j (str.drop p) s.length
    resultLoop str stack left (i + 1) (toInt32 (j + s.length)) result

/-- The block `str`: the base directory behind the byte at `start`, `/`, and the path. -/
def joinedPath (path basedir : List UInt8) (start : Nat) : CRun (List (Option UInt8)) := do
  let len := basedir.length
  let len2 := path.length
  let str ← malloc (sizeAdd (sizeSub (sizeAdd len2 len) start) 1)
  let str ← memcpy str 0 ((cstrMem basedir).drop (start + 1)) (sizeSub (sizeSub len start) 1)
  let str ← store str (sizeSub (sizeSub len start) 1) slash
  let str ← memcpy str (sizeSub len start) (cstrMem path) len2
  store str (sizeSub (sizeAdd len2 len) start) 0

/-- `normalize_path(path, basedir)`. -/
def normalizePath (path basedir : List UInt8) : CRun (List (Option UInt8)) := do
  if ← isAbsolutePath path then
    let len := path.length
    let str ← malloc (sizeAdd len 1)
    let str ← store str len 0
    memcpy str 0 (cstrMem path) len
  else
    let start := pathStart basedir (schemeLen basedir)
    let str ← joinedPath path basedir start
    let (str, _, count) ← strSplitInt str (schar slash) true
    -- below 1 nothing is read and the stack is not used
    let count := (count.getD 1).toNat
    let stack ← malloc count
    let st ← stackLoop str count 0 0 ⟨0, stack, 0⟩
    let total := sizeAdd st.total start
    let result ← malloc (sizeAdd total 1)
    let result ← memcpy result 0 (cstrMem basedir) start
    let result ← resultLoop str st.stack st.index.toNat 0 (toInt32 start) result
    store result total 0

end Ryze
