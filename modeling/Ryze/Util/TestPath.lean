import Ryze.Lib.CText
import Ryze.Util.Normalize

set_option autoImplicit false

/-! # The path functions of `test.c`

`util/test.c` has a `str_split` and a `normalize_path` of its own: the delimiter is a string, the
arguments of `normalize_path` come in the other order, the stack of components grows, and the result
is as long as both arguments. The `int`s `index`, `len`, `j` and `k` wrap. -/

namespace Ryze

open CLib

namespace Test

/-! ## `str_split` -/

/-- The memory at `str`, and `last` and `index` as offsets into it. -/
structure SplitState where
  str : List (Option UInt8)
  last : Nat
  index : Nat

/-- One round of `while(1)` in `str_split`. -/
def splitRound (delim : List UInt8) (st : SplitState) : CRun (SplitState ⊕ SplitState) := do
  let s ← cstr (st.str.drop st.index)
  match strstr delim s st.index with
  | some p => do
    let str ← store st.str p 0
    return .inl ⟨str, p + delim.length, p + delim.length⟩
  | none => return .inr st

/-- `str_split(str, delim)`: the memory as it is left, and the offset of the last component. Every
    round but the last finds a delimiter behind the one before it. -/
def strSplit (str : List (Option UInt8)) (delim : List UInt8) :
    CRun (List (Option UInt8) × Nat) := do
  let st ← cLoop (splitRound delim) (str.length + 1) ⟨str, 0, 0⟩
  return (st.str, st.last)

/-! ## `normalize_path` -/

/-- `stack[index++] = p`: a full stack gets 1024 cells more first. -/
def push (stack : List (Option Nat)) (index : Int) (p : Nat) : CRun (List (Option Nat)) := do
  let stack ← if stack.length ≤ index
    then realloc stack (toSize (toInt32 (stack.length + 1024)))
    else pure stack
  store stack index p

/-- What the component `c` at `p` does to `index` and the stack. -/
def walkStep (c : List UInt8) (p : Nat) (index : Int) (stack : List (Option Nat)) :
    CRun (Int × List (Option Nat)) :=
  if c ≠ bytes ".." then
    if c ≠ [] ∧ c ≠ bytes "." then do
      let stack ← push stack index p
      return (toInt32 (index + 1), stack)
    else return (index, stack)
  else return (toInt32 (index - 1), stack)

/-- `p`, `index` and the cells of `stack`, of which there are `len`. -/
structure WalkState where
  p : Nat
  index : Int
  stack : List (Option Nat)

/-- One round of `while(1)` in `normalize_path`. -/
def walkRound (str : List (Option UInt8)) (last : Nat) (st : WalkState) :
    CRun (WalkState ⊕ WalkState) := do
  let c ← cstr (str.drop st.p)
  let (index, stack) ← walkStep c st.p st.index st.stack
  if st.p = last then return .inr ⟨st.p, index, stack⟩
  else return .inl ⟨st.p + c.length + 1, index, stack⟩

/-- The loop that writes the components on the stack, `left` of them from `stack[i]` on, to
    `result[j]` on. -/
def resultLoop (str : List (Option UInt8)) (stack : List (Option Nat)) : (left i : Nat) → (j : Int) →
    List (Option UInt8) → CRun (List (Option UInt8))
  | 0, _, _, result => .ok result
  | left + 1, i, j, result => do
    let result ← store result j slash
    let j := toInt32 (j + 1)
    let p ← loadCell stack i
    let result ← strcpyAt result j (str.drop p)
    let s ← cstr (str.drop p)
    let k := toInt32 s.length
    resultLoop str stack left (i + 1) (toInt32 (j + k)) result

/-- `full_path`: the base directory, `/` and the path. -/
def fullPath (basedir path : List UInt8) : CRun (List (Option UInt8)) := do
  let len1 := basedir.length
  let len2 := path.length
  let full ← malloc (sizeAdd (sizeAdd len1 len2) 2)
  let full ← strcpy full 0 (cstrMem basedir)
  let full ← store full len1 slash
  strcpy full (sizeAdd len1 1) (cstrMem path)

/-- `normalize_path(basedir, path)`. -/
def normalizePath (basedir path : List UInt8) : CRun (List (Option UInt8)) := do
  let len1 := basedir.length
  let len2 := path.length
  let full ← fullPath basedir path
  let (str, last) ← strSplit full [slash]
  let stack ← malloc 1024
  -- there are fewer components than bytes
  let st ← cLoop (walkRound str last) str.length ⟨0, 0, stack⟩
  let result ← malloc (sizeAdd (sizeAdd len1 len2) 2)
  resultLoop str st.stack st.index.toNat 0 0 result

end Test

end Ryze
