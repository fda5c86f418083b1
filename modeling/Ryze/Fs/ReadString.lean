import Ryze.Fs.Bindings

set_option autoImplicit false

/-! # The string `fs.read` resolves with

`eio_read` stores how much it has read in `ret.size`, and nobody looks at it: `eio_req_fs_callback3`
builds the string from the bytes of the block up to the first NUL. `fs_read` allocates no byte for a
NUL and writes none, so where the string ends is up to what was read and what stood in the block
before. -/

namespace Ryze

open CLib Ownership

/-- A request's way without the queues: its work function, then its callback. -/
def EioState.serve (result : SysResult) (s : EioState) : CRun Settled :=
  match s.work result with
  | .ok s' => s'.req.call s'.heap
  | .error (f, _) => .error f

/-- `fs.read(fd)`, the system call ending with `result`. -/
def fsReadRun {ν : Type} (v8 : V8 ν) (args : List ν) (old : EioReq) (left : Nat → UInt8)
    (h : Heap Object) (result : SysResult) : CRun Settled :=
  let issued := fsRead v8 args old h left
  EioState.serve result ⟨issued.req, issued.heap, []⟩

/-- What `read(2)` gives of a file: at most `size` bytes from `offset` on. -/
def fileBytes (content : List UInt8) (offset size : Nat) : List UInt8 :=
  (content.drop offset).take size

/-- A run of bytes is a C string's value exactly where it has no NUL and one stands behind it. -/
theorem cstr_front_iff (s t : List UInt8) :
    cstr (cells (s ++ t)) = .ok s ↔ 0 ∉ s ∧ t.head? = some 0 := by
  constructor
  · intro h
    refine ⟨(cstr_take h).2.2, ?_⟩
    have htake := cstr_take_nul h
    rw [cells_append, cells_append, List.take_append, cells_length,
      List.take_of_length_le (by rw [cells_length]; omega), Nat.add_sub_cancel_left,
      List.append_right_inj] at htake
    cases t with
    | nil => cases htake
    | cons c t =>
        rw [cells_cons, List.take_succ_cons] at htake
        cases htake
        rfl
  · rintro ⟨hnul, hhead⟩
    cases t with
    | nil => cases hhead
    | cons c t =>
        cases hhead
        rw [cells_append, cells_cons]
        exact cstr_cells s hnul _

/-- Bytes that are read to the front of a block leave the rest of it as it was. -/
theorem fill_mallocBytes (left : Nat → UInt8) {n : Nat} {data : List UInt8}
    (hlen : data.length ≤ n) :
    (mallocBytes left n).fill data
      = .bytes (cells (data ++ ((List.range n).map left).drop data.length)) := by
  have hdrop : (cells ((List.range n).map left)).drop data.length
      = cells (((List.range n).map left).drop data.length) := List.map_drop.symm
  rw [mallocBytes, Object.fill, hdrop, ← cells_append, List.take_of_length_le]
  simp
  omega

/-- Behind what was read stands what stood there before. -/
theorem leftover_head (left : Nat → UInt8) (n k : Nat) :
    (((List.range n).map left).drop k).head? = some 0 ↔ k < n ∧ left k = 0 := by
  rw [List.head?_drop, List.getElem?_map]
  by_cases hk : k < n
  · rw [List.getElem?_range hk, Option.map_some, Option.some_inj, and_iff_right hk]
  · rw [List.getElem?_eq_none (by rw [List.length_range]; omega)]
    simp [hk]

section Run

variable {ν : Type} (v8 : V8 ν) (args : List ν) (old : EioReq) (left : Nat → UInt8)
  (h : Heap Object)

/-- After a successful `read` the callback builds the string from the block. -/
theorem fsReadRun_success (ret : Nat) {data : List UInt8} (hlen : data.length ≤ fsReadSize) :
    fsReadRun v8 args old left h (.success ret data) = do
      let value ← cstr (cells (data ++ ((List.range fsReadSize).map left).drop data.length))
      return .resolveStr value := by
  obtain ⟨-, hptr, hbuf⟩ := fsRead_objs v8 args old h left
  have hrun : fsReadRun v8 args old left h (.success ret data) = do
      let value ← v8Str (fillAt (fsRead v8 args old h left).heap data
        ((fsRead v8 args old h left).req.ptr 0)) ((fsRead v8 args old h left).req.ptr 0)
      return .resolveStr value := rfl
  rw [hrun, hptr, fillAt, v8Str, Option.bind_some, Heap.modify_self, hbuf, Option.map_some,
    fill_mallocBytes left hlen]

/-- `fs.read` resolves with the bytes that were read, and the callback stays inside the block,
    exactly where there is no NUL among them, they leave room in the block, and the byte behind them
    happens to be a NUL. -/
theorem fsRead_delivers_iff (content : List UInt8) (offset : Nat) {size : Nat}
    (hsize : size ≤ fsReadSize) :
    fsReadRun v8 args old left h (.success (fileBytes content offset size).length
        (fileBytes content offset size)) = .ok (.resolveStr (fileBytes content offset size)) ↔
      0 ∉ fileBytes content offset size ∧ (fileBytes content offset size).length < fsReadSize ∧
        left (fileBytes content offset size).length = 0 := by
  have hlen : (fileBytes content offset size).length ≤ fsReadSize :=
    (List.length_take_le _ _).trans hsize
  generalize fileBytes content offset size = data at hlen ⊢
  rw [fsReadRun_success v8 args old left h _ hlen, ← leftover_head, ← cstr_front_iff]
  constructor
  · intro hrun
    obtain ⟨value, hvalue, hresolve⟩ := bind_eq_ok.1 hrun
    cases hresolve
    exact hvalue
  · intro hvalue
    rw [hvalue]
    rfl

end Run

theorem fsRead_delivers_zeroed :
    fsReadRun JsValue.v8 [.integer 3] .zero (fun _ => 0) .empty
      (.success 2 (fileBytes [97, 98, 99] 1 2)) = .ok (.resolveStr [98, 99]) :=
  (fsRead_delivers_iff JsValue.v8 [.integer 3] .zero (fun _ => 0) .empty [97, 98, 99] 1
    (by decide : 2 ≤ fsReadSize)).2 ⟨by decide, by decide, rfl⟩

/-- In a block that `malloc` left full of other bytes the string runs off the end. -/
theorem fsRead_overruns :
    fsReadRun JsValue.v8 [.integer 3] .zero (fun _ => 98) .empty
      (.success 1 (fileBytes [97] 0 1)) ≠ .ok (.resolveStr (fileBytes [97] 0 1)) := by
  decide +kernel

end Ryze
