import Ryze.Eio.Operations

set_option autoImplicit false

/-! # `fs.open`, `fs.read` and `fs.close`

The bindings of `fs.cc` up to `EV_REQ_ADD`, and the three callbacks. What V8 makes of a JS value is
a parameter; a promise is what it is settled with. -/

namespace Ryze

open CLib Ownership

/-! ## V8 -/

/-- What the bindings ask V8 about the JS values `ν`. -/
structure V8 (ν : Type) where
  /-- an argument that was not given -/
  undefined : ν
  /-- `String::Utf8Value` -/
  utf8Value : ν → List UInt8
  /-- `Local<Integer>::Cast(value)->Value()` -/
  integerValue : ν → Int

/-- The kinds of values the bindings are used with. -/
inductive JsValue
  | undefined
  | integer (n : Int)
  | string (s : List UInt8)
deriving DecidableEq, Repr

def JsValue.v8 : V8 JsValue where
  undefined := .undefined
  utf8Value
    | .string s => s
    | _ => bytes "undefined"
  integerValue
    | .integer n => n
    | _ => 0

/-- What a promise is settled with. -/
inductive Settled
  | reject (errno : Int) (error : List UInt8)
  | resolveInt (value : Int)
  | resolveStr (value : List UInt8)
deriving DecidableEq, Repr

/-- `V8_STR(isolate, p)`: the bytes at `p` up to the first NUL. -/
def v8Str (h : Heap Object) (p : Option Nat) : CRun (List UInt8) :=
  match p.bind h.objs with
  | some (.bytes block) => cstr block
  | _ => throw .read

/-! ## Callbacks -/

/-- The part the callbacks share: a failed request is rejected with its number and text. -/
def settle (req : EioReq) (h : Heap Object) (resolve : CRun Settled) : CRun Settled :=
  if req.errnum ≠ 0 then do
    let error ← v8Str h req.errbuf
    return .reject req.errnum error
  else resolve

def eioReqFsCallback1 (req : EioReq) (h : Heap Object) : CRun Settled :=
  settle req h (.ok (.resolveInt req.errnum))

def eioReqFsCallback2 (req : EioReq) (h : Heap Object) : CRun Settled :=
  settle req h (.ok (.resolveInt req.ret))

def eioReqFsCallback3 (req : EioReq) (h : Heap Object) : CRun Settled :=
  settle req h do
    let value ← v8Str h (req.ptr 0)
    return .resolveStr value

/-- `req->callback(req)` -/
def EioReq.call (req : EioReq) (h : Heap Object) : CRun Settled :=
  match req.callback with
  | .callback1 => eioReqFsCallback1 req h
  | .callback2 => eioReqFsCallback2 req h
  | .callback3 => eioReqFsCallback3 req h

/-! ## Bindings -/

def oRdonly : Int := 0
def sIrusr : Nat := 0o400
def sIwusr : Nat := 0o200
def sIrgrp : Nat := 0o40
def sIwgrp : Nat := 0o20
def sIroth : Nat := 0o4

/-- The mode of a file that `fs.open` is given no mode for. -/
def defaultMode : Nat := sIrusr ||| sIwusr ||| sIrgrp ||| sIwgrp ||| sIroth

/-- How much `fs.read` asks for. -/
def fsReadSize : Nat := 255

/-- `req->args[i]` is written to. -/
def EioReq.setArg (req : EioReq) (i : Fin 3) (f : EioWorkArg → EioWorkArg) : EioReq :=
  { req with args := Function.update req.args i (f (req.args i)) }

/-- `req->ptr[i] = p` -/
def EioReq.setPtr (req : EioReq) (i : Fin 3) (p : Option Nat) : EioReq :=
  { req with ptr := Function.update req.ptr i p }

@[simp] theorem EioReq.setPtr_self (req : EioReq) (i : Fin 3) (p : Option Nat) :
    (req.setPtr i p).ptr i = p := by
  simp [EioReq.setPtr]

@[simp] theorem EioReq.setArg_self (req : EioReq) (i : Fin 3) (f : EioWorkArg → EioWorkArg) :
    (req.setArg i f).args i = f (req.args i) := by
  simp [EioReq.setArg]

/-- A block of `n` bytes as `malloc` gives it out, `left` being what stands in it. -/
def mallocBytes (left : Nat → UInt8) (n : Nat) : Object := .bytes (cells ((List.range n).map left))

/-- What a binding hands to `EV_REQ_ADD`: the request, and the heap with the request at `r`. -/
structure Issued where
  r : Nat
  req : EioReq
  heap : Heap Object

/-- A request of zero bytes. -/
def EioReq.zero : EioReq := ⟨fun _ => ⟨0, 0⟩, 0, fun _ => none, 0, none, .access, .callback1⟩

/-- The request that was allocated at `r` gets its fields. -/
def issue (h : Heap Object) (r : Nat) (req : EioReq) : Issued :=
  ⟨r, req, h.modify r fun _ => .request req⟩

section Bindings

variable {ν : Type} (v8 : V8 ν) (args : List ν)

/-- `args[i]` -/
def V8.arg (i : Nat) : ν := args.getD i v8.undefined

variable (old : EioReq) (h : Heap Object)

/-- `old` is what `malloc` left in the request. -/
def fsOpen : Issued :=
  let str := v8.utf8Value (v8.arg args 0)
  let path := h.next
  let h := h.alloc (.bytes (cells (str ++ [0])))
  let req := eioReqAlloc old
  let r := h.next
  let h := h.alloc (.request req)
  let req := req.setPtr 0 (some path)
  let req := req.setArg 0 (.setFlag · oRdonly)
  let req := req.setArg 1 (.setMode · defaultMode)
  let req :=
    if args.length ≥ 2 then req.setArg 0 (.setFlag · (v8.integerValue (v8.arg args 1))) else req
  let req :=
    if args.length ≥ 3 then req.setArg 1 (.setMode · (v8.integerValue (v8.arg args 2))) else req
  issue h r { req with work := .open, callback := .callback2 }

/-- `left` is what `malloc` left in the buffer. -/
def fsRead (left : Nat → UInt8) : Issued :=
  let req := eioReqAlloc old
  let r := h.next
  let h := h.alloc (.request req)
  let req := req.setArg 0 (.setFd · (v8.integerValue (v8.arg args 0)))
  let req := req.setArg 1 fun _ => .setSize fsReadSize
  let buf := h.next
  let h := h.alloc (mallocBytes left (req.args 1).size)
  let req := req.setPtr 0 (some buf)
  issue h r { req with work := .read, callback := .callback3 }

def fsClose : Issued :=
  let req := eioReqAlloc old
  let r := h.next
  let h := h.alloc (.request req)
  let req := req.setArg 0 (.setFd · (v8.integerValue (v8.arg args 0)))
  issue h r { req with work := .close, callback := .callback1 }

/-! ## What a binding leaves -/

theorem issue_request (h : Heap Object) (r : Nat) (req : EioReq) {o : Object}
    (hr : h.objs r = some o) : (issue h r req).heap.objs r = some (.request req) := by
  rw [issue, Heap.modify_self, hr]
  rfl

theorem setSize_fsReadSize : (EioWorkArg.setSize fsReadSize).size = fsReadSize := by decide

/-- The request of `fs.read` and its buffer. -/
theorem fsRead_objs (left : Nat → UInt8) :
    (fsRead v8 args old h left).heap.objs h.next = some (.request (fsRead v8 args old h left).req) ∧
    (fsRead v8 args old h left).req.ptr 0 = some (h.next + 1) ∧
    (fsRead v8 args old h left).heap.objs (h.next + 1) = some (mallocBytes left fsReadSize) := by
  refine ⟨issue_request (o := .request (eioReqAlloc old)) _ _ _ ?_, ?_, ?_⟩
  · exact (Heap.alloc_of_ne _ _ (Nat.ne_of_lt (Nat.lt_succ_self _))).trans (Heap.alloc_self h _)
  · simp only [fsRead, issue, EioReq.setPtr_self]
    rfl
  · simp only [fsRead, issue, EioReq.setArg_self, setSize_fsReadSize]
    rw [Heap.modify_of_ne _ _ (Nat.succ_ne_self h.next)]
    exact Heap.alloc_self (h.alloc (.request (eioReqAlloc old))) _

end Bindings

end Ryze
