/-
`ZHTClient`: every operation checks the client and the key, resolves the key's node, sends one
request there and reads the answer's status. The transport is a parameter: what a request to a host
and port comes to, in a state of its own.
-/
import Zht.Config.Routing
import Zht.Proto.ZPack

namespace Zht

open Lib.Utf8

/-- `sendrecv` of the transport a client holds. -/
abbrev Transport (σ : Type) := String → UInt16 → ZPack → σ → ZhtResult ZPack × σ

/-- What a client call fails with; `panicked` for a call that panics. -/
inductive ClientError
  | notInitialized
  | zht (e : ZhtError)
  | panicked
  deriving DecidableEq, Repr

abbrev ClientResult (α : Type) := Except ClientError α

structure ZHTClient where
  config : AppConfig
  initialized : Bool
  deriving DecidableEq, Repr

/-- The 3-character status of an answer. -/
def parseStatus (z : ZPack) : String :=
  if 3 ≤ z.lease.length then fromUtf8Lossy (z.lease.take 3) else fromUtf8Lossy z.lease

/-- `s[n..]`, `none` for the panic when that is no character boundary. -/
def sliceFrom (s : String) (n : Nat) : Option String := fromUtf8 ((utf8Bytes s).drop n)

/-- The value a successful LOOKUP carries: behind the status, or in `val` when nothing follows it. -/
def lookupValue (response : ZPack) : ClientResult String :=
  let leaseData := fromUtf8Lossy response.lease
  if 3 < (utf8Bytes leaseData).length then
    match sliceFrom leaseData 3 with
    | some value => .ok value
    | none => .error .panicked
  -- nothing follows the status when the value is empty, and then `val` is empty as well
  else .ok (fromUtf8Lossy response.val)

namespace ZHTClient

def init (c : ZHTClient) : ZHTClient := { c with initialized := true }

section Calls

variable {σ α : Type} (send : Transport σ) (c : ZHTClient)

/-- What all operations share: the checks, the routing and the request. -/
def call (key : String) (zpack : ZPack) (interpret : ZPack → ClientResult α) (s : σ) : ClientResult α × σ :=
  if c.initialized = false then (.error .notInitialized, s)
  else if key = "" then (.error (.zht .emptyKey), s)
  else
    match c.config.resolveNode key with
    | .error e => (.error (.zht e), s)
    | .ok node =>
      match send node.host node.port zpack s with
      | (.error e, s) => (.error (.zht e), s)
      | (.ok response, s) => (interpret response, s)

def insertResult (response : ZPack) : ClientResult Unit :=
  let status := parseStatus response
  if status = "000" then .ok ()
  else if status = "-01" then .error (.zht .emptyKey)
  else if status = "-03" then .error (.zht (.internal "Server error on INSERT"))
  else .error (.zht (.internal ("INSERT failed: " ++ status)))

def insert (key value : String) : σ → ClientResult Unit × σ :=
  c.call send key { opcode := utf8Bytes OPC_INSERT, key := utf8Bytes key, val := utf8Bytes value } insertResult

def lookupResult (key : String) (response : ZPack) : ClientResult String :=
  let status := parseStatus response
  if status = "-92" then .error (.zht (.keyNotFound key))
  else if status ≠ "000" then .error (.zht (.internal ("LOOKUP failed: " ++ status)))
  else lookupValue response

def lookup (key : String) : σ → ClientResult String × σ :=
  c.call send key { opcode := utf8Bytes OPC_LOOKUP, key := utf8Bytes key } (lookupResult key)

def removeResult (key : String) (response : ZPack) : ClientResult Unit :=
  let status := parseStatus response
  if status = "000" then .ok ()
  else if status = "-92" then .error (.zht (.keyNotFound key))
  else .error (.zht (.internal ("REMOVE failed: " ++ status)))

def remove (key : String) : σ → ClientResult Unit × σ :=
  c.call send key { opcode := utf8Bytes OPC_REMOVE, key := utf8Bytes key } (removeResult key)

def appendResult (response : ZPack) : ClientResult Unit :=
  let status := parseStatus response
  if status = "000" then .ok ()
  else if status = "-03" then .error (.zht (.internal "Server error on APPEND"))
  else .error (.zht (.internal ("APPEND failed: " ++ status)))

def append (key value : String) : σ → ClientResult Unit × σ :=
  c.call send key { opcode := utf8Bytes OPC_APPEND, key := utf8Bytes key, val := utf8Bytes value } appendResult

/-- A status other than a missing key or a mismatch counts as success. -/
def compareSwapResult (key expected : String) (response : ZPack) : ClientResult String :=
  let status := parseStatus response
  if status = "-92" then .error (.zht (.keyNotFound key))
  else if status = "-02" then .error (.zht (.casMismatch expected (fromUtf8Lossy response.val)))
  else .ok (fromUtf8Lossy response.val)

def compareSwap (key expected newValue : String) : σ → ClientResult String × σ :=
  c.call send key
    { opcode := utf8Bytes OPC_CMPSWP, key := utf8Bytes key, val := utf8Bytes expected, newval := utf8Bytes newValue }
    (compareSwapResult key expected)

def stateChangeCallbackResult (leaseMs : Nat) (response : ZPack) : ClientResult Unit :=
  let status := parseStatus response
  if status = "000" then .ok ()
  else if status = "-04" then .error (.zht (.leaseExpired leaseMs))
  else .error (.zht (.internal ("SCCB failed: " ++ status)))

def stateChangeCallback (key expected : String) (leaseMs : Nat) : σ → ClientResult Unit × σ :=
  c.call send key
    { opcode := utf8Bytes OPC_STCHGCB, key := utf8Bytes key, val := utf8Bytes expected,
      lease := utf8Bytes leaseMs.repr }
    (stateChangeCallbackResult leaseMs)

end Calls

/-- A client that is ready reads what the key's node answers. -/
theorem call_ok {σ α : Type} {c : ZHTClient} (hinit : c.initialized = true) {key : String} (hkey : key ≠ "")
    {node : HostEntity} (hnode : c.config.resolveNode key = .ok node) {send : Transport σ} {z response : ZPack}
    {s s' : σ} (hsend : send node.host node.port z s = (.ok response, s')) (interpret : ZPack → ClientResult α) :
    c.call send key z interpret s = (interpret response, s') := by
  unfold call
  simp only [hinit, Bool.true_eq_false, if_false, hkey, hnode, hsend]

end ZHTClient

/-! ## Statuses and values -/

/-- Every status is three bytes long. -/
theorem length_status : ∀ status ∈ [REC_SUCC, REC_EMPTYKEY, REC_CLTFAIL, REC_SRVFAIL, REC_SCCBPOLLTRY,
    REC_NONEXISTKEY, REC_UOPC], (utf8Bytes status).length = 3 := by decide

/-- The status of an answer whose lease is a status and what follows it. -/
theorem parseStatus_of_lease {z : ZPack} {status : String} (rest : String) (hs : (utf8Bytes status).length = 3)
    (h : z.lease = utf8Bytes (status ++ rest)) : parseStatus z = status := by
  rw [utf8Bytes_append] at h
  have hlen : 3 ≤ z.lease.length := by
    rw [h, List.length_append, hs]
    exact Nat.le_add_right 3 _
  unfold parseStatus
  rw [if_pos hlen, h, List.take_left' hs, fromUtf8Lossy_utf8Bytes]

/-- The value comes back whatever it is: empty, or looking like a status. -/
theorem lookupValue_of_lease {z : ZPack} {status value : String} (hs : (utf8Bytes status).length = 3)
    (hl : z.lease = utf8Bytes (status ++ value)) (hv : z.val = utf8Bytes value) : lookupValue z = .ok value := by
  have hlen : (utf8Bytes (status ++ value)).length = 3 + (utf8Bytes value).length := by
    rw [utf8Bytes_append, List.length_append, hs]
  unfold lookupValue sliceFrom
  simp only [hl, hv, fromUtf8Lossy_utf8Bytes, hlen]
  rw [utf8Bytes_append, List.drop_left' hs, fromUtf8_utf8Bytes]
  split <;> rfl

end Zht
