/-
`zht-common`: the opcodes and status codes, the errors, host entities and the routing hash.
-/
import Mathlib.Algebra.Group.Int.Defs
import Mathlib.Algebra.Group.Nat.Defs
import Zht.Lib.Decimal
import Zht.Lib.Text

namespace Zht

open Lib Lib.Utf8 Lib.Text

/-- A `Vec<u8>`. -/
abbrev Bytes := List UInt8

/-! ## Constants -/

def OPC_LOOKUP : String := "001"
def OPC_REMOVE : String := "002"
def OPC_INSERT : String := "003"
def OPC_APPEND : String := "004"
def OPC_CMPSWP : String := "005"
def OPC_STCHGCB : String := "006"

def REC_SUCC : String := "000"
def REC_EMPTYKEY : String := "-01"
def REC_CLTFAIL : String := "-02"
def REC_SRVFAIL : String := "-03"
def REC_SCCBPOLLTRY : String := "-04"
def REC_NONEXISTKEY : String := "-92"
def REC_UOPC : String := "-98"

/-- Milliseconds between two polls of a state change callback, and its lease when none is given. -/
def SCCB_POLL_DEFAULT_INTERVAL : Nat := 100

/-! ## Errors -/

inductive ZhtError
  | configNotFound (path : String)
  | configParseError (path reason : String)
  | invalidConfigValue (param reason : String)
  | connectionFailed (host : String) (port : UInt16) (reason : String)
  | sendFailed (msg : String)
  | recvFailed (msg : String)
  | emptyKey
  | keyNotFound (key : String)
  | casMismatch (expected actual : String)
  | leaseExpired (leaseMs : Nat)
  | noDestinationNode (key : String)
  | persistenceError (path reason : String)
  | protobufDecodeError (msg : String)
  | timeout (timeoutMs : Nat)
  | internal (msg : String)
  deriving DecidableEq, Repr

abbrev ZhtResult (α : Type) := Except ZhtError α

/-- The text of an error. -/
def ZhtError.text : ZhtError → String
  | configNotFound path => "configuration file not found: " ++ path
  | configParseError path reason => "failed to parse configuration file: " ++ path ++ ": " ++ reason
  | invalidConfigValue param reason => "invalid configuration value for '" ++ param ++ "': " ++ reason
  | connectionFailed host port reason => "connection failed to " ++ host ++ ":" ++ port.toNat.repr ++ ": " ++ reason
  | sendFailed msg => "send failed: " ++ msg
  | recvFailed msg => "receive failed: " ++ msg
  | emptyKey => "empty key in operation"
  | keyNotFound key => "key not found: " ++ key
  | casMismatch expected actual =>
    "compare-and-swap mismatch: expected '" ++ expected ++ "', got '" ++ actual ++ "'"
  | leaseExpired leaseMs => "state change callback lease expired after " ++ leaseMs.repr ++ "ms"
  | noDestinationNode key => "no destination node for key: " ++ key
  | persistenceError path reason => "failed to persist data to file: " ++ path ++ ": " ++ reason
  | protobufDecodeError msg => "protobuf deserialization failed: " ++ msg
  | timeout timeoutMs => "operation timed out after " ++ timeoutMs.repr ++ "ms"
  | internal msg => msg

/-! ## Host entities -/

structure HostEntity where
  host : String
  port : UInt16
  deriving DecidableEq, Repr

/-- `"host:port"`. -/
def HostEntity.address (h : HostEntity) : String := h.host ++ ":" ++ h.port.toNat.repr

theorem colon_not_mem_repr (n : Nat) : ':' ∉ n.repr.toList := fun h =>
  absurd (Decimal.digits_repr n ':' h) (by decide)

/-- The text in front of the last colon, and the port behind it. -/
def HostEntity.fromAddress (addr : String) : Option HostEntity :=
  match rsplitn2 ':' addr with
  | [port, host] =>
    match Decimal.parseUnsigned (2 ^ 16) port with
    | .ok port => some ⟨host, UInt16.ofNat port⟩
    | .error _ => none
  | _ => none

theorem HostEntity.fromAddress_address (h : HostEntity) : fromAddress h.address = some h := by
  have hlist : h.address.toList = h.host.toList ++ ':' :: h.port.toNat.repr.toList := by
    simp only [address, String.toList_append, List.append_assoc]
    rfl
  have hsplit : rsplitn2 ':' h.address = [h.port.toNat.repr, h.host] :=
    rsplitn2_concat hlist (colon_not_mem_repr h.port.toNat)
  have hport : Decimal.parseUnsigned (2 ^ 16) h.port.toNat.repr = .ok h.port.toNat :=
    Decimal.parseUnsigned_repr h.port.toNat_lt
  unfold fromAddress
  rw [hsplit]
  simp only [hport, UInt16.ofNat_toNat]

/-- An address names one host and port, whatever the host's text is. -/
theorem HostEntity.address_inj {a b : HostEntity} (h : a.address = b.address) : a = b := by
  have hboth := fromAddress_address a
  rw [h, fromAddress_address b] at hboth
  exact (Option.some.inj hboth).symm

/-- Addresses are read back, hosts with colons in them included; so they tell hosts apart. -/
theorem HostEntity.address_determines :
    (∀ (host : String) (port : UInt16), fromAddress (HostEntity.mk host port).address = some ⟨host, port⟩) ∧
      Function.Injective address :=
  ⟨fun host port => fromAddress_address ⟨host, port⟩, fun _ _ h => address_inj h⟩

example : HostEntity.fromAddress "::1:50000" = some ⟨"::1", 50000⟩ := by decide

/-! ## The routing hash -/

/-- The loop of `gen_hash`: it stops at the first zero byte, as the C string it mirrors ends there. -/
def genHashFrom (hash : UInt64) : Bytes → UInt64
  | [] => hash
  | byte :: rest =>
    if byte = 0 then hash
    else genHashFrom (byte.toUInt64 + (hash <<< 6) + (hash <<< 16) - hash) rest

def genHash (data : Bytes) : UInt64 := genHashFrom 0 data

def genHashStr (s : String) : UInt64 := genHash (utf8Bytes s)

end Zht
