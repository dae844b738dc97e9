/-
The wire message, `zht.proto.ZPack`.
-/
import Zht.Common.Basic

namespace Zht

open Lib.Utf8

/-- The wire message; every field has its protobuf default. -/
structure ZPack where
  opcode : Bytes := []
  key : Bytes := []
  val : Bytes := []
  newval : Bytes := []
  lease : Bytes := []
  valnull : Bool := false
  newvalnull : Bool := false
  replicanum : Int32 := 0
  deriving DecidableEq, Repr, Inhabited

end Zht
