/-
The neighbor list and zero-hop routing: the node of a key is the one at its hash modulo the number
of nodes.
-/
import Zht.Common.Basic

namespace Zht

structure NeighborConfig where
  neighbors : List HostEntity
  deriving DecidableEq, Repr

structure AppConfig where
  neighbors : NeighborConfig
  deriving DecidableEq, Repr

def NeighborConfig.nodeCount (c : NeighborConfig) : Nat := c.neighbors.length

def NeighborConfig.get (c : NeighborConfig) (index : Nat) : Option HostEntity := c.neighbors[index]?

def NeighborConfig.findIndex (c : NeighborConfig) (host : String) (port : UInt16) : Option Nat :=
  c.neighbors.findIdx? fun n => n.host = host ∧ n.port = port

namespace AppConfig

def nodeCount (c : AppConfig) : Nat := c.neighbors.nodeCount

def resolveNode (c : AppConfig) (key : String) : ZhtResult HostEntity :=
  if c.nodeCount = 0 then .error (.noDestinationNode key)
  else
    match c.neighbors.get ((genHashStr key).toNat % c.nodeCount) with
    | some node => .ok node
    -- not reached: the index is below the count
    | none => .error (.noDestinationNode key)

/-- With a neighbor there is a node for every key, and it is one of the neighbors. -/
theorem resolveNode_ok {c : AppConfig} (h : c.neighbors.neighbors ≠ []) (key : String) :
    ∃ node ∈ c.neighbors.neighbors, c.resolveNode key = .ok node := by
  have hpos : 0 < c.neighbors.neighbors.length := List.length_pos_iff.2 h
  have hlt : (genHashStr key).toNat % c.neighbors.neighbors.length < c.neighbors.neighbors.length :=
    Nat.mod_lt _ hpos
  refine ⟨c.neighbors.neighbors[(genHashStr key).toNat % c.neighbors.neighbors.length], List.getElem_mem hlt, ?_⟩
  unfold resolveNode nodeCount NeighborConfig.nodeCount NeighborConfig.get
  rw [if_neg (Nat.ne_of_gt hpos), List.getElem?_eq_getElem hlt]

end AppConfig

end Zht
