/-
`MembershipManager`: the cluster members a server knows, their health, and routing over the alive
ones. Instants are milliseconds of one clock.
-/
import Zht.Common.Basic

namespace Zht

inductive NodeState
  | alive
  | suspect
  | dead
  | left
  deriving DecidableEq, Repr

structure MembershipEntry where
  host : HostEntity
  state : NodeState
  lastHeartbeat : Nat
  joinedAt : Nat
  deriving DecidableEq, Repr

structure MembershipManager where
  members : List MembershipEntry
  selfNode : HostEntity
  deriving DecidableEq, Repr

/-- `m.host.host == host && m.host.port == port`. -/
def MembershipEntry.names (e : MembershipEntry) (host : String) (port : UInt16) : Bool :=
  e.host.host = host && e.host.port = port

/-- `iter_mut().find(p)`, and the entry found is changed. -/
def updateFirst (p : MembershipEntry → Bool) (f : MembershipEntry → MembershipEntry) :
    List MembershipEntry → List MembershipEntry
  | [] => []
  | e :: es => if p e then f e :: es else e :: updateFirst p f es

/-- The node a key hashes to among `members`. -/
def ownerAmong (key : String) (members : List HostEntity) : Option HostEntity :=
  members[(genHashStr key).toNat % members.length]?

namespace MembershipManager

def new (now : Nat) (selfHost : HostEntity) (initialMembers : List HostEntity) : MembershipManager where
  members := (initialMembers.filter (· ≠ selfHost)).map fun host =>
    { host, state := .alive, lastHeartbeat := now, joinedAt := now }
  selfNode := selfHost

def activeMembers (m : MembershipManager) : List HostEntity :=
  (m.members.filter (·.state = .alive)).map (·.host)

def memberCount (m : MembershipManager) : Nat := (m.members.filter (·.state = .alive)).length

/-- The change that the marking calls make to the first entry of the node. -/
def mark (m : MembershipManager) (host : String) (port : UInt16) (f : MembershipEntry → MembershipEntry) :
    MembershipManager :=
  { m with members := updateFirst (·.names host port) f m.members }

def markAlive (m : MembershipManager) (now : Nat) (host : String) (port : UInt16) : MembershipManager :=
  m.mark host port fun e => { e with state := .alive, lastHeartbeat := now }

def markSuspect (m : MembershipManager) (now : Nat) (host : String) (port : UInt16) : MembershipManager :=
  m.mark host port fun e => { e with state := .suspect, lastHeartbeat := now }

def markDead (m : MembershipManager) (host : String) (port : UInt16) : MembershipManager :=
  m.mark host port fun e => { e with state := .dead }

def isAlive (m : MembershipManager) (host : String) (port : UInt16) : Bool :=
  m.members.any fun e => e.names host port && e.state = .alive

def addMember (m : MembershipManager) (now : Nat) (host : HostEntity) : MembershipManager :=
  if host = m.selfNode then m
  else if m.members.any (·.host = host) then m
  else { m with members := m.members ++ [{ host, state := .alive, lastHeartbeat := now, joinedAt := now }] }

def removeMember (m : MembershipManager) (host : String) (port : UInt16) : MembershipManager :=
  { m with members := m.members.filter fun e => !e.names host port }

/-- `elapsed` is zero when the heartbeat is not before `now`. -/
def checkHealth (m : MembershipManager) (now timeout : Nat) : MembershipManager :=
  { m with members := m.members.map fun e =>
      if e.state = .alive ∧ timeout < now - e.lastHeartbeat then { e with state := .suspect } else e }

/-- `None` when no member is alive. -/
def resolveNode (m : MembershipManager) (key : String) : Option HostEntity := ownerAmong key m.activeMembers

end MembershipManager

end Zht
