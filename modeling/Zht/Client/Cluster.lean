/-
A client and the workers of a cluster, refined by one map. Every key lives on the node its hash
selects, so a call reads and writes one worker's table at one key (`Represents.update`); the answer
the client makes of that worker's response is the map's (`exec_refines`).
-/
import Zht.Client.Client
import Zht.Lib.Machine
import Zht.Transport.Worker

namespace Zht

open Lib Lib.Utf8

/-- The workers of a cluster by node. -/
abbrev Cluster := HashMap HostEntity HTWorker

/-- Frames are delivered unchanged: the node's worker answers the request. -/
def Cluster.send : Transport Cluster := fun host port z cluster =>
  match cluster.lookup ⟨host, port⟩ with
  | none => (.error (.connectionFailed host port "connection refused"), cluster)
  | some w => (.ok (w.process z).1, cluster.insert ⟨host, port⟩ (w.process z).2)

/-! ## Calls and their reference -/

inductive ClientOp
  | insert (key value : String)
  | lookup (key : String)
  | remove (key : String)
  | append (key value : String)
  deriving DecidableEq, Repr

def ClientOp.key : ClientOp → String
  | insert key _ | lookup key | remove key | append key _ => key

/-- One call of a client on the cluster; only `lookup` returns a value. -/
def ClientOp.exec (c : ZHTClient) (cluster : Cluster) : ClientOp → ClientResult (Option String) × Cluster
  | insert key value => Prod.map (·.map fun _ => none) id (c.insert Cluster.send key value cluster)
  | lookup key => Prod.map (·.map some) id (c.lookup Cluster.send key cluster)
  | remove key => Prod.map (·.map fun _ => none) id (c.remove Cluster.send key cluster)
  | append key value => Prod.map (·.map fun _ => none) id (c.append Cluster.send key value cluster)

/-- The same call on one map. -/
def ClientOp.reference (m : Table) : ClientOp → ClientResult (Option String) × Table
  | insert key value => (.ok none, m.insert key value)
  | lookup key =>
    match m.lookup key with
    | some value => (.ok (some value), m)
    | none => (.error (.zht (.keyNotFound key)), m)
  | remove key =>
    match m.lookup key with
    | some _ => (.ok none, m.erase key)
    | none => (.error (.zht (.keyNotFound key)), m)
  | append key value =>
    match m.lookup key with
    | some old => (.ok none, m.insert key (old ++ ":" ++ value))
    | none => (.ok none, m.insert key value)

/-! ## The relation -/

/-- Each listed node has a worker, each key lives only on its node, and there it has the map's value. -/
structure Represents (config : AppConfig) (cluster : Cluster) (m : Table) : Prop where
  worker : ∀ node ∈ config.neighbors.neighbors, ∃ w, cluster.lookup node = some w
  placed : ∀ node ∈ config.neighbors.neighbors, ∀ w, cluster.lookup node = some w →
    ∀ k v, w.store.map.lookup k = some v → config.resolveNode k = .ok node
  agree : ∀ k node w, config.resolveNode k = .ok node → cluster.lookup node = some w →
    w.store.map.lookup k = m.lookup k

section Relation

variable {config : AppConfig} {cluster : Cluster} {m m' : Table} {key : String} {node : HostEntity} {w w' : HTWorker}

/-- A command run by the worker of its key's node, and by the map. -/
theorem Represents.run (h : Represents config cluster m) {command : Command} (hc : command.key = some key)
    (hnode : config.resolveNode key = .ok node) (hmem : node ∈ config.neighbors.neighbors)
    (hw : cluster.lookup node = some w) (hw' : w'.store.map = (command.run w.store.map).2) :
    (command.run w.store.map).1 = (command.run m).1 ∧
      Represents config (cluster.insert node w') (command.run m).2 := by
  have hagree := h.agree key node w hnode hw
  have hlocal : ∀ k ∈ command.key, w.store.map.lookup k = m.lookup k := by
    rw [hc]
    rintro k ⟨⟩
    exact hagree
  obtain ⟨hreply, hkey⟩ := command.run_local hlocal
  have hkey' : w'.store.map.lookup key = (command.run m).2.lookup key := hw' ▸ hkey key hc
  have hother : ∀ k, k ≠ key → w'.store.map.lookup k = w.store.map.lookup k := fun k hk =>
    hw' ▸ command.run_frame w.store.map (by rw [hc]; exact fun e => hk (Option.some.inj e).symm)
  have hother' : ∀ k, k ≠ key → (command.run m).2.lookup k = m.lookup k := fun k hk =>
    command.run_frame m (by rw [hc]; exact fun e => hk (Option.some.inj e).symm)
  refine ⟨hreply, ⟨fun n hn => ?_, fun n hn u hu k v hk => ?_, fun k n u hn hu => ?_⟩⟩
  -- every node keeps a worker
  · by_cases he : n = node
    · exact ⟨w', by rw [he, Finmap.lookup_insert]⟩
    · rw [Finmap.lookup_insert_of_ne _ he]
      exact h.worker n hn
  -- the only key a worker may gain is the command's, and that is on its own node
  · by_cases he : n = node
    · rw [he, Finmap.lookup_insert] at hu
      cases hu
      by_cases hkk : k = key
      · rw [hkk, hnode, he]
      · rw [hother k hkk] at hk
        rw [he]
        exact h.placed node hmem w hw k v hk
    · rw [Finmap.lookup_insert_of_ne _ he] at hu
      exact h.placed n hn u hu k v hk
  -- the command's key agrees again, and the others still do
  · by_cases hkk : k = key
    · subst hkk
      rw [hnode] at hn
      cases hn
      rw [Finmap.lookup_insert] at hu
      cases hu
      exact hkey'
    · rw [hother' k hkk]
      by_cases he : n = node
      · rw [he, Finmap.lookup_insert] at hu
        cases hu
        rw [hother k hkk]
        exact h.agree k node w (he ▸ hn) hw
      · rw [Finmap.lookup_insert_of_ne _ he] at hu
        exact h.agree k n u hn hu

/-- A call on the cluster is a request to the worker of the key's node. -/
theorem call_cluster {α : Type} {c : ZHTClient} (hinit : c.initialized = true) (hkey : key ≠ "")
    (hnode : c.config.resolveNode key = .ok node) (hw : cluster.lookup node = some w) (z : ZPack)
    (interpret : ZPack → ClientResult α) :
    c.call Cluster.send key z interpret cluster =
      (interpret (w.process z).1, cluster.insert node (w.process z).2) := by
  refine ZHTClient.call_ok hinit hkey hnode ?_ interpret
  unfold Cluster.send
  simp only [hw]

end Relation

/-! ## What the client makes of the answers -/

theorem length_succ : (utf8Bytes REC_SUCC).length = 3 := length_status _ (by decide)

theorem length_nonexist : (utf8Bytes REC_NONEXISTKEY).length = 3 := length_status _ (by decide)

/-- The status of a reply whose lease is nothing else. -/
theorem status_toZPack (lease val : String) (valnull : Bool) (hs : (utf8Bytes lease).length = 3) (request : ZPack) :
    parseStatus (Reply.toZPack ⟨lease, val, valnull⟩ request) = lease :=
  parseStatus_of_lease "" hs (by rw [String.append_empty]; rfl)

theorem status_lookup (value : String) (request : ZPack) :
    parseStatus (Reply.toZPack { lease := REC_SUCC ++ value, val := value } request) = REC_SUCC :=
  parseStatus_of_lease value length_succ rfl

theorem lookupValue_lookup (value : String) (request : ZPack) :
    lookupValue (Reply.toZPack { lease := REC_SUCC ++ value, val := value } request) = .ok value :=
  lookupValue_of_lease length_succ rfl rfl

section Results

variable {z : ZPack}

theorem insertResult_succ (h : parseStatus z = REC_SUCC) : ZHTClient.insertResult z = .ok () := by
  simp only [ZHTClient.insertResult, h, REC_SUCC, if_true]

theorem removeResult_succ (h : parseStatus z = REC_SUCC) (key : String) : ZHTClient.removeResult key z = .ok () := by
  simp only [ZHTClient.removeResult, h, REC_SUCC, if_true]

theorem removeResult_nonexist (h : parseStatus z = REC_NONEXISTKEY) (key : String) :
    ZHTClient.removeResult key z = .error (.zht (.keyNotFound key)) := by
  simp only [ZHTClient.removeResult, h]
  rfl

theorem appendResult_succ (h : parseStatus z = REC_SUCC) : ZHTClient.appendResult z = .ok () := by
  simp only [ZHTClient.appendResult, h, REC_SUCC, if_true]

theorem lookupResult_nonexist (h : parseStatus z = REC_NONEXISTKEY) (key : String) :
    ZHTClient.lookupResult key z = .error (.zht (.keyNotFound key)) := by
  simp only [ZHTClient.lookupResult, h]
  rfl

theorem lookupResult_succ (h : parseStatus z = REC_SUCC) (key : String) :
    ZHTClient.lookupResult key z = lookupValue z := by
  simp only [ZHTClient.lookupResult, h]
  rfl

end Results

section Refinement

variable {c : ZHTClient} {cluster : Cluster} {m : Table}

/-- A call comes to its command: the reply is the map's, and so is what it leaves. -/
theorem Represents.call {α : Type} (h : Represents c.config cluster m) (hinit : c.initialized = true)
    (hne : c.config.neighbors.neighbors ≠ []) {key : String} (hkey : key ≠ "") {z : ZPack} {command : Command}
    (hz : Command.ofRequest z = command) (hc : command.key = some key) (interpret : ZPack → ClientResult α) :
    ∃ cluster', c.call Cluster.send key z interpret cluster =
        (interpret ((command.run m).1.toZPack z), cluster') ∧
      Represents c.config cluster' (command.run m).2 := by
  obtain ⟨node, hmem, hnode⟩ := AppConfig.resolveNode_ok hne key
  obtain ⟨w, hw⟩ := h.worker node hmem
  obtain ⟨hreply, hrep⟩ := h.run hc hnode hmem hw (hz ▸ w.process_map z)
  refine ⟨_, ?_, hrep⟩
  rw [call_cluster hinit hkey hnode hw, w.process_answer, hz, hreply]

/-- One call answers as the map does, and the cluster still represents it. -/
theorem exec_refines (h : Represents c.config cluster m) (hinit : c.initialized = true)
    (hne : c.config.neighbors.neighbors ≠ []) {op : ClientOp} (hkey : op.key ≠ "") :
    (op.exec c cluster).1 = (op.reference m).1 ∧ Represents c.config (op.exec c cluster).2 (op.reference m).2 := by
  cases op with
  | insert key value =>
    replace hkey : key ≠ "" := hkey
    have hcommand := command_insert hkey (utf8Bytes value)
    rw [fromUtf8Lossy_utf8Bytes] at hcommand
    obtain ⟨cluster', hcall, hrep⟩ :=
      h.call hinit hne hkey hcommand rfl ZHTClient.insertResult
    simp only [ClientOp.exec, ZHTClient.insert, hcall, Command.run]
    rw [insertResult_succ (status_toZPack REC_SUCC _ _ length_succ _)]
    exact ⟨rfl, hrep⟩
  | lookup key =>
    replace hkey : key ≠ "" := hkey
    obtain ⟨cluster', hcall, hrep⟩ :=
      h.call hinit hne hkey (command_lookup hkey) rfl (ZHTClient.lookupResult key)
    simp only [ClientOp.exec, ZHTClient.lookup, hcall, ClientOp.reference]
    simp only [Command.run] at hrep ⊢
    cases hl : m.lookup key with
    | none =>
      rw [hl] at hrep
      rw [lookupResult_nonexist (status_toZPack REC_NONEXISTKEY _ _ length_nonexist _)]
      exact ⟨rfl, hrep⟩
    | some value =>
      rw [hl] at hrep
      rw [lookupResult_succ (status_lookup value _), lookupValue_lookup]
      exact ⟨rfl, hrep⟩
  | remove key =>
    replace hkey : key ≠ "" := hkey
    obtain ⟨cluster', hcall, hrep⟩ :=
      h.call hinit hne hkey (command_remove hkey) rfl (ZHTClient.removeResult key)
    simp only [ClientOp.exec, ZHTClient.remove, hcall, ClientOp.reference]
    simp only [Command.run] at hrep ⊢
    cases hl : m.lookup key with
    | none =>
      rw [hl] at hrep
      rw [removeResult_nonexist (status_toZPack REC_NONEXISTKEY _ _ length_nonexist _)]
      exact ⟨rfl, hrep⟩
    | some value =>
      rw [hl] at hrep
      rw [removeResult_succ (status_toZPack REC_SUCC _ _ length_succ _)]
      exact ⟨rfl, hrep⟩
  | append key value =>
    replace hkey : key ≠ "" := hkey
    have hcommand := command_append hkey (utf8Bytes value)
    rw [fromUtf8Lossy_utf8Bytes] at hcommand
    obtain ⟨cluster', hcall, hrep⟩ :=
      h.call hinit hne hkey hcommand rfl ZHTClient.appendResult
    simp only [ClientOp.exec, ZHTClient.append, hcall, ClientOp.reference]
    simp only [Command.run, NoVoHT.appendValue] at hrep ⊢
    rw [appendResult_succ (status_toZPack REC_SUCC _ _ length_succ _)]
    cases hl : m.lookup key with
    | none =>
      rw [hl] at hrep
      exact ⟨rfl, hrep⟩
    | some old =>
      rw [hl] at hrep
      exact ⟨rfl, hrep⟩

end Refinement

/-! ## The map of a cluster -/

/-- The entries of the nodes' workers. -/
def Cluster.union (cluster : Cluster) : List HostEntity → Table
  | [] => ∅
  | node :: nodes =>
    match cluster.lookup node with
    | some w => w.store.map ∪ cluster.union nodes
    | none => cluster.union nodes

/-- Some node of the list holds the entry. -/
def Cluster.Holds (cluster : Cluster) (nodes : List HostEntity) (k v : String) : Prop :=
  ∃ node ∈ nodes, ∃ w, cluster.lookup node = some w ∧ w.store.map.lookup k = some v

theorem Cluster.holds_of_union {cluster : Cluster} {nodes : List HostEntity} {k v : String}
    (h : (cluster.union nodes).lookup k = some v) : cluster.Holds nodes k v := by
  induction nodes with
  | nil =>
    rw [union, Finmap.lookup_empty] at h
    cases h
  | cons node nodes ih =>
    have hrest : (cluster.union nodes).lookup k = some v → cluster.Holds (node :: nodes) k v := by
      intro hl
      obtain ⟨n, hn, hw⟩ := ih hl
      exact ⟨n, List.mem_cons_of_mem _ hn, hw⟩
    rw [union] at h
    cases hw : cluster.lookup node with
    | none =>
      rw [hw] at h
      exact hrest h
    | some w =>
      rw [hw] at h
      rcases Finmap.mem_lookup_union.1 h with hl | ⟨-, hl⟩
      · exact ⟨node, List.mem_cons_self, w, hw, hl⟩
      · exact hrest hl

theorem Cluster.exists_union {cluster : Cluster} {nodes : List HostEntity} {k v : String}
    (h : cluster.Holds nodes k v) : ∃ v', (cluster.union nodes).lookup k = some v' := by
  induction nodes with
  | nil =>
    obtain ⟨n, hn, -⟩ := h
    cases hn
  | cons node nodes ih =>
    obtain ⟨n, hn, w, hw, hl⟩ := h
    rw [union]
    rcases List.mem_cons.1 hn with rfl | hn
    · rw [hw]
      exact ⟨v, Finmap.mem_lookup_union.2 (.inl hl)⟩
    · obtain ⟨v', hv'⟩ := ih ⟨n, hn, w, hw, hl⟩
      cases hu : cluster.lookup node with
      | none => exact ⟨v', hv'⟩
      | some u =>
        simp only
        cases hk : u.store.map.lookup k with
        | some v'' => exact ⟨v'', Finmap.mem_lookup_union.2 (.inl hk)⟩
        | none => exact ⟨v', Finmap.mem_lookup_union.2 (.inr ⟨Finmap.lookup_eq_none.1 hk, hv'⟩)⟩

/-- Workers whose keys live on their own nodes are one map: the entries of all of them. -/
theorem exists_represents {config : AppConfig} {cluster : Cluster} (hne : config.neighbors.neighbors ≠ [])
    (hworker : ∀ node ∈ config.neighbors.neighbors, ∃ w, cluster.lookup node = some w)
    (hplaced : ∀ node ∈ config.neighbors.neighbors, ∀ w, cluster.lookup node = some w →
      ∀ k v, w.store.map.lookup k = some v → config.resolveNode k = .ok node) :
    ∃ m : Table, (∀ k v, m.lookup k = some v ↔ cluster.Holds config.neighbors.neighbors k v) ∧
      Represents config cluster m := by
  -- the key's node is the only one that can hold it
  have hunique : ∀ k v v', cluster.Holds config.neighbors.neighbors k v →
      cluster.Holds config.neighbors.neighbors k v' → v = v' := by
    rintro k v v' ⟨n, hn, w, hw, hl⟩ ⟨n', hn', w', hw', hl'⟩
    have he := (hplaced n hn w hw k v hl).symm.trans (hplaced n' hn' w' hw' k v' hl')
    cases he
    rw [hw] at hw'
    cases hw'
    exact Option.some.inj (hl.symm.trans hl')
  have hiff : ∀ k v, (cluster.union config.neighbors.neighbors).lookup k = some v ↔
      cluster.Holds config.neighbors.neighbors k v := by
    intro k v
    refine ⟨Cluster.holds_of_union, fun h => ?_⟩
    obtain ⟨v', hv'⟩ := Cluster.exists_union h
    rw [hv', hunique k v v' h (Cluster.holds_of_union hv')]
  refine ⟨_, hiff, hworker, hplaced, fun k node w hnode hw => ?_⟩
  obtain ⟨node', hmem, hnode'⟩ := AppConfig.resolveNode_ok hne k
  have hsame : node = node' := Except.ok.inj (hnode.symm.trans hnode')
  apply Option.ext
  intro v
  rw [hiff k v]
  constructor
  · exact fun hl => ⟨node, hsame ▸ hmem, w, hw, hl⟩
  · rintro ⟨n, hn, u, hu, hl⟩
    have he := (hplaced n hn u hu k v hl).symm.trans hnode
    cases he
    rw [hw] at hu
    cases hu
    exact hl

/-- Client and cluster refine one map: started from any stores in which each key lives only on its
node, every sequence of calls with non-empty keys is answered as the map of all entries answers it. -/
theorem cluster_refines_map (config : AppConfig) (hne : config.neighbors.neighbors ≠ []) (cluster : Cluster)
    (hworker : ∀ node ∈ config.neighbors.neighbors, ∃ w, cluster.lookup node = some w)
    (hplaced : ∀ node ∈ config.neighbors.neighbors, ∀ w, cluster.lookup node = some w →
      ∀ k v, w.store.map.lookup k = some v → config.resolveNode k = .ok node) :
    ∃ m : Table, (∀ k v, m.lookup k = some v ↔ cluster.Holds config.neighbors.neighbors k v) ∧
      ∀ ops : List ClientOp, (∀ op ∈ ops, op.key ≠ "") →
        Machine.outputs (ClientOp.exec ⟨config, true⟩) cluster ops = Machine.outputs ClientOp.reference m ops ∧
        Represents config (Machine.after (ClientOp.exec ⟨config, true⟩) cluster ops)
          (Machine.after ClientOp.reference m ops) := by
  obtain ⟨m, hm, hrep⟩ := exists_represents hne hworker hplaced
  have hstep : ∀ (cluster : Cluster) (m : Table) (op : ClientOp), Represents config cluster m → op.key ≠ "" →
      (op.exec ⟨config, true⟩ cluster).1 = (op.reference m).1 ∧
        Represents config (op.exec ⟨config, true⟩ cluster).2 (op.reference m).2 :=
    fun cluster m op h hk => exec_refines (c := ⟨config, true⟩) h rfl hne hk
  exact ⟨m, hm, fun ops hops => Machine.simulates hstep hrep hops⟩

/-- Two nodes; the second one holds an entry that its hash selects, with a status as its value. -/
def twoNodes : AppConfig := ⟨⟨[⟨"a", 1⟩, ⟨"b", 2⟩]⟩⟩

def emptyWorker : HTWorker := HTWorker.new NoVoHT.new

def holdingWorker : HTWorker := HTWorker.new { NoVoHT.new with map := (∅ : Table).insert "k" "-92" }

def twoWorkers : Cluster := ((∅ : Cluster).insert ⟨"a", 1⟩ emptyWorker).insert ⟨"b", 2⟩ holdingWorker

theorem twoWorkers_placed (node : HostEntity) (hn : node ∈ twoNodes.neighbors.neighbors) (w : HTWorker)
    (hw : twoWorkers.lookup node = some w) (k v : String) (hk : w.store.map.lookup k = some v) :
    twoNodes.resolveNode k = .ok node := by
  simp only [twoNodes, List.mem_cons, List.not_mem_nil, or_false] at hn
  rcases hn with rfl | rfl
  · have he : w = emptyWorker := Option.some.inj (hw.symm.trans (by decide))
    rw [he] at hk
    cases hk.symm.trans (Finmap.lookup_empty k)
  · have he : w = holdingWorker := Option.some.inj (hw.symm.trans (by decide))
    rw [he] at hk
    by_cases hkk : k = "k"
    · rw [hkk]
      decide
    · have hnone : ((∅ : Table).insert "k" "-92").lookup k = none :=
        (Finmap.lookup_insert_of_ne ∅ hkk).trans (Finmap.lookup_empty k)
      cases hk.symm.trans hnone

theorem cluster_refines_map_two :
    ∃ m : Table, m.lookup "k" = some "-92" ∧
      Machine.outputs (ClientOp.exec ⟨twoNodes, true⟩) twoWorkers
          [.lookup "k", .insert "x" "", .lookup "x", .append "x" "000", .remove "k", .lookup "k"] =
        Machine.outputs ClientOp.reference m
          [.lookup "k", .insert "x" "", .lookup "x", .append "x" "000", .remove "k", .lookup "k"] := by
  have hworker : ∀ node ∈ twoNodes.neighbors.neighbors, ∃ w, twoWorkers.lookup node = some w := by
    intro node hn
    simp only [twoNodes, List.mem_cons, List.not_mem_nil, or_false] at hn
    rcases hn with rfl | rfl
    · exact ⟨emptyWorker, by decide⟩
    · exact ⟨holdingWorker, by decide⟩
  obtain ⟨m, hm, hrun⟩ := cluster_refines_map twoNodes (by decide) twoWorkers hworker twoWorkers_placed
  refine ⟨m, (hm "k" "-92").2 ⟨⟨"b", 2⟩, by decide, holdingWorker, by decide, by decide⟩, (hrun _ ?_).1⟩
  intro op hop
  simp only [List.mem_cons, List.not_mem_nil, or_false] at hop
  rcases hop with rfl | rfl | rfl | rfl | rfl | rfl <;> decide

end Zht
