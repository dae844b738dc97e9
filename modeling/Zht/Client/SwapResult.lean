/-
What `compare_swap` tells its caller. The client takes every status but a missing key and a mismatch
for a success, and reads the value from a field that the worker leaves empty after a swap:
`swap_reported_iff` says for which statuses and for which stored, expected and new values the result
is right all the same.
-/
import Zht.Client.Cluster

namespace Zht

open Lib Lib.Utf8

/-- The statuses that the client tells apart. -/
def SWAP_STATUSES : List String := [REC_SUCC, REC_NONEXISTKEY, REC_CLTFAIL]

/-- The request of a `compare_swap` call. -/
def swapRequest (key expected newValue : String) : ZPack :=
  { opcode := utf8Bytes OPC_CMPSWP, key := utf8Bytes key, val := utf8Bytes expected, newval := utf8Bytes newValue }

/-- What the node's worker holds under the key. -/
def Cluster.stored (cluster : Cluster) (node : HostEntity) (key : String) : Option String :=
  (cluster.lookup node).bind fun w => w.store.map.lookup key

/-- `Ok` carries the stored value, and so does the mismatch that everything else is. -/
def SwapReported (result : ClientResult String) (expected : String) (stored : Option String) : Prop :=
  match result with
  | .ok value => stored = some value
  | .error e => ∃ actual, e = .zht (.casMismatch expected actual) ∧ stored = some actual

/-! ## Responses -/

/-- A response is read as `Ok` unless its status is one of the two errors. -/
theorem compareSwapResult_ok {key expected : String} {response : ZPack} :
    (∃ x, ZHTClient.compareSwapResult key expected response = .ok x) ↔
      parseStatus response ≠ REC_NONEXISTKEY ∧ parseStatus response ≠ REC_CLTFAIL := by
  unfold ZHTClient.compareSwapResult
  show _ ↔ parseStatus response ≠ "-92" ∧ parseStatus response ≠ "-02"
  simp only
  by_cases hmissing : parseStatus response = "-92"
  · simp [hmissing]
  · by_cases hmismatch : parseStatus response = "-02"
    · simp [hmismatch]
    · simp [hmissing, hmismatch]

/-- Success is only reported for `000` when the status is one that is told apart. -/
theorem ok_only_if_succ_iff (key expected : String) (response : ZPack) :
    (∀ x, ZHTClient.compareSwapResult key expected response = .ok x → parseStatus response = REC_SUCC) ↔
      parseStatus response ∈ SWAP_STATUSES := by
  have hok := @compareSwapResult_ok key expected response
  simp only [SWAP_STATUSES, List.mem_cons, List.not_mem_nil, or_false]
  constructor
  · intro h
    by_cases hmissing : parseStatus response = REC_NONEXISTKEY
    · exact .inr (.inl hmissing)
    · by_cases hmismatch : parseStatus response = REC_CLTFAIL
      · exact .inr (.inr hmismatch)
      · obtain ⟨x, hx⟩ := hok.2 ⟨hmissing, hmismatch⟩
        exact .inl (h x hx)
  · rintro h x hx
    obtain ⟨hmissing, hmismatch⟩ := hok.1 ⟨x, hx⟩
    rcases h with h | h | h
    · exact h
    · exact absurd h hmissing
    · exact absurd h hmismatch

/-! ## The worker's answers -/

/-- After a swap, or one it takes for made, the worker answers without a value. -/
theorem compareSwapResult_succ (key expected : String) (request : ZPack) :
    ZHTClient.compareSwapResult key expected (Reply.toZPack { lease := REC_SUCC } request) = .ok "" := by
  have hstatus := status_toZPack REC_SUCC "" false length_succ request
  unfold ZHTClient.compareSwapResult
  simp only [hstatus]
  rfl

theorem compareSwapResult_fail (key expected current : String) (request : ZPack) :
    ZHTClient.compareSwapResult key expected (Reply.toZPack { lease := REC_CLTFAIL, val := current } request) =
      .error (.zht (.casMismatch expected current)) := by
  have hstatus := status_toZPack REC_CLTFAIL current false (length_status _ (by decide)) request
  have hval : (Reply.toZPack { lease := REC_CLTFAIL, val := current } request).val = utf8Bytes current := rfl
  unfold ZHTClient.compareSwapResult
  simp only [hstatus, hval, fromUtf8Lossy_utf8Bytes]
  rfl

/-- The result of a call and what it leaves: no value after a swap, the stored one after a mismatch. -/
theorem compareSwap_result (map : Table) (key expected newValue : String) (request : ZPack) :
    let run := (Command.compareSwap key expected newValue).run map
    run.2.lookup key = some (NoVoHT.swapped map key expected newValue).2 ∧
      ZHTClient.compareSwapResult key expected (run.1.toZPack request) =
        if (NoVoHT.swapped map key expected newValue).2 = newValue then .ok ""
        else .error (.zht (.casMismatch expected (NoVoHT.swapped map key expected newValue).2)) := by
  constructor
  · rw [Command.run_compareSwap_map, NoVoHT.swapped_lookup]
  · simp only [Command.run]
    by_cases h : (NoVoHT.swapped map key expected newValue).2 = newValue
    · rw [if_pos h, if_pos h]
      exact compareSwapResult_succ key expected request
    · rw [if_neg h, if_neg h]
      exact compareSwapResult_fail key expected _ request

section Call

variable {c : ZHTClient} (hinit : c.initialized = true) {key : String} (hkey : key ≠ "") {node : HostEntity}
  (hnode : c.config.resolveNode key = .ok node)

include hinit hkey hnode

/-- A call through the node's worker. -/
theorem compareSwap_cluster {cluster : Cluster} {w : HTWorker} (hw : cluster.lookup node = some w)
    (expected newValue : String) :
    let call := c.compareSwap Cluster.send key expected newValue cluster
    let left := (NoVoHT.swapped w.store.map key expected newValue).2
    call.2.stored node key = some left ∧
      call.1 = if left = newValue then .ok "" else .error (.zht (.casMismatch expected left)) := by
  have hcall : c.compareSwap Cluster.send key expected newValue cluster = _ :=
    call_cluster hinit hkey hnode hw (swapRequest key expected newValue) (ZHTClient.compareSwapResult key expected)
  have hcommand : Command.ofRequest (swapRequest key expected newValue) = .compareSwap key expected newValue := by
    rw [swapRequest, command_compareSwap hkey, fromUtf8Lossy_utf8Bytes, fromUtf8Lossy_utf8Bytes]
  obtain ⟨hstored, hresult⟩ := compareSwap_result w.store.map key expected newValue (swapRequest key expected newValue)
  simp only
  rw [hcall]
  constructor
  · rw [Cluster.stored, Finmap.lookup_insert, Option.bind_some, w.process_map, hcommand, hstored]
  · rw [w.process_answer, hcommand, hresult]

/-- A client that is ready to send a key to a node gets `Ok` from a response only for status `000`
exactly if the status is `000`, `-92` or `-02`; and with the node's worker behind it, the result tells
what is stored exactly if the new value is empty or another value is stored against the expectation. -/
theorem swap_reported_iff (expected newValue : String) :
    (∀ (σ : Type) (send : Transport σ) (s s' : σ) (response : ZPack),
      send node.host node.port (swapRequest key expected newValue) s = (.ok response, s') →
        ((∀ x, (c.compareSwap send key expected newValue s).1 = .ok x → parseStatus response = REC_SUCC) ↔
          parseStatus response ∈ SWAP_STATUSES)) ∧
      ∀ (cluster : Cluster) (w : HTWorker), cluster.lookup node = some w →
        let call := c.compareSwap Cluster.send key expected newValue cluster
        (SwapReported call.1 expected (call.2.stored node key) ↔
          newValue = "" ∨
            ∃ current, w.store.map.lookup key = some current ∧ current ≠ expected ∧ current ≠ newValue) := by
  constructor
  · intro σ send s s' response hsend
    have hcall : c.compareSwap send key expected newValue s = _ :=
      ZHTClient.call_ok hinit hkey hnode hsend (ZHTClient.compareSwapResult key expected)
    rw [hcall]
    exact ok_only_if_succ_iff key expected response
  · intro cluster w hw
    obtain ⟨hstored, hresult⟩ := compareSwap_cluster hinit hkey hnode hw expected newValue
    simp only
    rw [hstored, hresult, ← NoVoHT.swapped_ne_iff]
    by_cases h : (NoVoHT.swapped w.store.map key expected newValue).2 = newValue
    · simp [SwapReported, h]
    · simp [SwapReported, h]

end Call

/-- A client of one node, and that node's worker with one entry. -/
def clientOfOne : ZHTClient := ⟨⟨⟨[⟨"n", 1⟩]⟩⟩, true⟩

def clusterOfOne (key value : String) : Cluster :=
  (∅ : Cluster).insert ⟨"n", 1⟩ (HTWorker.new { NoVoHT.new with map := (∅ : Table).insert key value })

/-- A mismatch is reported with the stored value. -/
theorem swap_reported_mismatch :
    let call := clientOfOne.compareSwap Cluster.send "k" "a" "b" (clusterOfOne "k" "c")
    SwapReported call.1 "a" (call.2.stored ⟨"n", 1⟩ "k") := by
  have hinit : clientOfOne.initialized = true := rfl
  have hkey : "k" ≠ "" := by decide
  have hnode : clientOfOne.config.resolveNode "k" = .ok ⟨"n", 1⟩ := by decide
  refine ((swap_reported_iff hinit hkey hnode "a" "b").2 (clusterOfOne "k" "c") _ (Finmap.lookup_insert _)).2 (.inr ?_)
  exact ⟨"c", by decide, by decide, by decide⟩

/-- A server error is reported as a success, and a swap of `a` for `b` with an empty value. -/
theorem swap_misreported :
    (clientOfOne.compareSwap (fun _ _ _ s => (.ok { lease := utf8Bytes REC_SRVFAIL }, s)) "k" "a" "b" ()).1 = .ok "" ∧
      (clientOfOne.compareSwap Cluster.send "k" "a" "b" (clusterOfOne "k" "a")).1 = .ok "" ∧
      (clientOfOne.compareSwap Cluster.send "k" "a" "b" (clusterOfOne "k" "a")).2.stored ⟨"n", 1⟩ "k" = some "b" := by
  decide

end Zht
