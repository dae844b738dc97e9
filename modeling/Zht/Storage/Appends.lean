/-
Concurrent appends to one key. `append` holds the write lock from the lookup to the insertion, so the
calls of several clients take effect one after the other under some schedule; the value they build
lists, between its separators, what was appended in that order.
-/
import Mathlib.Algebra.GroupWithZero.Nat
import Zht.Lib.Interleaving
import Zht.Lib.Machine
import Zht.Storage.Table

namespace Zht

open Lib Lib.Text Lib.Interleaving

/-- What the value under a key consists of: nothing if there is none. -/
def segments (map : Table) (key : String) : List String := (map.lookup key).elim [] (split ':')

/-- One more append is one more segment, the first one without a separator in front. -/
theorem segments_append {key : String} (hkey : key ≠ "") {value : String} (hv : ':' ∉ value.toList) (s : NoVoHT) :
    segments (s.append key value).2.map key = segments s.map key ++ [value] := by
  obtain ⟨s', hs, hmap⟩ := s.append_of_ne hkey value
  unfold segments
  rw [hs, hmap, Finmap.lookup_insert, NoVoHT.appendValue]
  cases s.map.lookup key with
  | none => exact split_of_not_mem hv
  | some existing =>
    refine split_concat ?_ hv
    rw [String.toList_append, String.toList_append, List.append_assoc]
    rfl

/-- A run of appends leaves its values behind the segments that were there. -/
theorem segments_after {key : String} (hkey : key ≠ "") :
    ∀ (trace : List String) (s : NoVoHT), (∀ value ∈ trace, ':' ∉ value.toList) →
      segments (Machine.after (fun s value => s.append key value) s trace).map key = segments s.map key ++ trace
  | [], _, _ => (List.append_nil _).symm
  | value :: trace, s, h => by
    have hvalue := h value List.mem_cons_self
    have htrace := segments_after hkey trace (s.append key value).2 fun v hv => h v (List.mem_cons_of_mem _ hv)
    rw [Machine.after_cons, htrace, segments_append hkey hvalue, List.append_assoc, List.singleton_append]

/-- Whatever the schedule of the clients' calls on an absent key: the segments of the final value are
the values appended, in the order the calls took effect, each as often as it was appended and those
of a client in its order. -/
theorem appends_interleaved (s : NoVoHT) (key : String) (clients : List (List String)) (trace : List String)
    (hkey : key ≠ "") (habsent : s.map.lookup key = none)
    (hclean : ∀ client ∈ clients, ∀ value ∈ client, ':' ∉ value.toList) (hrun : Interleaves clients trace) :
    segments (Machine.after (fun s value => s.append key value) s trace).map key = trace ∧
      (∀ value, trace.count value = (clients.map (List.count value)).sum) ∧
      ∀ client ∈ clients, client.Sublist trace := by
  have hvalues : ∀ value ∈ trace, ':' ∉ value.toList := by
    intro value hv
    obtain ⟨client, hc, hmem⟩ := List.mem_flatten.1 (hrun.perm.subset hv)
    exact hclean client hc value hmem
  refine ⟨?_, fun value => ?_, hrun.sublist⟩
  · have hsegments := segments_after hkey trace s hvalues
    have hnone : segments s.map key = [] := by
      unfold segments
      rw [habsent]
      rfl
    rw [hsegments, hnone, List.nil_append]
  · rw [hrun.perm.count_eq, List.count_flatten]

/-- Two clients, one of which appends an empty value first. -/
theorem appends_interleaved_example :
    segments (Machine.after (fun s value => s.append "k" value) NoVoHT.new ["a", "", "b", "a"]).map "k" =
      ["a", "", "b", "a"] := by
  -- the schedule, from its last call to its first
  have hdone : Interleaves [[], []] ([] : List String) := interleaves_flatten (.refl [[], []])
  have hlast : Interleaves [[], ["a"]] ["a"] := @Interleaves.next _ [[]] [] _ _ _ hdone
  have hthird : Interleaves [["b"], ["a"]] ["b", "a"] := @Interleaves.next _ [] [["a"]] _ _ _ hlast
  have hsecond : Interleaves [["b"], ["", "a"]] ["", "b", "a"] := @Interleaves.next _ [["b"]] [] _ _ _ hthird
  have hfirst : Interleaves [["a", "b"], ["", "a"]] ["a", "", "b", "a"] :=
    @Interleaves.next _ [] [["", "a"]] _ _ _ hsecond
  exact (appends_interleaved NoVoHT.new "k" [["a", "b"], ["", "a"]] _ (by decide) (by decide) (by decide) hfirst).1

end Zht
