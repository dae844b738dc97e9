/-
Requests that are processed more than once. A call makes a second attempt when its connection breaks, and
the first one may have been processed all the same; between the two other clients' requests are processed.
A copy finds the table as the first one left it at its key, so it changes nothing unless it is an APPEND,
and is answered as the first one was unless it is a REMOVE (`copies_harmless`).
-/
import Zht.Lib.Machine
import Zht.Transport.Worker

namespace Zht

open Lib Lib.Utf8

/-! ## A command once more -/

/-- The command adds to what is under its key. -/
def Command.IsAppend : Command → Prop
  | append _ _ => True
  | emptyKey | lookup _ | insert _ _ | remove _ | compareSwap _ _ _ | stateChangeCallback _ _ _ | unrecognized => False

/-- What a copy may be answered where the first one was answered `reply`. -/
def Command.AnswersAgain (command : Command) (reply again : Reply) : Prop :=
  again = reply ∨ (∃ key, command = .remove key) ∧ reply = { lease := REC_SUCC } ∧ again = { lease := REC_NONEXISTKEY }

/-- Run on the table it leaves, a command changes it only if it appends. -/
theorem Command.run_again_iff (command : Command) (map : Table) :
    (command.run (command.run map).2).2 = (command.run map).2 ↔ ¬command.IsAppend := by
  rw [run_eq_self_iff]
  cases command with
  | emptyKey => exact iff_of_true trivial id
  | lookup key => exact iff_of_true trivial id
  | insert key value => exact iff_of_true (Finmap.lookup_insert _) id
  | remove key =>
    refine iff_of_true ?_ id
    simp only [run, Idle]
    cases h : map.lookup key with
    | none => exact h
    | some value => exact Finmap.lookup_erase key map
  | append key value => exact iff_of_false id fun h => h trivial
  | compareSwap key expected newValue =>
    refine iff_of_true ?_ id
    rw [run_compareSwap_map]
    simp only [Idle]
    rcases NoVoHT.swapped_cases map key expected newValue with ⟨h, hs⟩ | ⟨current, h, he, hs⟩
    · exact ⟨newValue, by rw [hs, Finmap.lookup_insert], fun _ => rfl⟩
    · exact ⟨current, by rw [hs, h], fun hc => absurd hc he⟩
  | stateChangeCallback key expected lease => exact iff_of_true trivial id
  | unrecognized => exact iff_of_true trivial id

/-- Run on the table it leaves, a command is answered as before, except that a removed key is not there. -/
theorem Command.answers_again {command : Command} (h : ¬command.IsAppend) (map : Table) :
    command.AnswersAgain (command.run map).1 (command.run (command.run map).2).1 := by
  cases command with
  | append key value => exact absurd trivial h
  | emptyKey | insert | stateChangeCallback | unrecognized => exact .inl rfl
  | lookup key =>
    refine .inl ?_
    rw [((Command.lookup key).run_eq_self_iff map).2 trivial]
  | remove key =>
    cases hl : map.lookup key with
    | none =>
      refine .inl ?_
      rw [((Command.remove key).run_eq_self_iff map).2 hl]
    | some value =>
      refine .inr ⟨⟨key, rfl⟩, ?_, ?_⟩
      · simp only [run, hl]
      · simp only [run, hl, Finmap.lookup_erase]
  | compareSwap key expected newValue =>
    rcases NoVoHT.swapped_cases map key expected newValue with ⟨-, hs⟩ | ⟨current, -, -, hs⟩
    -- the new value is under the key now, and a swap of it is always reported as made
    · have hagain : (NoVoHT.swapped (map.insert key newValue) key expected newValue).2 = newValue := by
        rcases NoVoHT.swapped_cases (map.insert key newValue) key expected newValue with ⟨-, ha⟩ | ⟨current, hc, -, ha⟩
        · rw [ha]
        · rw [ha]
          exact Option.some.inj (hc.symm.trans (Finmap.lookup_insert _))
      refine .inl ?_
      rw [run_compareSwap_map]
      simp only [run, hs, hagain, if_true]
    · have hsame : ((compareSwap key expected newValue).run map).2 = map := by rw [run_compareSwap_map, hs]
      refine .inl ?_
      rw [hsame]

/-- A table that has the same under a command's key runs it alike, and is left alone by it alike. -/
theorem Command.run_elsewhere {command : Command} {map map' : Table}
    (h : ∀ k ∈ command.key, map'.lookup k = map.lookup k) :
    (command.run map').1 = (command.run map).1 ∧ ((command.run map).2 = map → (command.run map').2 = map') := by
  obtain ⟨hreply, hvalue⟩ := command.run_local h
  refine ⟨hreply, fun hsame => ?_⟩
  apply Finmap.ext_lookup
  intro k
  by_cases hk : command.key = some k
  · rw [hvalue k hk, hsame, h k hk]
  · exact command.run_frame map' hk

/-! ## Runs with copies -/

/-- A request that reaches the worker, for the first time or again. -/
structure Delivery where
  request : ZPack
  again : Bool
  deriving DecidableEq, Repr

/-- The requests without the copies. -/
def withoutCopies (ds : List Delivery) : List ZPack := (ds.filter (!·.again)).map (·.request)

/-- Behind the place `i` no other request writes to the key of this one. -/
def Undisturbed (ds : List Delivery) (i : Nat) (request : ZPack) : Prop :=
  ∀ j d, i < j → ds[j]? = some d → d.again = false →
    ∀ k ∈ (Command.ofRequest request).key, (Command.ofRequest d.request).Spares k

/-- Every copy comes behind its first one, with no write of another request to its key in between. -/
def CopiesFollow (ds : List Delivery) : Prop :=
  ∀ j d, ds[j]? = some d → d.again = true →
    ∃ i < j, ds[i]? = some ⟨d.request, false⟩ ∧ Undisturbed (ds.take j) i d.request

/-- The worker behind the deliveries. -/
abbrev HTWorker.delivered (w : HTWorker) (ds : List Delivery) : HTWorker :=
  Machine.after HTWorker.process w (ds.map (·.request))

/-- Their answers. -/
abbrev HTWorker.deliveryAnswers (w : HTWorker) (ds : List Delivery) : List ZPack :=
  Machine.outputs HTWorker.process w (ds.map (·.request))

/-- The worker behind the first ones alone. -/
abbrev HTWorker.served (w : HTWorker) (ds : List Delivery) : HTWorker :=
  Machine.after HTWorker.process w (withoutCopies ds)

theorem withoutCopies_append (ds : List Delivery) (d : Delivery) :
    withoutCopies (ds ++ [d]) = withoutCopies ds ++ if d.again then [] else [d.request] := by
  unfold withoutCopies
  rw [List.filter_append, List.map_append]
  cases h : d.again <;> simp [h]

section Prefix

variable {ds : List Delivery} {d : Delivery}

theorem CopiesFollow.dropLast (h : CopiesFollow (ds ++ [d])) : CopiesFollow ds := by
  intro j e hj hagain
  have hlt := (List.getElem?_eq_some_iff.1 hj).1
  obtain ⟨i, hi, hfirst, hquiet⟩ := h j e (by rw [List.getElem?_append_left hlt, hj]) hagain
  refine ⟨i, hi, ?_, ?_⟩
  · rwa [List.getElem?_append_left (hi.trans hlt)] at hfirst
  · rwa [List.take_append_of_le_length hlt.le] at hquiet

/-- The last one of the deliveries is a copy. -/
theorem CopiesFollow.last (h : CopiesFollow (ds ++ [d])) (hagain : d.again = true) :
    ∃ i < ds.length, ds[i]? = some ⟨d.request, false⟩ ∧ Undisturbed ds i d.request := by
  obtain ⟨i, hi, hfirst, hquiet⟩ := h ds.length d List.getElem?_concat_length hagain
  refine ⟨i, hi, ?_, ?_⟩
  · rwa [List.getElem?_append_left hi] at hfirst
  · rwa [List.take_left] at hquiet

theorem Undisturbed.dropLast {i : Nat} {request : ZPack} (h : Undisturbed (ds ++ [d]) i request) :
    Undisturbed ds i request := by
  intro j e hij hj
  exact h j e hij (by rw [List.getElem?_append_left (List.getElem?_eq_some_iff.1 hj).1, hj])

theorem Undisturbed.last {i : Nat} {request : ZPack} (h : Undisturbed (ds ++ [d]) i request) (hi : i < ds.length)
    (hfirst : d.again = false) : ∀ k ∈ (Command.ofRequest request).key, (Command.ofRequest d.request).Spares k :=
  h ds.length d hi List.getElem?_concat_length hfirst

end Prefix

/-! ## What the worker makes of copies -/

/-- The answers to the first ones. -/
def firstAnswers (w : HTWorker) (ds : List Delivery) : List ZPack :=
  ((ds.zip (w.deliveryAnswers ds)).filter fun e => !e.1.again).map Prod.snd

/-- Until its key is written to, a first one would leave the table as it is, and be answered as it was. -/
def Repeatable (w : HTWorker) (ds : List Delivery) : Prop :=
  ∀ i request, ds[i]? = some ⟨request, false⟩ → Undisturbed ds i request → ¬(Command.ofRequest request).IsAppend →
    let map := (w.delivered ds).store.map
    ((Command.ofRequest request).run map).2 = map ∧ ∃ reply, (w.deliveryAnswers ds)[i]? = some (reply.toZPack request) ∧
      (Command.ofRequest request).AnswersAgain reply ((Command.ofRequest request).run map).1

section Step

variable (w : HTWorker) (ds : List Delivery) (d : Delivery)

theorem delivered_append_map : (w.delivered (ds ++ [d])).store.map =
    ((Command.ofRequest d.request).run (w.delivered ds).store.map).2 := by
  unfold HTWorker.delivered
  rw [List.map_append, Machine.after_append]
  exact HTWorker.process_map _ _

theorem deliveryAnswers_append : w.deliveryAnswers (ds ++ [d]) = w.deliveryAnswers ds ++
    [((Command.ofRequest d.request).run (w.delivered ds).store.map).1.toZPack d.request] := by
  unfold HTWorker.deliveryAnswers
  rw [List.map_append, Machine.outputs_append]
  exact congrArg (fun a => _ ++ [a]) (HTWorker.process_answer _ _)

theorem length_deliveryAnswers : (w.deliveryAnswers ds).length = ds.length :=
  (Machine.length_outputs _ _ _).trans (List.length_map _)

theorem served_append_map : (w.served (ds ++ [d])).store.map =
    if d.again then (w.served ds).store.map
    else ((Command.ofRequest d.request).run (w.served ds).store.map).2 := by
  unfold HTWorker.served
  rw [withoutCopies_append, Machine.after_append]
  split
  · rfl
  · exact HTWorker.process_map _ _

variable {w ds d}

theorem Repeatable.append_first (h : Repeatable w ds) (hfirst : d.again = false) : Repeatable w (ds ++ [d]) := by
  intro i request hi hquiet hplain
  rw [delivered_append_map, deliveryAnswers_append]
  simp only
  rcases Nat.lt_or_ge i ds.length with hlt | hge
  · rw [List.getElem?_append_left hlt] at hi
    obtain ⟨hsame, reply, hreply, hagain⟩ := h i request hi hquiet.dropLast hplain
    -- the new request does not touch this one's key
    have hkey : ∀ k ∈ (Command.ofRequest request).key,
        ((Command.ofRequest d.request).run (w.delivered ds).store.map).2.lookup k =
          (w.delivered ds).store.map.lookup k := fun k hk =>
      Command.run_spares (hquiet.last hlt hfirst k hk) _
    obtain ⟨hrun, hleft⟩ := Command.run_elsewhere hkey
    refine ⟨hleft hsame, reply, ?_, hrun ▸ hagain⟩
    rw [List.getElem?_append_left ((length_deliveryAnswers w ds).symm ▸ hlt), hreply]
  · have hlast : i = ds.length := by
      have hlt := (List.getElem?_eq_some_iff.1 hi).1
      rw [List.length_append, List.length_singleton] at hlt
      omega
    subst hlast
    rw [List.getElem?_concat_length] at hi
    obtain rfl : d = ⟨request, false⟩ := Option.some.inj hi
    refine ⟨((Command.ofRequest request).run_again_iff _).2 hplain, _, ?_, Command.answers_again hplain _⟩
    rw [← length_deliveryAnswers w ds, List.getElem?_concat_length]

/-- A copy finds what its first one left, and leaves it. -/
theorem Repeatable.copy (h : Repeatable w ds) (hcopies : CopiesFollow (ds ++ [d])) (hagain : d.again = true)
    (hplain : ¬(Command.ofRequest d.request).IsAppend) :
    (w.delivered (ds ++ [d])).store.map = (w.delivered ds).store.map ∧
      ∃ i < ds.length, ds[i]? = some ⟨d.request, false⟩ ∧ ∃ reply again,
        (w.deliveryAnswers (ds ++ [d]))[i]? = some (reply.toZPack d.request) ∧
        (w.deliveryAnswers (ds ++ [d]))[ds.length]? = some (again.toZPack d.request) ∧
        (Command.ofRequest d.request).AnswersAgain reply again := by
  obtain ⟨i, hi, hfirst, hquiet⟩ := hcopies.last hagain
  obtain ⟨hsame, reply, hreply, hanswers⟩ := h i d.request hfirst hquiet hplain
  refine ⟨by rw [delivered_append_map, hsame], i, hi, hfirst, reply, _, ?_, ?_, hanswers⟩
  · rw [deliveryAnswers_append, List.getElem?_append_left ((length_deliveryAnswers w ds).symm ▸ hi), hreply]
  · rw [deliveryAnswers_append, ← length_deliveryAnswers w ds, List.getElem?_concat_length]

theorem Repeatable.append_copy (h : Repeatable w ds) (hagain : d.again = true)
    (hsame : (w.delivered (ds ++ [d])).store.map = (w.delivered ds).store.map) : Repeatable w (ds ++ [d]) := by
  intro i request hi hquiet hplain
  have hlt : i < ds.length := by
    have hlt := (List.getElem?_eq_some_iff.1 hi).1
    rw [List.length_append, List.length_singleton] at hlt
    rcases Nat.lt_succ_iff_lt_or_eq.1 hlt with hlt | rfl
    · exact hlt
    · rw [List.getElem?_concat_length] at hi
      rw [Option.some.inj hi] at hagain
      cases hagain
  rw [List.getElem?_append_left hlt] at hi
  obtain ⟨hleft, reply, hreply, hanswers⟩ := h i request hi hquiet.dropLast hplain
  rw [hsame]
  refine ⟨hleft, reply, ?_, hanswers⟩
  rw [deliveryAnswers_append, List.getElem?_append_left ((length_deliveryAnswers w ds).symm ▸ hlt), hreply]

variable (w ds d) in
theorem firstAnswers_append : firstAnswers w (ds ++ [d]) = firstAnswers w ds ++
    if d.again then [] else [((Command.ofRequest d.request).run (w.delivered ds).store.map).1.toZPack d.request] := by
  unfold firstAnswers
  rw [deliveryAnswers_append, List.zip_append (length_deliveryAnswers w ds).symm, List.filter_append, List.map_append]
  cases h : d.again <;> simp [h]

end Step

/-! ## Every run -/

/-- Without a copy of an APPEND a run is as if there were no copies. -/
structure Unnoticed (w : HTWorker) (ds : List Delivery) : Prop where
  table : (w.delivered ds).store.map = (w.served ds).store.map
  answers : firstAnswers w ds = Machine.outputs HTWorker.process w (withoutCopies ds)
  copies : ∀ (j : Nat) (d : Delivery), ds[j]? = some d → d.again = true →
    ∃ i < j, ds[i]? = some ⟨d.request, false⟩ ∧ ∃ reply again : Reply,
      (w.deliveryAnswers ds)[i]? = some (reply.toZPack d.request) ∧
      (w.deliveryAnswers ds)[j]? = some (again.toZPack d.request) ∧
      (Command.ofRequest d.request).AnswersAgain reply again

theorem Unnoticed.run (w : HTWorker) {ds : List Delivery} (hcopies : CopiesFollow ds)
    (hplain : ∀ d ∈ ds, d.again = true → ¬(Command.ofRequest d.request).IsAppend) :
    Unnoticed w ds ∧ Repeatable w ds := by
  induction ds using List.reverseRecOn with
  | nil =>
    refine ⟨⟨rfl, rfl, fun j d hj => ?_⟩, fun i request hi => ?_⟩
    · cases hj
    · cases hi
  | append_singleton ds d ih =>
    obtain ⟨⟨htable, hfirsts, hanswers⟩, hsettled⟩ :=
      ih hcopies.dropLast fun e he => hplain e (List.mem_append_left _ he)
    -- the answers up to here stay as they are
    have hearlier : ∀ j e, (ds ++ [d])[j]? = some e → j < ds.length → e.again = true →
        ∃ i < j, (ds ++ [d])[i]? = some ⟨e.request, false⟩ ∧ ∃ reply again,
          (w.deliveryAnswers (ds ++ [d]))[i]? = some (reply.toZPack e.request) ∧
          (w.deliveryAnswers (ds ++ [d]))[j]? = some (again.toZPack e.request) ∧
          (Command.ofRequest e.request).AnswersAgain reply again := by
      intro j e hj hlt hagain
      rw [List.getElem?_append_left hlt] at hj
      obtain ⟨i, hi, hfirst, reply, again, hreply, hcopy, hboth⟩ := hanswers j e hj hagain
      refine ⟨i, hi, ?_, reply, again, ?_, ?_, hboth⟩
      · rw [List.getElem?_append_left (hi.trans hlt), hfirst]
      · rw [deliveryAnswers_append,
          List.getElem?_append_left ((length_deliveryAnswers w ds).symm ▸ hi.trans hlt), hreply]
      · rw [deliveryAnswers_append, List.getElem?_append_left ((length_deliveryAnswers w ds).symm ▸ hlt), hcopy]
    have hlast : ∀ j e, (ds ++ [d])[j]? = some e → ¬j < ds.length → j = ds.length ∧ e = d := by
      intro j e hj hge
      have hlt := (List.getElem?_eq_some_iff.1 hj).1
      rw [List.length_append, List.length_singleton] at hlt
      obtain rfl : j = ds.length := by omega
      rw [List.getElem?_concat_length] at hj
      exact ⟨rfl, (Option.some.inj hj).symm⟩
    cases hagain : d.again with
    | false =>
      refine ⟨⟨?_, ?_, fun j e hj he => ?_⟩, hsettled.append_first hagain⟩
      · rw [delivered_append_map, served_append_map, hagain, htable]
        rfl
      · rw [firstAnswers_append, withoutCopies_append, hagain, Machine.outputs_append, ← hfirsts, htable]
        exact congrArg (fun a => _ ++ [a]) (HTWorker.process_answer _ _).symm
      · by_cases hlt : j < ds.length
        · exact hearlier j e hj hlt he
        · obtain ⟨-, rfl⟩ := hlast j e hj hlt
          rw [hagain] at he
          cases he
    | true =>
      obtain ⟨hsame, i, hi, hfirst, hcopy⟩ := hsettled.copy hcopies hagain
        (hplain d (List.mem_append_right _ List.mem_cons_self) hagain)
      refine ⟨⟨?_, ?_, fun j e hj he => ?_⟩, hsettled.append_copy hagain hsame⟩
      · rw [hsame, served_append_map, hagain, htable]
        rfl
      · rw [firstAnswers_append, withoutCopies_append, hagain, hfirsts]
        simp
      · by_cases hlt : j < ds.length
        · exact hearlier j e hj hlt he
        · obtain ⟨rfl, rfl⟩ := hlast j e hj hlt
          refine ⟨i, hi, ?_, hcopy⟩
          rw [List.getElem?_append_left hi, hfirst]

/-- Every run in which each copy of a request comes before another write to its key: the table is at every
point as it is without the copies exactly if no APPEND is among them. In that case every first one is
answered as it is without them, and every copy as the first one of it, but for a copy of a REMOVE that was
answered `000`, which is answered `-92`. -/
theorem copies_harmless (w : HTWorker) {ds : List Delivery} (hcopies : CopiesFollow ds) :
    ((∀ done, done <+: ds → (w.delivered done).store.map = (w.served done).store.map) ↔
      ∀ d ∈ ds, d.again = true → ¬(Command.ofRequest d.request).IsAppend) ∧
    ((∀ d ∈ ds, d.again = true → ¬(Command.ofRequest d.request).IsAppend) → Unnoticed w ds) := by
  refine ⟨⟨fun htables d hd hagain happend => ?_, fun hplain done hdone => ?_⟩, fun hplain =>
    (Unnoticed.run w hcopies hplain).1⟩
  -- behind the copy the table is no longer what it was before it
  · obtain ⟨before, after, rfl⟩ := List.append_of_mem hd
    have hbefore := htables before (List.prefix_append _ _)
    have hafter := htables (before ++ [d]) ⟨after, by rw [List.append_assoc]; rfl⟩
    rw [delivered_append_map, served_append_map, hagain, if_pos rfl, ← hbefore, Command.run_eq_self_iff] at hafter
    cases hcommand : Command.ofRequest d.request with
    | append key value =>
      rw [hcommand] at hafter
      exact hafter
    | emptyKey | lookup | insert | remove | compareSwap | stateChangeCallback | unrecognized =>
      rw [hcommand] at happend
      exact happend
  · obtain ⟨rest, rfl⟩ := hdone
    have hprefix : CopiesFollow done := by
      clear hplain
      induction rest using List.reverseRecOn with
      | nil => rwa [List.append_nil] at hcopies
      | append_singleton rest d ih => exact ih (by rw [← List.append_assoc] at hcopies; exact hcopies.dropLast)
    exact (Unnoticed.run w hprefix fun d hd => hplain d (List.mem_append_left _ hd)).1.table

/-- A REMOVE that is processed again behind another client's INSERT. -/
def removedTwice : List Delivery :=
  [⟨{ opcode := utf8Bytes OPC_REMOVE, key := utf8Bytes "k" }, false⟩,
    ⟨{ opcode := utf8Bytes OPC_INSERT, key := utf8Bytes "x", val := utf8Bytes "1" }, false⟩,
    ⟨{ opcode := utf8Bytes OPC_REMOVE, key := utf8Bytes "k" }, true⟩]

def workerOfK : HTWorker := HTWorker.new { NoVoHT.new with map := (∅ : Table).insert "k" "v" }

theorem copies_harmless_remove :
    (workerOfK.delivered removedTwice).store.map = (workerOfK.served removedTwice).store.map ∧
      (workerOfK.deliveryAnswers removedTwice).map ZPack.lease =
        [utf8Bytes REC_SUCC, utf8Bytes REC_SUCC, utf8Bytes REC_NONEXISTKEY] := by
  have hcopies : CopiesFollow removedTwice := by
    intro j d hj hagain
    match j, hj with
    | 0, hj | 1, hj =>
      obtain rfl := Option.some.inj hj
      cases hagain
    | 2, hj =>
      obtain rfl := Option.some.inj hj
      refine ⟨0, by decide, rfl, fun i e hi he hfirst k hk => ?_⟩
      match i, he with
      | 1, he =>
        obtain rfl := Option.some.inj he
        rw [command_insert (by decide)]
        rw [command_remove (by decide)] at hk
        obtain rfl := Option.some.inj hk
        exact (by decide : "x" ≠ "k")
  have hplain : ∀ d ∈ removedTwice, d.again = true → ¬(Command.ofRequest d.request).IsAppend := by
    have hremove : ¬(Command.ofRequest { opcode := utf8Bytes OPC_REMOVE, key := utf8Bytes "k" }).IsAppend := by
      rw [command_remove (by decide)]
      exact id
    intro d hd hagain
    rcases List.mem_cons.1 hd with rfl | hd
    · exact hremove
    rcases List.mem_cons.1 hd with rfl | hd
    · cases hagain
    · obtain rfl := List.mem_singleton.1 hd
      exact hremove
  exact ⟨((copies_harmless workerOfK hcopies).1.2 hplain) removedTwice (List.prefix_refl _), by decide +kernel⟩

end Zht
