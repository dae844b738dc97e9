/-
How often a request is processed. A frame has one first byte, which is written once, on one
connection, and read once; so each attempt of a call is processed at most once, whatever breaks and
whenever. A call makes another attempt only after an error that counts as a broken connection, and
at most `MAX_RECONNECT_ATTEMPTS` of them: `processed_once_per_attempt`. The server may well have
processed the attempt whose answer was lost, and then it processes the request twice.
-/
import Mathlib.Data.List.Nodup
import Mathlib.Data.List.Perm.Subperm
import Zht.Client.Client
import Zht.Transport.TcpProxy
import Zht.Transport.Worker

namespace Zht

open Lib Lib.Stream

namespace TcpWorld

variable {ζ : Type}

/-! ## Where a frame is -/

/-- How many first bytes of a frame wait on a connection. -/
def waiting (w : TcpWorld ζ) (f : Attempt) (k : Nat) : Nat := firsts f (w.conns k).toServer

/-- How often a frame has been processed. -/
def processed (w : TcpWorld ζ) (f : Attempt) : Nat := w.served.countP fun s => s.origin = some f

/-- The attempt is one the call may make: the first, or a further one after a broken connection. -/
structure Justified (w : TcpWorld ζ) (f : Attempt) : Prop where
  bound : f.number ≤ MAX_RECONNECT_ATTEMPTS
  broken : 0 < f.number → ∃ e, (f.call, e) ∈ w.resent ∧ isConnectionBrokenError e = true

/-- The first byte of the frame is still to be written by the call, now or in a later attempt. -/
def Ahead (f : Attempt) (call : Call) : Prop :=
  call.id = f.call ∧ (call.attempts < f.number ∨ (call.attempts = f.number ∧
    match call.phase with
    | .connecting => True
    | .sending _ left => firsts f left ≠ 0
    | .receiving _ _ => False))

/-- No byte of the frame has been written: its call has not come, may not make the attempt, or has
not got there. -/
def Unsent (w : TcpWorld ζ) (f : Attempt) : Prop :=
  w.calls ≤ f.call ∨ ¬w.Justified f ∨ ∃ call, w.active = some call ∧ Ahead f call

/-- The invariant of a frame: its first byte is on one connection, or was processed from there. -/
structure Once (f : Attempt) (w : TcpWorld ζ) : Prop where
  placed : ∃ k, (∀ j, j ≠ k → w.waiting f j = 0) ∧ w.waiting f k + w.processed f ≤ 1
  unsent : w.Unsent f → w.processed f = 0 ∧ ∀ j, w.waiting f j = 0

/-- The invariant of the active call: it is one of the calls so far, makes an attempt it may make, and
what it has left to write is the end of its frame. -/
structure Underway (c : Codec) (w : TcpWorld ζ) (call : Call) : Prop where
  known : call.id < w.calls
  justified : w.Justified call.attempt
  rest : ∀ k left, call.phase = .sending k left → ∃ out, out ++ left = frameOf c call

variable {c : Codec} {process : ζ → ZPack → ZPack × ζ} {w w' : TcpWorld ζ} {call : Call} {f : Attempt}

theorem Justified.mono (h : w.Justified f) (hresent : ∀ x ∈ w.resent, x ∈ w'.resent) : w'.Justified f :=
  ⟨h.bound, fun hn => (h.broken hn).imp fun _ he => ⟨hresent _ he.1, he.2⟩⟩

/-- A step that takes first bytes off connections, and records them as processed from one connection
at most. -/
theorem Once.moves (h : Once f w) (k : Nat) (hwaiting : ∀ j, j ≠ k → w'.waiting f j ≤ w.waiting f j)
    (hmove : w'.waiting f k + w'.processed f ≤ w.waiting f k + w.processed f)
    (hprocessed : w.processed f ≤ w'.processed f) (hunsent : w'.Unsent f → w.Unsent f) : Once f w' := by
  -- the frame stays with the connection `k₀` it was placed on
  obtain ⟨⟨k₀, hne, hle⟩, hzero⟩ := h
  constructor
  · refine ⟨k₀, fun j hj => ?_, ?_⟩
    · have h₀ := hne j hj
      by_cases hk : j = k
      · subst hk
        omega
      · have := hwaiting j hk
        omega
    · by_cases hk : k₀ = k
      · subst hk
        omega
      · have h₀ := hne k (Ne.symm hk)
        have := hwaiting k₀ hk
        omega
  · intro hu
    obtain ⟨hp, hw⟩ := hzero (hunsent hu)
    have h₀ := hw k
    refine ⟨by omega, fun j => ?_⟩
    by_cases hk : j = k
    · subst hk
      omega
    · have := hwaiting j hk
      have := hw j
      omega

/-- A step that processes nothing and writes no first byte. -/
theorem Once.mono (h : Once f w) (hwaiting : ∀ j, w'.waiting f j ≤ w.waiting f j) (hserved : w'.served = w.served)
    (hunsent : w'.Unsent f → w.Unsent f) : Once f w' := by
  have hprocessed : w'.processed f = w.processed f := by rw [processed, hserved, processed]
  exact h.moves 0 (fun j _ => hwaiting j) (Nat.add_le_add (hwaiting 0) (Nat.le_of_eq hprocessed))
    (Nat.le_of_eq hprocessed.symm) hunsent

/-- A world that has come further has no more frames to send. -/
theorem unsent_mono (hcalls : w.calls ≤ w'.calls) (hresent : ∀ x ∈ w.resent, x ∈ w'.resent)
    (hactive : ∀ call, w'.active = some call → Ahead f call → w.Unsent f) (h : w'.Unsent f) : w.Unsent f := by
  rcases h with h | h | ⟨call, hcall, h⟩
  · exact .inl (Nat.le_trans hcalls h)
  · exact .inr (.inl fun hj => h (hj.mono hresent))
  · exact hactive call hcall h

theorem waiting_setConn (w : TcpWorld ζ) (k : Nat) (g : Connection → Connection) (f : Attempt) (j : Nat) :
    (w.setConn k g).waiting f j = if j = k then firsts f (g (w.conns k)).toServer else w.waiting f j := by
  unfold waiting
  by_cases h : j = k
  · rw [if_pos h, h, setConn_same]
  · rw [if_neg h, setConn_ne w h]

theorem waiting_setPhase (w : TcpWorld ζ) (call : Call) (phase : Phase) (f : Attempt) (j : Nat) :
    (w.setPhase call phase).waiting f j = w.waiting f j := rfl

/-! ## One lemma for each thing that can happen -/

theorem unsent_of_same (hcalls : w'.calls = w.calls) (hresent : w'.resent = w.resent) (hactive : w'.active = w.active)
    (h : w'.Unsent f) : w.Unsent f :=
  unsent_mono (Nat.le_of_eq hcalls.symm) (fun _ hx => hresent ▸ hx)
    (fun call hcall ha => .inr (.inr ⟨call, hactive ▸ hcall, ha⟩)) h

/-- A change of one connection that adds nothing to what the server has to read. -/
theorem once_setConn (h : Once f w) (k : Nat) {g : Connection → Connection}
    (hg : firsts f (g (w.conns k)).toServer ≤ w.waiting f k) : Once f (w.setConn k g) := by
  refine h.mono (fun j => ?_) rfl (unsent_of_same rfl rfl rfl)
  rw [waiting_setConn]
  split
  · next hj => rw [hj]; exact hg
  · exact Nat.le_refl _

/-- The server takes a frame off a connection and processes it, if it does. -/
theorem once_serve (h : Once f w) (k : Nat) (written : Option Nat) : Once f (w.serve c process k written) := by
  unfold serve
  split
  · exact h
  split
  · exact h
  · next frame rest hsplit =>
    have hparts : firsts f frame + firsts f rest = w.waiting f k := by
      rw [← firsts_append, splitFrame_append hsplit, waiting]
    split
    · exact once_setConn h k (hparts ▸ Nat.le_add_left _ _)
    · next request _ =>
      refine h.moves k (fun j hj => ?_) ?_ ?_ (unsent_of_same rfl rfl rfl)
      · simp only [waiting, setConn_ne w hj]
        exact Nat.le_refl _
      · -- the first byte moves from the connection to the record, if it is in this frame
        simp only [waiting, processed, setConn_same, setConn_served, List.countP_append, List.countP_singleton,
          decide_eq_true_eq]
        rw [waiting] at hparts
        split
        · next ho =>
          have := firsts_pos_of_origin ho
          omega
        · omega
      · simp only [processed, List.countP_append]
        exact Nat.le_add_right _ _

/-- What a call has left to write holds the first byte of one frame at most. -/
theorem Underway.firsts_left_le (hcall : Underway c w call) {k : Nat} {left : Stream Attempt}
    (hphase : call.phase = .sending k left) (f : Attempt) : firsts f left ≤ 1 := by
  obtain ⟨out, hout⟩ := hcall.rest k left hphase
  have hle := firsts_mark_le call.attempt f (encodeMessage c call.request)
  have hsum : firsts f out + firsts f left ≤ 1 := by rwa [← firsts_append, hout]
  omega

/-- That frame is the one of the attempt under way. -/
theorem Underway.attempt_of_firsts (hcall : Underway c w call) {k : Nat} {left : Stream Attempt}
    (hphase : call.phase = .sending k left) (hne : firsts f left ≠ 0) : f = call.attempt := by
  obtain ⟨out, hout⟩ := hcall.rest k left hphase
  by_contra hf
  refine hne (firsts_eq_zero.2 fun t ht htf => absurd ?_ hf)
  rw [← htf]
  exact frame_of_mem_mark (hout ▸ List.mem_append_right out ht)

/-- A write adds what it writes to the connection it writes to, if to any. -/
theorem waiting_write_le (w : TcpWorld ζ) (call : Call) (k : Nat) (left : Stream Attempt) (n : Nat) (f : Attempt)
    (j : Nat) : (w.write call k left n).waiting f j ≤ w.waiting f j + if j = k then firsts f (left.take n) else 0 := by
  rw [write, waiting_setPhase, waiting_setConn]
  split
  · next hj =>
    subst hj
    split
    · exact Nat.le_add_right _ _
    · rw [firsts_append]
      exact Nat.le_refl _
  · exact Nat.le_add_right _ _

/-- The active call writes more of its frame. -/
theorem once_write (h : Once f w) (hactive : w.active = some call) (hcall : Underway c w call) {k : Nat}
    {left : Stream Attempt} (hphase : call.phase = .sending k left) (n : Nat) : Once f (w.write call k left n) := by
  have hleft := hcall.firsts_left_le hphase f
  have hframe : firsts f left ≠ 0 → f = call.attempt := hcall.attempt_of_firsts hphase
  have hwaiting := waiting_write_le w call k left n f
  have hparts : firsts f (left.take n) + firsts f (left.drop n) = firsts f left := by
    rw [← firsts_append, List.take_append_drop]
  have hahead : firsts f left ≠ 0 → w.Unsent f := by
    intro hne
    refine .inr (.inr ⟨call, hactive, ?_⟩)
    have hf := hframe hne
    subst hf
    refine ⟨rfl, .inr ⟨rfl, ?_⟩⟩
    rw [hphase]
    exact hne
  by_cases hfirst : firsts f (left.take n) = 0
  · -- no first byte goes out
    refine h.mono (fun j => ?_) rfl (unsent_mono (Nat.le_refl _) (fun _ hx => hx) fun call' hcall' ha => ?_)
    · have := hwaiting j
      rw [hfirst, ite_self, Nat.add_zero] at this
      exact this
    · cases hcall'
      rcases ha with ⟨hid, hlt | ⟨heq, hne⟩⟩
      · exact .inr (.inr ⟨call, hactive, hid, .inl hlt⟩)
      · refine hahead ?_
        simp only at hne
        omega
  · -- the first byte of the frame goes out, to this connection
    obtain ⟨hp, hw⟩ := h.unsent (hahead (by omega))
    constructor
    · refine ⟨k, fun j hj => ?_, ?_⟩
      · have hj' := hwaiting j
        rw [if_neg hj, hw j] at hj'
        exact Nat.le_zero.1 hj'
      · have hk := hwaiting k
        rw [if_pos rfl, hw k] at hk
        have hp' : (w.write call k left n).processed f = 0 := hp
        omega
    · intro hu
      have hf := hframe (by omega)
      rcases hu with hu | hu | ⟨call', hcall', ha⟩
      · rw [hf] at hu
        exact absurd hcall.known (Nat.not_lt.2 hu)
      · rw [hf] at hu
        exact (hu (hcall.justified.mono fun _ hx => hx)).elim
      · cases hcall'
        rcases ha with ⟨-, hlt | ⟨-, hne⟩⟩
        · rw [hf] at hlt
          exact absurd hlt (Nat.lt_irrefl _)
        · simp only at hne
          omega

/-! ## Steps -/

/-- The invariant. -/
structure Inv (c : Codec) (w : TcpWorld ζ) : Prop where
  once : ∀ f, Once f w
  active : ∀ call, w.active = some call → Underway c w call

/-- A step of the active call that writes nothing and leaves it no more ahead than before. -/
theorem Inv.advance (h : Inv c w) (hactive : w.active = some call) (hwaiting : ∀ f j, w'.waiting f j ≤ w.waiting f j)
    (hserved : w'.served = w.served) (hcalls : w'.calls = w.calls) (hresent : ∀ x ∈ w.resent, x ∈ w'.resent)
    (hnext : ∀ call', w'.active = some call' → Underway c w' call' ∧ ∀ f, Ahead f call' → Ahead f call) :
    Inv c w' := by
  refine ⟨fun f => ?_, fun call' hcall' => (hnext call' hcall').1⟩
  refine (h.once f).mono (hwaiting f) hserved
    (unsent_mono (Nat.le_of_eq hcalls.symm) hresent fun call' hcall' ha => ?_)
  exact .inr (.inr ⟨call, hactive, (hnext call' hcall').2 f ha⟩)

/-- The active call returns. -/
theorem Inv.finish (h : Inv c w) (hactive : w.active = some call) (hwaiting : ∀ f j, w'.waiting f j ≤ w.waiting f j)
    (hserved : w'.served = w.served) (hcalls : w'.calls = w.calls) (hresent : w'.resent = w.resent)
    (hidle : w'.active = none) : Inv c w' :=
  h.advance hactive hwaiting hserved hcalls (fun _ hx => hresent ▸ hx) fun call' hcall' => by
    rw [hidle] at hcall'; cases hcall'

/-- The active call goes on in another phase. -/
theorem Inv.phase (h : Inv c w) (hactive : w.active = some call) {phase : Phase}
    (hwaiting : ∀ f j, w'.waiting f j ≤ w.waiting f j) (hserved : w'.served = w.served) (hcalls : w'.calls = w.calls)
    (hresent : w'.resent = w.resent) (hphase : w'.active = some { call with phase })
    (hrest : ∀ k left, phase = .sending k left → ∃ out, out ++ left = frameOf c call)
    (hahead : ∀ f, Ahead f { call with phase } → Ahead f call) : Inv c w' := by
  refine h.advance hactive hwaiting hserved hcalls (fun _ hx => hresent ▸ hx) fun call' hcall' => ?_
  rw [hphase] at hcall'
  cases hcall'
  have hcall := h.active call hactive
  exact ⟨⟨hcalls ▸ hcall.known, hcall.justified.mono fun _ hx => hresent ▸ hx, hrest⟩, hahead⟩

/-- What happens on the connections leaves the active call as it is. -/
theorem Inv.conns (h : Inv c w) (honce : ∀ f, Once f w') (hactive : w'.active = w.active) (hcalls : w'.calls = w.calls)
    (hresent : w'.resent = w.resent) : Inv c w' := by
  refine ⟨honce, fun call hcall => ?_⟩
  obtain ⟨hknown, hjustified, hrest⟩ := h.active call (hactive ▸ hcall)
  exact ⟨hcalls ▸ hknown, hjustified.mono fun _ hx => hresent ▸ hx, hrest⟩

theorem Inv.setConn (h : Inv c w) (k : Nat) {g : Connection → Connection}
    (hg : ∀ f, firsts f (g (w.conns k)).toServer ≤ w.waiting f k) : Inv c (w.setConn k g) :=
  h.conns (fun f => once_setConn (h.once f) k (hg f)) rfl rfl rfl

theorem inv_fail (h : Inv c w) (hactive : w.active = some call) (e : ZhtError) : Inv c (w.fail c call e).2 := by
  rcases fail_cases c w call e with ⟨pool, hf⟩ | ⟨hbroken, hle, pool, hf⟩
  · rw [hf]
    exact h.finish hactive (fun _ _ => Nat.le_refl _) rfl rfl rfl rfl
  · obtain ⟨phase, hbegin, hrest⟩ := beginAttempt_eq c
      { w with pool, resent := w.resent ++ [(call.id, e)] } { call with attempts := call.attempts + 1 }
    rw [hf, hbegin]
    refine h.advance hactive (fun _ _ => Nat.le_refl _) rfl rfl (fun _ hx => List.mem_append_left _ hx) ?_
    rintro call' ⟨⟩
    refine ⟨⟨(h.active call hactive).known, ⟨hle, fun _ => ⟨e, ?_, hbroken⟩⟩, hrest⟩, fun f ha => ?_⟩
    · exact List.mem_append_right _ (List.mem_singleton_self _)
    -- what the next attempt has ahead, this one had ahead as a later attempt
    · exact ⟨ha.1, .inl (ha.2.elim (fun h => Nat.lt_of_succ_lt h) fun h => h.1 ▸ Nat.lt_succ_self _)⟩

theorem inv_connect (h : Inv c w) (hactive : w.active = some call) (hphase : call.phase = .connecting)
    (result : Except String Unit) : Inv c (w.connect c call result).2 := by
  cases result with
  | error reason => exact h.finish hactive (fun _ _ => Nat.le_refl _) rfl rfl rfl rfl
  | ok u =>
    have hactive' : (w.connect c call (.ok u)).2.active =
        some { call with phase := .sending w.opened (frameOf c call) } := rfl
    refine h.phase hactive (fun f j => ?_) rfl rfl rfl hactive' ?_ fun f ha => ?_
    · rw [connect, waiting_setPhase]
      simp only [waiting]
      by_cases hj : j = w.opened
      · rw [hj, setConn_same]
        exact Nat.zero_le _
      · rw [setConn_ne w hj]
    · rintro k left ⟨⟩
      exact ⟨[], rfl⟩
    · refine ⟨ha.1, ha.2.imp id fun ha => ⟨ha.1, ?_⟩⟩
      rw [hphase]
      trivial

/-- A step into or within the reading of the answer. -/
theorem inv_receiving (h : Inv c w) (hactive : w.active = some call) {k : Nat} {got : Stream Nat}
    (hwaiting : ∀ f j, w'.waiting f j ≤ w.waiting f j) (hserved : w'.served = w.served) (hcalls : w'.calls = w.calls)
    (hresent : w'.resent = w.resent) (hphase : w'.active = some { call with phase := .receiving k got }) : Inv c w' :=
  h.phase hactive hwaiting hserved hcalls hresent hphase (fun _ _ => Phase.noConfusion)
    fun _ ha => ⟨ha.1, .inl (ha.2.resolve_right fun h => h.2)⟩

theorem inv_flush (h : Inv c w) (hactive : w.active = some call) (k : Nat) : Inv c (w.flush c call k).2 := by
  unfold flush
  split
  · exact inv_receiving h hactive (fun _ _ => Nat.le_refl _) rfl rfl rfl rfl
  · exact h.finish hactive (fun _ _ => Nat.le_refl _) rfl rfl rfl rfl

theorem inv_read (h : Inv c w) (hactive : w.active = some call) (k : Nat) (got : Stream Nat) (n : Nat) :
    Inv c (w.read c call k got n).2 := by
  have hwaiting : ∀ m f j, (w.setConn k fun conn => { conn with toClient := conn.toClient.drop m }).waiting f j ≤
      w.waiting f j := by
    intro m f j
    rw [waiting_setConn]
    split
    · next hj => rw [hj]; exact Nat.le_refl _
    · exact Nat.le_refl _
  unfold read
  simp only
  split
  · split
    · exact h.finish hactive (hwaiting _) rfl rfl rfl rfl
    · refine inv_fail (Inv.setConn h k fun f => ?_) hactive _
      exact Nat.le_refl _
  · exact inv_receiving h hactive (hwaiting _) rfl rfl rfl rfl

theorem inv_start (h : Inv c w) (kind : CallKind) (host : String) (port : UInt16) (request : ZPack) :
    Inv c (w.start c kind host port request) := by
  unfold start
  obtain ⟨phase, hbegin, hrest⟩ := beginAttempt_eq c { w with calls := w.calls + 1 }
    { id := w.calls, kind, host, port, request, attempts := 0, phase := .connecting }
  simp only
  rw [hbegin]
  constructor
  · intro f
    refine (h.once f).mono (fun _ => Nat.le_refl _) rfl
      (unsent_mono (Nat.le_succ _) (fun _ hx => hx) fun call' hcall' ha => ?_)
    cases hcall'
    exact .inl (Nat.le_of_eq ha.1)
  · rintro call' ⟨⟩
    exact ⟨Nat.lt_succ_self _, ⟨Nat.zero_le _, fun h => absurd h (Nat.lt_irrefl _)⟩, hrest⟩

theorem inv_write (h : Inv c w) (hactive : w.active = some call) {k : Nat} {left : Stream Attempt}
    (hphase : call.phase = .sending k left) (n : Nat) : Inv c (w.write call k left n) := by
  have hcall := h.active call hactive
  refine ⟨fun f => once_write (h.once f) hactive hcall hphase n, ?_⟩
  rintro call' ⟨⟩
  refine ⟨hcall.known, hcall.justified.mono fun _ hx => hx, ?_⟩
  rintro k' left' ⟨⟩
  obtain ⟨out, hout⟩ := hcall.rest k left hphase
  exact ⟨out ++ left.take n, by rw [List.append_assoc, List.take_append_drop, hout]; rfl⟩

theorem step_inv (h : Inv c w) (a : Action) : Inv c (w.step c process a).2 := by
  have hstep := does_step c process w a
  generalize w.step c process a = r at hstep ⊢
  cases hstep with
  | nothing => exact h
  | start kind host port request => exact inv_start h kind host port request
  | connect call active phase result => exact inv_connect h active phase result
  | write call active k left phase n => exact inv_write h active phase n
  | flush call active k => exact inv_flush h active k
  | read call active k got phase n => exact inv_read h active k got n
  | fail a call active e => exact inv_fail h active e
  | cancel call active e => exact h.finish active (fun _ _ => Nat.le_refl _) rfl rfl rfl rfl
  | serve k written =>
    obtain ⟨hactive, hcalls, hresent⟩ := serve_calls c process w k written
    exact h.conns (fun f => once_serve (h.once f) k written) hactive hcalls hresent
  | hangUp k =>
    show Inv c (w.setConn k fun conn => { conn with serving := false })
    exact h.setConn k fun f => Nat.le_refl _
  | lose k m n =>
    show Inv c (w.setConn k fun conn =>
      { conn with toServer := conn.toServer.take m, toClient := conn.toClient.take n, broken := true })
    exact h.setConn k fun f => firsts_take_le _ _ _

/-! ## Runs -/

theorem new_inv (c : Codec) (server : ζ) : Inv c (new server) := by
  refine ⟨fun f => ⟨⟨0, fun _ _ => rfl, Nat.zero_le 1⟩, fun _ => ⟨rfl, fun _ => rfl⟩⟩, fun call hcall => ?_⟩
  cases hcall

theorem after_inv (c : Codec) (process : ζ → ZPack → ZPack × ζ) (server : ζ) (actions : List Action) :
    Inv c (Machine.after (step c process) (new server) actions) :=
  Machine.after_of_step (I := Inv c) (fun _ a h => step_inv h a) (new_inv c server) actions

/-- The attempts of a call that have been processed, in the order they were. -/
def attemptsServed (w : TcpWorld ζ) (call : Nat) : List Nat :=
  w.served.filterMap fun s => s.origin.bind fun f => if f.call = call then some f.number else none

theorem count_attemptsServed (w : TcpWorld ζ) (call number : Nat) :
    (w.attemptsServed call).count number = w.processed ⟨call, number⟩ := by
  rw [attemptsServed, List.count_filterMap, processed]
  congr 1
  funext s
  cases s.origin with
  | none => rfl
  | some f =>
    obtain ⟨call', number'⟩ := f
    by_cases h : call' = call <;> simp [h, beq_eq_decide]

theorem Once.processed_le (h : Once f w) : w.processed f ≤ 1 := by
  obtain ⟨⟨k, -, hle⟩, -⟩ := h
  omega

/-- What has been processed was an attempt its call was entitled to. -/
theorem Once.justified (h : Once f w) (hne : w.processed f ≠ 0) : w.Justified f := by
  by_contra hj
  exact hne (h.unsent (.inr (.inl hj))).1

/-- The attempts of a call that are processed are distinct, and more than one of them only after a
broken connection. -/
theorem Inv.attemptsServed (h : Inv c w) (call : Nat) :
    (w.attemptsServed call).Nodup ∧ (w.attemptsServed call).length ≤ MAX_RECONNECT_ATTEMPTS + 1 ∧
      (1 < (w.attemptsServed call).length → ∃ e, (call, e) ∈ w.resent ∧ isConnectionBrokenError e = true) := by
  have hnodup : (w.attemptsServed call).Nodup := List.nodup_iff_count_le_one.2 fun number => by
    rw [count_attemptsServed]
    exact (h.once _).processed_le
  have hjustified : ∀ number ∈ w.attemptsServed call, w.Justified ⟨call, number⟩ := fun number hn =>
    (h.once _).justified (by rw [← count_attemptsServed]; exact Nat.ne_of_gt (List.count_pos_iff.2 hn))
  refine ⟨hnodup, ?_, fun hlen => ?_⟩
  · have hsub : w.attemptsServed call ⊆ List.range (MAX_RECONNECT_ATTEMPTS + 1) := fun number hn =>
      List.mem_range.2 (Nat.lt_succ_of_le (hjustified number hn).bound)
    simpa using (hnodup.subperm hsub).length_le
  · by_contra hno
    -- only the first attempt is justified, and it is processed once
    have hsub : w.attemptsServed call ⊆ [0] := fun number hn =>
      List.mem_singleton.2 (Nat.eq_zero_of_not_pos fun hpos => hno ((hjustified number hn).broken hpos))
    exact absurd (hnodup.subperm hsub).length_le (Nat.not_le.2 hlen)

/-- The server's state is that of processing the recorded requests, one after the other. -/
def ServedBy (process : ζ → ZPack → ZPack × ζ) (server : ζ) (w : TcpWorld ζ) : Prop :=
  w.server = Machine.after process server (w.served.map Served.request)

theorem ServedBy.of_same {server : ζ} (h : ServedBy process server w) (hsame : SameServer w w') :
    ServedBy process server w' := by
  rw [ServedBy, hsame.1, hsame.2]
  exact h

theorem step_servedBy {server : ζ} (h : ServedBy process server w) (a : Action) :
    ServedBy process server (w.step c process a).2 := by
  have hstep := does_step c process w a
  generalize w.step c process a = r at hstep ⊢
  cases hstep with
  | nothing => exact h
  | start kind host port request => exact h.of_same (sameServer_start w kind host port request)
  | connect call => exact h.of_same (sameServer_connect w call _)
  | flush call => exact h.of_same (sameServer_flush w call _)
  | read call => exact h.of_same (sameServer_read w call _ _ _)
  | fail a call => exact h.of_same (sameServer_fail w call _)
  | write | cancel | hangUp | lose => exact h.of_same ⟨rfl, rfl⟩
  | serve k written =>
    simp only
    unfold serve
    split
    · exact h
    split
    · exact h
    split
    · exact h.of_same ⟨rfl, rfl⟩
    · simp only [ServedBy, setConn_served, List.map_append, Machine.after_append]
      rw [← h]
      rfl

theorem after_servedBy (c : Codec) (process : ζ → ZPack → ZPack × ζ) (server : ζ) (actions : List Action) :
    ServedBy process server (Machine.after (step c process) (new server) actions) := by
  have hnew : ServedBy process server (new server) := rfl
  exact Machine.after_of_step (I := ServedBy process server) (fun _ a h => step_servedBy h a) hnew actions

/-! ## The client's APPEND -/

/-- A transport that records the calls it gets, and gives each the same result. -/
def recording (result : ZhtResult ZPack) : Transport (List Action) := fun host port request calls =>
  (result, calls ++ [.start .sendrecv host port request])

/-- An operation of the client is one call of its transport at most. -/
theorem call_recording (client : ZHTClient) {α : Type} (result : ZhtResult ZPack) (key : String) (request : ZPack)
    (interpret : ZPack → ClientResult α) :
    (client.call (recording result) key request interpret []).2 = [] ∨
      ∃ host port,
        (client.call (recording result) key request interpret []).2 = [.start .sendrecv host port request] := by
  unfold ZHTClient.call
  split
  · exact .inl rfl
  split
  · exact .inl rfl
  split
  · exact .inl rfl
  · next node _ => cases result <;> exact .inr ⟨node.host, node.port, rfl⟩

/-- Along every run each attempt of a call is processed at most once; a call makes at most
`MAX_RECONNECT_ATTEMPTS + 1` of them, and more than one is processed only of a call that has met a
broken connection. The server's state is that of processing what is recorded, and an APPEND of the
client is at most one call, so its segment is added at most that often. -/
theorem processed_once_per_attempt (c : Codec) (process : ζ → ZPack → ZPack × ζ) (server : ζ) (actions : List Action)
    (call : Nat) (client : ZHTClient) (key value : String) (result : ZhtResult ZPack) :
    let w := Machine.after (step c process) (new server) actions
    (w.attemptsServed call).Nodup ∧ (w.attemptsServed call).length ≤ MAX_RECONNECT_ATTEMPTS + 1 ∧
      (1 < (w.attemptsServed call).length → ∃ e, (call, e) ∈ w.resent ∧ isConnectionBrokenError e = true) ∧
      w.server = Machine.after process server (w.served.map Served.request) ∧
      (client.append (recording result) key value []).2.length ≤ 1 := by
  obtain ⟨hnodup, hlen, hbroken⟩ := (after_inv c process server actions).attemptsServed call
  refine ⟨hnodup, hlen, hbroken, after_servedBy c process server actions, ?_⟩
  unfold ZHTClient.append
  rcases call_recording client result key
    { opcode := Lib.Utf8.utf8Bytes OPC_APPEND, key := Lib.Utf8.utf8Bytes key, val := Lib.Utf8.utf8Bytes value }
    ZHTClient.appendResult with h | ⟨host, port, h⟩
  · rw [h]
    exact Nat.zero_le 1
  · rw [h]
    exact Nat.le_refl 1

/-- An APPEND whose answer is lost when the connection is reset: it is processed twice, and the
segment is added twice. -/
theorem append_processed_twice :
    let client : ZHTClient := { config := ⟨⟨[⟨"s", 50000⟩]⟩⟩, initialized := true }
    let run := (client.append (recording (.ok {})) "k" "v" []).2 ++
      [.connect (.ok ()), .write 100, .flush, .serve 0 none, .recvFails "Connection reset by peer (os error 104)",
        .connect (.ok ()), .write 100, .flush, .serve 1 none, .read 4, .read 100]
    let w := Machine.after (step .protobuf HTWorker.process) (new (HTWorker.new NoVoHT.new)) run
    w.attemptsServed 0 = [0, 1] ∧ w.server.store.map.lookup "k" = some "v:v" := by
  decide +kernel

end TcpWorld

end Zht
