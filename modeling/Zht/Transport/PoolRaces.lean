/-
Calls of the pool at the same time. A call that has ensured its connection lets go of the lock before it
looks the connection up and unwraps what it finds; whatever removes the entry in between makes it panic.
So calls are free of panics for as long as no section removes an entry that another call is about to look
up (`races_iff`).
-/
import Mathlib.Logic.Function.Basic
import Zht.Lib.Machine
import Zht.Transport.TcpPool

namespace Zht.Tcp

open Lib

/-! ## Interleavings -/

/-- The pool, and where the calls stand that share it. -/
structure Pool where
  proxy : TcpProxy
  tasks : Nat → Task

def Pool.new (proxy : TcpProxy) : Pool := { proxy, tasks := fun _ => .idle }

inductive Action
  | call (id : Nat) (call : Call)
  | run (id : Nat) (o : Outcomes)

/-- A call is made, or one of those under way takes the lock and runs its next section. -/
def Pool.step (c : Codec) (s : Pool) : Action → Task × Pool
  | .call id call =>
    if s.tasks id = .idle then (.started call, { s with tasks := Function.update s.tasks id (.started call) })
    else (s.tasks id, s)
  | .run id o =>
    let (task, proxy) := (s.tasks id).run c s.proxy o
    (task, { proxy, tasks := Function.update s.tasks id task })

/-- The address a call has ensured and looks up next. -/
def Task.looksUp : Task → Option String
  | exchanging host port _ | writing host port _ => some (HostEntity.address ⟨host, port⟩)
  | _ => none

/-- The next section of the call removes the entry of an address. -/
def Task.removes (key : String) : Task → Prop
  | started (.closeConnection host port) | removing host port _ => key = HostEntity.address ⟨host, port⟩
  | clearing _ => True
  | _ => False

/-- The connection that a call looks up next is there, and the call has not panicked. -/
structure Task.Ready (p : TcpProxy) (t : Task) : Prop where
  present : ∀ key, t.looksUp = some key → key ∈ p.conns
  noPanic : t ≠ .returned .panicked

def Pool.Ready (s : Pool) : Prop := ∀ id, (s.tasks id).Ready s.proxy

/-- The section that runs removes no entry that a call is about to look up. -/
def Pool.Spares (s : Pool) : Action → Prop
  | .call _ _ => True
  | .run id _ => ∀ other key, (s.tasks other).looksUp = some key → ¬(s.tasks id).removes key

/-! ## What a section does to the entries -/

section Sections

variable {c : Codec} {p : TcpProxy} {host : String} {port : UInt16} {request : ZPack} {o : Outcomes} {key : String}

theorem mem_connectInto (h : key ∈ p.conns) : key ∈ (p.connectInto host port o).2.conns := by
  rcases p.connectInto_cases host port o with ⟨-, hc⟩ | ⟨-, e, hc⟩
  · rw [hc]
    exact Finmap.mem_insert.2 (.inr h)
  · rw [hc]
    exact h

theorem mem_connectInto_ok (h : (p.connectInto host port o).1 = .ok ()) :
    HostEntity.address ⟨host, port⟩ ∈ (p.connectInto host port o).2.conns := by
  rcases p.connectInto_cases host port o with ⟨-, hc⟩ | ⟨-, e, hc⟩
  · rw [hc]
    exact Finmap.mem_insert.2 (.inl rfl)
  · rw [hc] at h
    cases h

theorem mem_getOrCreate (h : key ∈ p.conns) : key ∈ (p.getOrCreate host port o).2.conns := by
  unfold TcpProxy.getOrCreate
  cases p.conns.lookup (HostEntity.address ⟨host, port⟩) with
  | none => exact mem_connectInto h
  | some conn =>
    simp only
    split
    · exact mem_connectInto (p := p.count _) h
    · exact h

/-- A connection that has been ensured is there. -/
theorem mem_getOrCreate_ok (h : (p.getOrCreate host port o).1 = .ok ()) :
    HostEntity.address ⟨host, port⟩ ∈ (p.getOrCreate host port o).2.conns := by
  unfold TcpProxy.getOrCreate at h ⊢
  cases hl : p.conns.lookup (HostEntity.address ⟨host, port⟩) with
  | none =>
    rw [hl] at h
    exact mem_connectInto_ok h
  | some conn =>
    rw [hl] at h
    simp only at h ⊢
    split
    · next hstale =>
      rw [if_pos hstale] at h
      exact mem_connectInto_ok h
    · exact Finmap.mem_of_lookup_eq_some hl

theorem mem_removeConn :
    key ∈ (p.removeConn host port).conns ↔ key ≠ HostEntity.address ⟨host, port⟩ ∧ key ∈ p.conns := by
  unfold TcpProxy.removeConn
  cases hl : p.conns.lookup (HostEntity.address ⟨host, port⟩) with
  | none =>
    have hnot : HostEntity.address ⟨host, port⟩ ∉ p.conns := Finmap.lookup_eq_none.1 hl
    simp only [hl]
    constructor
    · intro h
      exact ⟨fun he => hnot (he ▸ h), h⟩
    · exact And.right
  | some conn =>
    simp only [hl]
    exact Finmap.mem_erase

/-- Only the sections that say so remove an entry. -/
theorem Task.mem_run {t : Task} (hkeep : ¬t.removes key) (h : key ∈ p.conns) : key ∈ (t.run c p o).2.conns := by
  cases t with
  | idle | returned reply => exact h
  | started call =>
    cases call with
    | sendrecv host port request | sendOnly host port request =>
      have hget : key ∈ (p.getOrCreate host port o).2.conns := mem_getOrCreate h
      simp only [Task.run]
      rcases hg : p.getOrCreate host port o with ⟨_ | _, q⟩ <;> rw [hg] at hget <;> exact hget
    | closeConnection host port => exact mem_removeConn.2 ⟨hkeep, h⟩
    | closeAll => exact h
  | exchanging host port request =>
    have hex : key ∈ (p.exchange c host port request o).2.conns :=
      ((p.exchange_same c host port request o).mem_iff key).2 h
    simp only [Task.run]
    rcases he : p.exchange c host port request o with ⟨_ | _ | _, q⟩ <;> rw [he] at hex <;> exact hex
  | writing host port request => exact ((p.write_same c host port request o).mem_iff key).2 h
  | removing host port e => exact mem_removeConn.2 ⟨hkeep, h⟩
  | clearing n => exact absurd trivial hkeep

theorem Task.not_mem_run {t : Task} (h : t.removes key) : key ∉ (t.run c p o).2.conns := by
  cases t with
  | started call =>
    cases call with
    | closeConnection host port =>
      intro hmem
      exact (mem_removeConn.1 hmem).1 h
    | sendrecv | sendOnly | closeAll => exact absurd h id
  | removing host port e =>
    intro hmem
    exact (mem_removeConn.1 hmem).1 h
  | clearing n => exact Finmap.notMem_empty
  | idle | exchanging | writing | returned => exact absurd h id

/-- What a call is about to look up it has just ensured. -/
theorem Task.present_run {t : Task} (h : (t.run c p o).1.looksUp = some key) : key ∈ (t.run c p o).2.conns := by
  cases t with
  | started call =>
    cases call with
    | sendrecv host port request | sendOnly host port request =>
      have hok : (p.getOrCreate host port o).1 = .ok () → HostEntity.address ⟨host, port⟩ ∈
          (p.getOrCreate host port o).2.conns := mem_getOrCreate_ok
      simp only [Task.run] at h ⊢
      rcases hg : p.getOrCreate host port o with ⟨_ | _, q⟩
      · rw [hg] at h
        cases h
      · rw [hg] at h hok
        cases h
        exact hok rfl
    | closeConnection | closeAll => cases h
  | exchanging host port request =>
    simp only [Task.run] at h
    rcases he : p.exchange c host port request o with ⟨_ | _ | _, q⟩ <;> rw [he] at h <;> cases h
  | idle | writing | removing | clearing | returned => cases h

/-- A section panics only where it looks up what is not there. -/
theorem Task.noPanic_run {t : Task} (h : t.Ready p) : (t.run c p o).1 ≠ .returned .panicked := by
  cases t with
  | started call =>
    cases call with
    | sendrecv host port request | sendOnly host port request =>
      simp only [Task.run]
      rcases p.getOrCreate host port o with ⟨_ | _, q⟩ <;> rintro ⟨⟩
    | closeConnection | closeAll => rintro ⟨⟩
  | exchanging host port request =>
    obtain ⟨conn, hl⟩ := Finmap.mem_iff.1 (h.present _ rfl)
    simp only [Task.run, TcpProxy.exchange, hl]
    cases sendRaw c request o with
    | error e => rintro ⟨⟩
    | ok =>
      simp only
      cases recvRaw c o <;> rintro ⟨⟩
  | writing host port request =>
    obtain ⟨conn, hl⟩ := Finmap.mem_iff.1 (h.present _ rfl)
    simp only [Task.run, TcpProxy.write, hl]
    cases sendRaw c request o <;> rintro ⟨⟩
  | returned reply => exact h.noPanic
  | idle | removing | clearing => rintro ⟨⟩

end Sections

/-! ## Runs -/

/-- A call that removes has nothing more to look up. -/
theorem Task.looksUp_of_removes {key : String} {t : Task} (h : t.removes key) : t.looksUp = none := by
  cases t with
  | exchanging | writing => exact absurd h id
  | idle | started | removing | clearing | returned => rfl

theorem Pool.ready_new (p : TcpProxy) : (Pool.new p).Ready := by
  intro id
  constructor
  · rintro key ⟨⟩
  · rintro ⟨⟩

theorem Pool.ready_call {c : Codec} {s : Pool} (h : s.Ready) (id : Nat) (call : Call) :
    (s.step c (.call id call)).2.Ready := by
  unfold Pool.step
  simp only
  split
  · intro other
    by_cases hid : other = id
    · simp only [hid, Function.update_self]
      constructor
      · rintro key ⟨⟩
      · rintro ⟨⟩
    · simp only [Function.update_of_ne hid]
      exact h other
  · exact h

/-- Where every call is ready, a section keeps them so exactly if it spares what they look up. -/
theorem Pool.ready_step_iff {c : Codec} {s : Pool} (h : s.Ready) (a : Action) :
    (s.step c a).2.Ready ↔ s.Spares a := by
  cases a with
  | call id call => exact iff_of_true (Pool.ready_call h id call) trivial
  | run id o =>
    constructor
    · intro hnext other key hlook hremove
      have hgone : key ∉ ((s.tasks id).run c s.proxy o).2.conns := Task.not_mem_run hremove
      have hother : other ≠ id := by
        rintro rfl
        rw [Task.looksUp_of_removes hremove] at hlook
        cases hlook
      have hpresent := (hnext other).present key
      simp only [Pool.step, Function.update_of_ne hother] at hpresent
      exact hgone (hpresent hlook)
    · intro hspares other
      by_cases hid : other = id
      · simp only [Pool.step, hid, Function.update_self]
        exact ⟨fun _ => Task.present_run, Task.noPanic_run (h id)⟩
      · simp only [Pool.step, Function.update_of_ne hid]
        exact ⟨fun key hlook => Task.mem_run (hspares other key hlook) ((h other).present key hlook),
          (h other).noPanic⟩

/-- Calls that share a pool, in any interleaving of their sections: after every step no call has panicked
and what a call looks up next is there, exactly if no section removes an entry that a call is about to
look up. -/
theorem races_iff (c : Codec) (p : TcpProxy) (actions : List Action) :
    Machine.Along (Pool.step c) (fun s a => (s.step c a).2.Ready) (Pool.new p) actions ↔
      Machine.Along (Pool.step c) Pool.Spares (Pool.new p) actions :=
  Machine.along_iff_of_invariant (I := Pool.Ready) (fun _ a hs ha => (Pool.ready_step_iff hs a).2 ha)
    (fun _ a hs => Pool.ready_step_iff hs a) (Pool.ready_new p)

/-- Two requests to one address at the same time, of which the second gets no answer. -/
def racingActions : List Action :=
  [.call 0 (.sendrecv "127.0.0.1" 50000 {}), .call 1 (.sendrecv "127.0.0.1" 50000 {}), .run 0 {}, .run 1 {},
    .run 1 { recv := .error "early eof" }, .run 1 {}, .run 0 {}]

/-- The connection that the first has ensured is removed by the second, and the first panics. -/
theorem racingActions_panic :
    (Machine.after (Pool.step .protobuf) (Pool.new .new) racingActions).tasks 0 = .returned .panicked ∧
      ¬Machine.Along (Pool.step .protobuf) (fun s a => (s.step .protobuf a).2.Ready) (Pool.new .new) racingActions := by
  refine ⟨rfl, ?_⟩
  rintro ⟨-, -, -, -, -, -, hlast, -⟩
  exact (hlast 0).noPanic rfl

end Zht.Tcp
