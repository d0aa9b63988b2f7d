import Cyanos.Ipc.Port
import Cyanos.Lib.Run
import Cyanos.Sched.RunQueue

/-!
# Receiving from a port

One task in `sys_recv` on a port it owns, and any number of senders in `port::send` to that port on
other CPUs.  Every lock section is one step: the port table has one lock and the run queue another,
and neither side holds one while it takes the other.

The receiver looks into the queue in one section and marks itself `Blocked` in a later one.  A
sender queues its message in one section and wakes those that are `Blocked` in a later one.  When
the whole send falls between the two sections of the receiver, nobody is there to be woken, and the
receiver goes to sleep with a message in its queue (`sleeps_on_message`).

* `Rendezvous.NotBetween`: a message is queued when the receiver is not between the two sections;
* `Rendezvous.Heard`: a receiver that sleeps with a message in its queue has a sender about to wake
  it;
* `heard_run`: **in a run in which every send is `NotBetween`, the receiver is always `Heard`**.
-/

namespace Cyanos

open Lib PortEntry Option

namespace PortTable

variable {t t' : PortTable} {port port' pid : ℕ} {msg : Message} {idx : Fin liveBuckets} {b : PortEntry}

/-- The port exists and a message is queued. -/
def hasMessage (t : PortTable) (port : ℕ) : Bool :=
  (t.find port).any fun idx => (t.buckets idx).head ≠ (t.buckets idx).tail

section

variable (hid : b.id = (t.buckets idx).id)
include hid

theorem set_id (j : Fin liveBuckets) : ((t.set idx b).buckets j).id = (t.buckets j).id := by
  by_cases hj : j = idx
  · simp [set, hj, hid]
  · simp [set, hj]

/-- Ports are found by the ids in the buckets. -/
theorem find_set : (t.set idx b).find port = t.find port := by
  unfold find
  induction List.range probeLimit with
  | nil => rfl
  | cons i rest ih =>
    refine if_congr ?_ rfl (if_congr ?_ rfl ih)
    · simp only [isFree, set_id hid]
    · rw [set_id hid]

theorem isOwner_set (ho : b.ownerPid = (t.buckets idx).ownerPid) :
    (t.set idx b).isOwner port pid = t.isOwner port pid := by
  unfold isOwner
  rw [find_set hid]
  congr 1
  funext j
  by_cases hj : j = idx
  · simp [set, hj, ho]
  · simp [set, hj]

end

theorem isOwner_send (h : t.send port msg = .ok t') : t'.isOwner port' pid = t.isOwner port' pid := by
  unfold send at h
  split at h
  · cases h
  · split at h
    swap
    · cases h
    next idx _ b hb =>
    cases h
    unfold enqueue at hb
    split at hb
    · cases hb
    · cases hb
      exact isOwner_set rfl rfl

theorem dequeue_id (b : PortEntry) : b.dequeue.2.id = b.id := by
  unfold dequeue
  split <;> rfl

theorem dequeue_ownerPid (b : PortEntry) : b.dequeue.2.ownerPid = b.ownerPid := by
  unfold dequeue
  split <;> rfl

theorem isOwner_recvAs : (t.recvAs port pid).2.isOwner port' pid = t.isOwner port' pid := by
  unfold recvAs
  split
  · rfl
  · split
    · rfl
    · exact isOwner_set (dequeue_id _) (dequeue_ownerPid _)

/-- A receiver adds no message. -/
theorem hasMessage_of_recvAs (h : (t.recvAs port pid).2.hasMessage port = true) :
    t.hasMessage port = true := by
  unfold recvAs at h
  split at h
  · exact h
  next idx hidx =>
  split at h
  · exact h
  by_cases hb : (t.buckets idx).head = (t.buckets idx).tail
  · rw [dequeue, dif_pos hb, set, Function.update_eq_self] at h
    exact h
  · simp [hasMessage, hidx, hb]

/-- The owner gets nothing only if nothing is queued. -/
theorem hasMessage_of_recvAs_none (ho : t.isOwner port pid = true) (h : (t.recvAs port pid).1 = none) :
    (t.recvAs port pid).2.hasMessage port = false := by
  obtain ⟨idx, hidx, howner⟩ := exists_of_any ho
  simp only [recvAs, hidx, ne_eq, howner, not_true_eq_false] at h ⊢
  by_cases hb : (t.buckets idx).head = (t.buckets idx).tail
  · rw [dequeue, dif_pos hb, set, Function.update_eq_self]
    simp [hasMessage, hidx, hb]
  · have hfilled := (t.buckets idx).filled _ (inRing_head hb)
    rw [dequeue, dif_neg hb] at h
    rw [show (t.buckets idx).queue (t.buckets idx).head = none from h] at hfilled
    cases hfilled

end PortTable

namespace RunQueue

variable {q : RunQueue} {pid port : ℕ}

theorem findPidIdx_unblockPort : (q.unblockPort port).findPidIdx pid = q.findPidIdx pid := by
  rw [findPidIdx, findPidIdx, unblockPort, List.findIdx?_map]
  congr 1
  funext slot
  cases slot with
  | none => rfl
  | some t =>
    have hpid : (wake port t).pid = t.pid := by
      unfold wake
      split <;> rfl
    simp [hpid]

theorem findPid_unblockPort :
    (q.unblockPort port).findPid pid = (q.findPid pid).map (wake port) := by
  rw [findPid, findPid, findPidIdx_unblockPort]
  cases q.findPidIdx pid with
  | none => rfl
  | some idx => exact get_unblockPort ..

end RunQueue

/-- Where the receiver is in `sys_recv`, after the check of its message pointer. -/
inductive RecvPhase
  /-- About to check that it owns the port. -/
  | entry
  /-- About to look into the queue: `recv_as`. -/
  | receiving
  /-- `recv_as` has returned nothing. -/
  | empty
  /-- The port is still its own: about to mark itself `Blocked`. -/
  | blocking
  /-- It has marked itself `Blocked` and switches to the scheduler. -/
  | asleep
  /-- It runs again. -/
  | awake
  /-- It has returned, and may have written a message. -/
  | done (res : ℤ) (msg : Option Message)
  deriving DecidableEq

/-- Where a sender is in `port::send`. -/
inductive SendPhase
  /-- Not sending, or about to queue its message. -/
  | idle
  /-- The message is queued: about to wake the receiver. -/
  | queued
  deriving DecidableEq, Repr

/-- The receiver of a port and its senders. -/
structure Rendezvous (κ : Type) where
  ports : PortTable
  rq : RunQueue
  receiver : RecvPhase
  sender : κ → SendPhase

namespace Rendezvous

/-- A step of the system. -/
inductive Act (κ : Type)
  /-- The receiver takes its next step. -/
  | recv
  /-- The scheduler runs the receiver again. -/
  | resume
  /-- A sender queues a message. -/
  | send (k : κ) (msg : Message)
  /-- A sender that has queued a message wakes the receiver. -/
  | notify (k : κ)

variable {κ : Type}

section Step

variable (port pid : ℕ)

/-- The next step of the receiver in `sys_recv(port)`.  When the call has returned it is made
again. -/
def recv (s : Rendezvous κ) : Option (Rendezvous κ) :=
  match s.receiver with
  | .entry =>
    some { s with receiver := if s.ports.isOwner port pid then .receiving else .done (-13) none }
  | .receiving =>
    some { s with
      ports := (s.ports.recvAs port pid).2
      receiver :=
        match (s.ports.recvAs port pid).1 with
        | some msg => .done 0 (some msg)
        | none => .empty }
  | .empty => some { s with receiver := if s.ports.isOwner port pid then .blocking else .done (-9) none }
  | .blocking => some { s with rq := s.rq.blockOnPort pid port, receiver := .asleep }
  | .asleep => none
  | .awake =>
    some { s with receiver := if s.ports.isOwner port pid then .receiving else .done (-9) none }
  | .done _ _ => some { s with receiver := .entry }

/-- The scheduler runs the receiver when it is ready. -/
def resume (s : Rendezvous κ) : Option (Rendezvous κ) :=
  if s.receiver = .asleep ∧ (s.rq.findPid pid).any (fun t => t.state = .ready) then
    some { s with
      rq := s.rq.modifyPid pid fun t => { t with state := .running }
      receiver := .awake }
  else none

variable [DecidableEq κ]

/-- The first section of `send(port, msg)`.  A sender whose message is refused returns an error. -/
def send (s : Rendezvous κ) (k : κ) (msg : Message) : Option (Rendezvous κ) :=
  if s.sender k = .idle then
    match s.ports.send port msg with
    | .ok ports => some { s with ports := ports, sender := Function.update s.sender k .queued }
    | .error _ => some s
  else none

/-- The second section of `send`. -/
def notify (s : Rendezvous κ) (k : κ) : Option (Rendezvous κ) :=
  if s.sender k = .queued then
    some { s with rq := s.rq.unblockPort port, sender := Function.update s.sender k .idle }
  else none

/-- A step of the system. -/
def step (s : Rendezvous κ) : Act κ → Option (Rendezvous κ)
  | .recv => s.recv port pid
  | .resume => s.resume pid
  | .send k msg => s.send port k msg
  | .notify k => s.notify port k

end Step

/-- The receiver, which owns the port and is running, enters `sys_recv`; no send is in progress. -/
structure Begins (port pid : ℕ) (s : Rendezvous κ) : Prop where
  owner : s.ports.isOwner port pid = true
  running : ∃ t, s.rq.findPid pid = some t ∧ t.state = .running
  entry : s.receiver = .entry
  idle : ∀ k, s.sender k = .idle

/-- The task is blocked on the port. -/
def blockedOn (s : Rendezvous κ) (port pid : ℕ) : Bool :=
  (s.rq.findPid pid).any fun t => t.state = .blocked ∧ t.blockedOn = some port

theorem blockedOn_iff {s : Rendezvous κ} {port pid : ℕ} : s.blockedOn port pid = true ↔
    ∃ t, s.rq.findPid pid = some t ∧ t.state = .blocked ∧ t.blockedOn = some port := by
  simp [blockedOn, any_eq_true]

/-- While the receiver is blocked on the port and the port has a message, a send is in progress. -/
def Heard (port pid : ℕ) (s : Rendezvous κ) : Prop :=
  s.blockedOn port pid = true → s.ports.hasMessage port = true → ∃ k, s.sender k = .queued

/-- The receiver is between a `recv_as` that returned nothing and its `block_on_port`. -/
def Between (s : Rendezvous κ) : Prop := s.receiver = .empty ∨ s.receiver = .blocking

/-- No message is queued while the receiver is between the two. -/
def NotBetween (s : Rendezvous κ) : Act κ → Prop
  | .send _ _ => ¬s.Between
  | _ => True

instance (s : Rendezvous κ) (a : Act κ) : Decidable (s.NotBetween a) := by
  rcases a <;> dsimp only [NotBetween, Between] <;> infer_instance

/-- What holds of every state of a run. -/
structure Inv (port pid : ℕ) (s : Rendezvous κ) : Prop where
  owner : s.ports.isOwner port pid = true
  /-- Nothing is queued when the receiver is about to block. -/
  empty : s.Between → s.ports.hasMessage port = false
  heard : s.Heard port pid

namespace Inv

variable {port pid : ℕ} {s s' : Rendezvous κ}

theorem of_begins (h : s.Begins port pid) : s.Inv port pid where
  owner := h.owner
  empty hb := by rcases hb with hb | hb <;> cases h.entry.symm.trans hb
  heard := by
    intro hb
    obtain ⟨t, ht, hs, -⟩ := blockedOn_iff.1 hb
    obtain ⟨u, hu, hr⟩ := h.running
    obtain rfl := mem_unique ht hu
    cases hs.symm.trans hr

/-- The receiver goes on to a phase in which it is not about to block. -/
theorem goto (h : s.Inv port pid) {p : RecvPhase} (hp : p ≠ .empty ∧ p ≠ .blocking) :
    Inv port pid { s with receiver := p } :=
  ⟨h.owner, fun hb => hb.elim (fun hb => absurd hb hp.1) fun hb => absurd hb hp.2, h.heard⟩

theorem recv (h : s.Inv port pid) (hs : s.recv port pid = some s') : s'.Inv port pid := by
  unfold Rendezvous.recv at hs
  split at hs
  · cases hs
    rw [if_pos h.owner]
    exact h.goto (by simp)
  · cases hs
    have hheard : Heard port pid { s with ports := (s.ports.recvAs port pid).2 } :=
      fun hb hm => h.heard hb (PortTable.hasMessage_of_recvAs hm)
    refine ⟨PortTable.isOwner_recvAs.trans h.owner, fun hb => ?_, hheard⟩
    cases hres : (s.ports.recvAs port pid).1 with
    | none => exact PortTable.hasMessage_of_recvAs_none h.owner hres
    | some => simp [Between, hres] at hb
  · next hp =>
    cases hs
    rw [if_pos h.owner]
    exact ⟨h.owner, fun _ => h.empty (.inl hp), h.heard⟩
  · next hp =>
    -- It goes to sleep, and nothing has been queued since it looked.
    cases hs
    have hempty := h.empty (.inr hp)
    refine ⟨h.owner, fun _ => hempty, fun _ hm => ?_⟩
    cases hempty.symm.trans hm
  · cases hs
  · cases hs
    rw [if_pos h.owner]
    exact h.goto (by simp)
  · cases hs
    exact h.goto (by simp)

theorem resume (h : s.Inv port pid) (hs : s.resume pid = some s') : s'.Inv port pid := by
  unfold Rendezvous.resume at hs
  split at hs
  swap
  · cases hs
  next hr =>
  cases hs
  obtain ⟨t, ht, -⟩ := exists_of_any hr.2
  refine ⟨h.owner, fun hb => ?_, ?_⟩
  · rcases hb with hb | hb <;> cases hb
  · intro hblocked
    obtain ⟨u, hu, hb, -⟩ := blockedOn_iff.1 hblocked
    have hrun := RunQueue.findPid_modifyPid_self (f := fun t => { t with state := .running })
      (fun _ => rfl) ht
    obtain rfl := mem_unique hu hrun
    cases hb

variable [DecidableEq κ]

theorem send (h : s.Inv port pid) {k : κ} {msg : Message} (hg : ¬s.Between)
    (hs : s.send port k msg = some s') : s'.Inv port pid := by
  unfold Rendezvous.send at hs
  split at hs
  swap
  · cases hs
  split at hs
  · next ports hsend =>
    cases hs
    exact ⟨(PortTable.isOwner_send hsend).trans h.owner, fun hb => absurd hb hg,
      fun _ _ => ⟨k, Function.update_self k _ _⟩⟩
  · cases hs
    exact h

/-- Whoever sleeps on the port is woken. -/
theorem notify (h : s.Inv port pid) {k : κ} (hs : s.notify port k = some s') : s'.Inv port pid := by
  unfold Rendezvous.notify at hs
  split at hs
  swap
  · cases hs
  cases hs
  refine ⟨h.owner, h.empty, fun hblocked => ?_⟩
  obtain ⟨t, ht, hs, hb⟩ := blockedOn_iff.1 hblocked
  rw [RunQueue.findPid_unblockPort] at ht
  obtain ⟨u, -, rfl⟩ := map_eq_some_iff.1 ht
  unfold RunQueue.wake at hs hb
  split at hb
  · cases hb
  · next hne =>
    rw [if_neg hne] at hs
    exact absurd ⟨hb, hs⟩ hne

theorem step (h : s.Inv port pid) {a : Act κ} (hg : s.NotBetween a)
    (hs : s.step port pid a = some s') : s'.Inv port pid := by
  cases a with
  | recv => exact h.recv hs
  | resume => exact h.resume hs
  | send => exact h.send hg hs
  | notify => exact h.notify hs

end Inv

variable [DecidableEq κ] {port pid : ℕ} {s₀ s : Rendezvous κ}

/-- **No lost wakeup.**  When no message is queued between a `recv_as` of the receiver that returned
nothing and its `block_on_port`, the receiver never sleeps on a port with a message unless a send is
still in progress. -/
theorem heard_run (h₀ : s₀.Begins port pid) (h : Run (step port pid) NotBetween s₀ s) :
    s.Heard port pid :=
  (h.invariant (Inv.of_begins h₀) fun _ _ _ hi hg hs => hi.step hg hs).heard

/-- Task 1, which is running and owns port 0, and one sender. -/
def oneSender : Rendezvous (Fin 1) where
  ports := (PortTable.new.create 1).2
  rq := RunQueue.new.setSlot 0 (some { Task.newKernel 1 0x1000 0 with state := .running })
  receiver := .entry
  sender _ := .idle

theorem oneSender_begins : oneSender.Begins 0 1 where
  owner := by decide +kernel
  running := ⟨{ Task.newKernel 1 0x1000 0 with state := .running }, rfl, rfl⟩
  entry := rfl
  idle _ := rfl

/-- A message is queued for a receiver that sleeps, and its sender is about to wake it. -/
theorem heard_run_asleep : ∃ s, Run (step 0 1) NotBetween oneSender s ∧
    (s.blockedOn 0 1 = true ∧ s.ports.hasMessage 0 = true) ∧ s.Heard 0 1 :=
  Run.exists_guarded_with [.recv, .recv, .recv, .recv, .send 0 .empty] (by decide +kernel)
    fun _ hrun _ => heard_run oneSender_begins hrun

/-- **A lost wakeup.**  The sender queues a message and wakes the receiver after the receiver has
found its queue empty and before it marks itself `Blocked`. -/
theorem sleeps_on_message : oneSender.Begins 0 1 ∧ ∃ s, Reach (step 0 1) oneSender s ∧
    (s.blockedOn 0 1 ∧ s.ports.hasMessage 0 ∧ ∀ k, s.sender k ≠ .queued) ∧ ¬s.Heard 0 1 := by
  refine ⟨oneSender_begins, Run.exists_guarded_with
    [.recv, .recv, .recv, .send 0 .empty, .notify 0, .recv] (by decide +kernel) fun _ _ hp h => ?_⟩
  obtain ⟨k, hq⟩ := h hp.1 hp.2.1
  exact hp.2.2 k hq

end Rendezvous

end Cyanos
