import Cyanos.Lib.Fifo
import Cyanos.Ipc.Lifetime

/-!
# The queue of a port

The ring of a bucket, from `head` up to `tail`, is a bounded first-in first-out queue of
`QUEUE_DEPTH - 1` messages: one place always stays unused.

## Main results

* `PortEntry.contents_enqueue`, `PortEntry.contents_dequeue` : the two operations on the queue.
* `PortTable.refines_fifo` : over any calls that leave the bucket to its port, the calls resolved to
  it get the replies of the queue; when `send`, `recv` and `port_stats` report what; and a bucket
  given out starts with an empty queue.
-/

namespace Cyanos

open Lib PortEntry List Option

namespace PortEntry

variable {b b' : PortEntry} {msg : Message}

/-- How many messages are queued. -/
def depth (b : PortEntry) : ℕ := (b.tail + queueDepth - b.head) % queueDepth

/-- The place of the `i`-th message. -/
def place (b : PortEntry) (i : ℕ) : Fin queueDepth :=
  ⟨(b.head + i) % queueDepth, Nat.mod_lt _ (by decide)⟩

/-- The messages queued, the oldest first. -/
def contents (b : PortEntry) : List Message :=
  (List.range b.depth).filterMap fun i => b.queue (b.place i)

theorem depth_lt (b : PortEntry) : b.depth < queueDepth := Nat.mod_lt _ (by decide)

theorem inRing_place {i : ℕ} (hi : i < b.depth) : InRing b.head b.tail (b.place i) := by
  have hlt := b.depth_lt
  simp only [depth, queueDepth] at hi hlt
  simp only [InRing, place, queueDepth]
  omega

/-- There is a message at every place of the queue. -/
theorem map_some_contents (b : PortEntry) :
    b.contents.map some = (range b.depth).map fun i => b.queue (b.place i) := by
  have hall : ∀ i ∈ range b.depth, (b.queue (b.place i)).isSome :=
    fun i hi => b.filled _ (inRing_place (mem_range.1 hi))
  rw [contents]
  generalize range b.depth = l at hall
  induction l with
  | nil => rfl
  | cons i l ih =>
    obtain ⟨m, hm⟩ := isSome_iff_exists.1 (hall i (.head _))
    rw [filterMap_cons, hm, map_cons, map_cons, hm, ih fun j hj => hall j (mem_cons_of_mem i hj)]

theorem length_contents (b : PortEntry) : b.contents.length = b.depth := by
  have hlen := congrArg length b.map_some_contents
  simpa using hlen

theorem queue_place {i : ℕ} (hi : i < b.depth) : b.queue (b.place i) = b.contents[i]? := by
  have hget := congrArg (·[i]?) b.map_some_contents
  simp only [getElem?_map, getElem?_range hi] at hget
  obtain ⟨m, hm, hq⟩ := map_eq_some_iff.1 hget
  rw [hm, hq]

/-- The queue is the list with these messages at its places. -/
theorem contents_eq {l : List Message} (hlen : b.depth = l.length)
    (h : ∀ i < b.depth, b.queue (b.place i) = l[i]?) : b.contents = l := by
  refine ext_getElem? fun i => ?_
  by_cases hi : i < b.depth
  · rw [← queue_place hi, h i hi]
  · rw [getElem?_eq_none (by rw [length_contents]; omega), getElem?_eq_none (by omega)]

theorem next_tail_eq_head : next b.tail = b.head ↔ b.depth = queueDepth - 1 := by
  rw [Fin.ext_iff]
  simp only [next, depth, queueDepth]
  omega

theorem head_eq_tail : b.head = b.tail ↔ b.depth = 0 := by
  simp only [depth, queueDepth]
  omega

/-- The ring is full exactly when `QUEUE_DEPTH - 1` messages are queued. -/
theorem enqueue_eq_none : b.enqueue msg = none ↔ b.contents.length = queueDepth - 1 := by
  rw [length_contents, ← next_tail_eq_head, enqueue]
  split
  · next h => exact iff_of_true rfl h
  · next h => exact iff_of_false (some_ne_none _) h

theorem enqueue_spec (h : b.enqueue msg = some b') :
    b.depth ≠ queueDepth - 1 ∧ b'.queue = Function.update b.queue b.tail (some msg) ∧
      b'.head = b.head ∧ b'.tail = next b.tail := by
  unfold enqueue at h
  split at h
  · cases h
  · next hroom =>
    cases h
    exact ⟨next_tail_eq_head.not.1 hroom, rfl, rfl, rfl⟩

/-- **A message accepted goes to the end of the queue.** -/
theorem contents_enqueue (h : b.enqueue msg = some b') : b'.contents = b.contents ++ [msg] := by
  obtain ⟨hroom, hqueue, hhead, htail⟩ := enqueue_spec h
  have hlt := b.depth_lt
  have hh : (b.head : ℕ) < 16 := b.head.isLt
  have ht : (b.tail : ℕ) < 16 := b.tail.isLt
  have hplace : ∀ i, b'.place i = b.place i := fun i => by simp only [place, hhead]
  have hdepth : b'.depth = b.depth + 1 := by
    simp only [depth, hhead, htail, next, queueDepth] at hroom hlt ⊢
    omega
  refine contents_eq (by simp [hdepth, length_contents]) fun i hi => ?_
  rw [hplace, hqueue]
  by_cases hlast : i = b.depth
  · have htail : b.place i = b.tail := by
      rw [Fin.ext_iff, hlast]
      simp only [place, depth, queueDepth]
      omega
    rw [htail, Function.update_self, hlast, ← length_contents, getElem?_concat_length]
  · have hi : i < b.depth := by omega
    have hne : b.place i ≠ b.tail := by
      rw [Ne, Fin.ext_iff]
      simp only [place, depth, queueDepth] at hi hlt ⊢
      omega
    rw [Function.update_of_ne hne, queue_place hi, getElem?_append_left (by rwa [length_contents])]

/-- **The message taken is the oldest one, and there is none only when the queue is empty.** -/
theorem contents_dequeue (b : PortEntry) :
    b.dequeue.1 = b.contents.head? ∧ b.dequeue.2.contents = b.contents.tail := by
  unfold dequeue
  split
  · next hempty =>
    have hnil : b.contents = [] := by
      rw [← length_eq_zero_iff, length_contents, head_eq_tail.1 hempty]
    simp [hnil]
  · next hne =>
    have hlt := b.depth_lt
    have hpos : b.depth ≠ 0 := head_eq_tail.not.1 hne
    have hfirst : b.queue b.head = b.contents.head? := by
      have hplace : b.place 0 = b.head := by
        rw [Fin.ext_iff]
        simp only [place, queueDepth]
        omega
      rw [← hplace, queue_place (by omega), head?_eq_getElem?]
    refine ⟨hfirst, ?_⟩
    have hdepth : ∀ q f, depth ⟨b.id, b.ownerPid, q, next b.head, b.tail, f⟩ = b.depth - 1 := by
      intro q f
      simp only [depth, next, queueDepth] at hpos ⊢
      omega
    refine contents_eq (by rw [hdepth, length_tail, length_contents]) fun i hi => ?_
    rw [hdepth] at hi
    have hplace : ∀ q f, place ⟨b.id, b.ownerPid, q, next b.head, b.tail, f⟩ i =
        b.place (i + 1) := by
      intro q f
      rw [Fin.ext_iff]
      simp only [place, next, queueDepth]
      omega
    have hother : b.place (i + 1) ≠ b.head := by
      rw [Ne, Fin.ext_iff]
      simp only [place, queueDepth] at hlt ⊢
      omega
    rw [hplace]
    simp only [Function.update_of_ne hother]
    rw [queue_place (by omega), getElem?_tail]

end PortEntry

namespace PortTable

variable {t t' : PortTable} {port pid id k : ℕ} {idx : Fin liveBuckets} {msg : Message}

/-! ### Calls resolved to a bucket -/

/-- What the call is for the queue of the bucket it is resolved to, with the reply it gets. -/
def event (t : PortTable) (idx : Fin liveBuckets) :
    PortCall → Option (FifoCall Message × FifoReply Message)
  | .send port msg =>
    if t.find port = some idx then
      match t.send port msg with
      | .ok _ => some (.send msg, .accepted)
      | .error .queueFull => some (.send msg, .full)
      | .error .portNotFound => none
    else none
  | .recv port =>
    if t.find port = some idx then some (.recv, .received (t.recv port).1) else none
  | .recvAs port callerPid =>
    if t.find port = some idx ∧ (t.buckets idx).ownerPid = callerPid then
      some (.recv, .received (t.recvAs port callerPid).1)
    else none
  | _ => none

/-- The calls resolved to a bucket in a sequence of calls. -/
def events (idx : Fin liveBuckets) : PortTable → List PortCall →
    List (FifoCall Message × FifoReply Message)
  | _, [] => []
  | t, call :: calls => (t.event idx call).toList ++ events idx (t.after call) calls

/-- The bucket is not emptied in the sequence. -/
def Stays (idx : Fin liveBuckets) : PortTable → List PortCall → Prop
  | t, [] => (t.buckets idx).isFree = false
  | t, call :: calls => (t.buckets idx).isFree = false ∧ Stays idx (t.after call) calls

instance decidableStays (idx : Fin liveBuckets) :
    (t : PortTable) → (calls : List PortCall) → Decidable (Stays idx t calls)
  | _, [] => inferInstanceAs (Decidable (_ = _))
  | t, call :: calls => @instDecidableAnd _ _ _ (decidableStays idx (t.after call) calls)

theorem Stays.taken {calls : List PortCall} (h : Stays idx t calls) :
    (t.buckets idx).isFree = false := by
  cases calls with
  | nil => exact h
  | cons => exact h.1

theorem allocFrom_of_taken {turns : ℕ} (h : (t.buckets idx).isFree = false) :
    (allocFrom pid turns t).2.buckets idx = t.buckets idx := by
  induction turns generalizing t with
  | zero => rfl
  | succ turns ih =>
    rw [allocFrom]
    split
    · next j hj =>
      have hfree := find?_some hj
      exact set_of_ne (taken_ne_free h hfree)
    · exact ih h

/-- What a call does to the queue of a bucket, given what it is for it: nothing, or a step of the
queue. -/
def Steps (before after : PortEntry) : Option (FifoCall Message × FifoReply Message) → Prop
  | none => after.contents = before.contents
  | some (c, r) =>
    r = (Fifo.step (queueDepth - 1) before.contents c).1 ∧
      after.contents = (Fifo.step (queueDepth - 1) before.contents c).2

theorem steps_send (t : PortTable) (idx : Fin liveBuckets) (port : ℕ) (msg : Message) :
    Steps (t.buckets idx) ((t.after (.send port msg)).buckets idx)
      (t.event idx (.send port msg)) := by
  simp only [after, event, send]
  cases hfind : t.find port with
  | none => rfl
  | some j =>
    cases henq : (t.buckets j).enqueue msg with
    | none =>
      simp only [henq]
      split
      · next hj =>
        cases hj
        -- full: as many messages as the queue takes
        have hfull := enqueue_eq_none.1 henq
        simp [Steps, Fifo.step, hfull]
      · rfl
    | some =>
      simp only [henq]
      split
      · next hj =>
        obtain rfl := some.inj hj
        have hlt := (t.buckets j).depth_lt
        have hroom := (enqueue_spec henq).1
        rw [Steps, Fifo.step, if_pos (by rw [length_contents]; omega), set_self]
        exact ⟨rfl, contents_enqueue henq⟩
      · next hj =>
        have hne : idx ≠ j := fun h => hj (h ▸ rfl)
        rw [set_of_ne hne]
        rfl

/-- Taking a message from a bucket. -/
theorem steps_dequeue (t : PortTable) (idx : Fin liveBuckets) :
    Steps (t.buckets idx) ((t.set idx (t.buckets idx).dequeue.2).buckets idx)
      (some (.recv, .received (t.buckets idx).dequeue.1)) := by
  obtain ⟨hfirst, hrest⟩ := (t.buckets idx).contents_dequeue
  rw [set_self]
  exact ⟨by rw [hfirst]; rfl, hrest⟩

theorem steps_recv (t : PortTable) (idx : Fin liveBuckets) (port : ℕ) :
    Steps (t.buckets idx) ((t.after (.recv port)).buckets idx) (t.event idx (.recv port)) := by
  rw [after, event, recv]
  cases hfind : t.find port with
  | none => rfl
  | some j =>
    simp only
    split
    · next hj =>
      obtain rfl := some.inj hj
      exact steps_dequeue t j
    · next hj =>
      have hne : idx ≠ j := fun h => hj (h ▸ rfl)
      rw [set_of_ne hne]
      rfl

theorem steps_recvAs (t : PortTable) (idx : Fin liveBuckets) (port pid : ℕ) :
    Steps (t.buckets idx) ((t.after (.recvAs port pid)).buckets idx)
      (t.event idx (.recvAs port pid)) := by
  rw [after, event, recvAs]
  cases hfind : t.find port with
  | none => rfl
  | some j =>
    simp only
    by_cases howner : (t.buckets j).ownerPid = pid
    · rw [if_neg (not_not.2 howner)]
      split
      · next hj =>
        obtain rfl := some.inj hj.1
        exact steps_dequeue t j
      · next hj =>
        have hne : idx ≠ j := fun h => hj ⟨h ▸ rfl, h ▸ howner⟩
        rw [set_of_ne hne]
        rfl
    · rw [if_pos howner, if_neg]
      · rfl
      · rintro ⟨hj, ho⟩
        exact howner (some.inj hj ▸ ho)

/-- A call changes the queue of a bucket that stays as the queue does, and not at all if it is not
resolved to it. -/
theorem steps_after (call : PortCall) (htaken : (t.buckets idx).isFree = false)
    (hstays : ((t.after call).buckets idx).isFree = false) :
    Steps (t.buckets idx) ((t.after call).buckets idx) (t.event idx call) := by
  cases call with
  | create pid =>
    have hsame : (t.after (.create pid)).buckets idx = t.buckets idx := allocFrom_of_taken htaken
    rw [hsame]
    rfl
  | close port =>
    suffices hsame : (t.after (.close port)).buckets idx = t.buckets idx by
      rw [hsame]
      rfl
    rw [after, close] at hstays ⊢
    split
    · next j hj =>
      refine set_of_ne fun h => ?_
      rw [hj, h, set_self] at hstays
      cases hstays
    · rfl
  | releaseByOwner pid =>
    suffices hsame : (t.after (.releaseByOwner pid)).buckets idx = t.buckets idx by
      rw [hsame]
      rfl
    refine if_neg fun howned => ?_
    have hempty : (t.after (.releaseByOwner pid)).buckets idx = .empty := if_pos howned
    rw [hempty] at hstays
    cases hstays
  | send port msg => exact steps_send ..
  | recv port => exact steps_recv ..
  | recvAs port pid => exact steps_recvAs ..

/-- **Over any calls that leave the bucket to its port, the calls resolved to it get the replies of
a queue of `QUEUE_DEPTH - 1` messages.** -/
theorem trace_events {calls : List PortCall} (h : Stays idx t calls) :
    Fifo.Trace (queueDepth - 1) (t.buckets idx).contents (events idx t calls)
      ((calls.foldl after t).buckets idx).contents := by
  induction calls generalizing t with
  | nil => exact .nil _
  | cons call calls ih =>
    have hcall := steps_after call h.1 h.2.taken
    have hrest := ih h.2
    rw [events, foldl_cons]
    cases hevent : t.event idx call with
    | none =>
      rw [hevent] at hcall
      rw [hcall] at hrest
      exact hrest
    | some e =>
      obtain ⟨c, r⟩ := e
      rw [hevent] at hcall
      obtain ⟨rfl, hcontents⟩ := hcall
      rw [hcontents] at hrest
      exact .cons hrest

/-! ### Reports -/

/-- What the calls resolved to the bucket report about its queue. -/
structure Reports (t : PortTable) (idx : Fin liveBuckets) : Prop where
  /-- `send` says that the queue is full. -/
  full : ∀ port msg, t.find port = some idx →
    (t.send port msg = .error .queueFull ↔ (t.buckets idx).contents.length = queueDepth - 1)
  /-- `recv` finds nothing. -/
  recvNone : ∀ port, t.find port = some idx →
    ((t.recv port).1 = none ↔ (t.buckets idx).contents = [])
  /-- The owner finds nothing with `recv_as`. -/
  recvAsNone : ∀ port, t.find port = some idx →
    ((t.recvAs port (t.buckets idx).ownerPid).1 = none ↔ (t.buckets idx).contents = [])
  /-- What `port_stats` says. -/
  stats : ∀ port, t.find port = some idx →
    t.portStats port = some ((t.buckets idx).contents.length, queueDepth - 1)

theorem dequeue_eq_none {b : PortEntry} : b.dequeue.1 = none ↔ b.contents = [] := by
  rw [b.contents_dequeue.1, head?_eq_none_iff]

theorem reports (t : PortTable) (idx : Fin liveBuckets) : t.Reports idx where
  full port msg hfind := by
    refine Iff.trans ?_ (enqueue_eq_none : (t.buckets idx).enqueue msg = none ↔ _)
    simp only [send, hfind]
    cases (t.buckets idx).enqueue msg with
    | none => exact iff_of_true rfl rfl
    | some b => exact iff_of_false (by simp) (some_ne_none b)
  recvNone port hfind := by
    rw [recv, hfind]
    exact dequeue_eq_none
  recvAsNone port hfind := by
    simp only [recvAs, hfind, ne_eq, not_true_eq_false]
    exact dequeue_eq_none
  stats port hfind := by
    rw [portStats, hfind, length_contents]
    rfl

theorem contents_allocFrom {turns : ℕ} (h : allocFrom pid turns t = (some (id, idx), t')) :
    (t'.buckets idx).contents = [] := by
  induction turns generalizing t with
  | zero => cases h
  | succ turns ih =>
    rw [allocFrom] at h
    split at h
    · obtain ⟨hid, rfl⟩ := Prod.mk.inj h
      cases hid
      rw [set_self, contents, show depth _ = 0 from head_eq_tail.1 rfl]
      rfl
    · exact ih h

/-- **The queue of a port is a bounded first-in first-out queue.**  Over any calls that leave the
bucket to its port, the calls resolved to it get the replies of such a queue, so what was queued and
accepted is what was returned and is left, in order; it is reported full with `QUEUE_DEPTH - 1`
messages and empty with none, and `port_stats` counts them; and a bucket given out has an empty
queue. -/
theorem refines_fifo {calls : List PortCall} (h : Stays idx t calls) :
    Fifo.Trace (queueDepth - 1) (t.buckets idx).contents (events idx t calls)
        ((calls.foldl after t).buckets idx).contents ∧
      (t.buckets idx).contents ++ (events idx t calls).filterMap Fifo.accepted =
        (events idx t calls).filterMap Fifo.returned ++
          ((calls.foldl after t).buckets idx).contents ∧
      (calls.foldl after t).Reports idx ∧
      ∀ pid id j t', (calls.foldl after t).alloc pid = (some (id, j), t') →
        (t'.buckets j).contents = [] :=
  ⟨trace_events h, (trace_events h).conserved, reports _ _,
    fun _ _ _ _ halloc => contents_allocFrom halloc⟩

/-- A message with a number. -/
def numbered (n : ℕ) : PortCall := .send 0 { Message.empty with tag := n, replyPort := n }

/-- Sixteen messages are sent to port 0, of which the last is refused; three are received, three
sent past the end of the ring, and five received. -/
def wrapCalls : List PortCall :=
  (range 16).map numbered ++ replicate 3 (.recv 0) ++ [20, 21, 22].map numbered ++ replicate 5 (.recv 0)

theorem refines_fifo_wrap :
    Stays Ports.home (Ports.kept 1) wrapCalls ∧
      (((events Ports.home (Ports.kept 1) wrapCalls).filterMap Fifo.accepted).map Message.tag =
          range 15 ++ [20, 21, 22] ∧
        ((events Ports.home (Ports.kept 1) wrapCalls).filterMap Fifo.returned).map Message.tag =
          range 8) ∧
      Fifo.Trace (queueDepth - 1) ((Ports.kept 1).buckets Ports.home).contents
          (events Ports.home (Ports.kept 1) wrapCalls)
          ((wrapCalls.foldl after (Ports.kept 1)).buckets Ports.home).contents ∧
        (wrapCalls.foldl after (Ports.kept 1)).Reports Ports.home := by
  have hstays : Stays Ports.home (Ports.kept 1) wrapCalls := by decide +kernel
  obtain ⟨htrace, -, hreports, -⟩ := refines_fifo hstays
  exact ⟨hstays, by decide +kernel, htrace, hreports⟩

end PortTable

end Cyanos
