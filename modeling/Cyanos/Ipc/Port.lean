import Cyanos.Lib.Inversion
import Mathlib.Algebra.Group.Nat.Defs
import Mathlib.Data.List.FinRange
import Mathlib.Logic.Function.Basic

/-!
# IPC ports

The port table of `ipc/src/port.rs`: an open-addressed hash table whose buckets each hold a port
with its owner and a ring of messages.  Every definition here is one section under the lock of the
table; `send` and `release_by_owner` call the scheduler after they have released it.
-/

namespace Cyanos

/-- `MESSAGE_INLINE_BYTES`. -/
def messageInlineBytes : ℕ := 56

/-- `Message`. -/
structure Message where
  tag : ℕ
  /-- Port for the reply; `0` for none. -/
  replyPort : ℕ
  data : Vector UInt8 messageInlineBytes
  /-- A shared-memory capability. -/
  cap : Option ℕ
  deriving DecidableEq

/-- `Message::empty`. -/
def Message.empty : Message := ⟨0, 0, Vector.replicate messageInlineBytes 0, none⟩

/-- `MAX_PORTS`. -/
def maxPorts : ℕ := 65536

/-- `QUEUE_DEPTH`. -/
def queueDepth : ℕ := 16

/-- `EMPTY_ID`. -/
def emptyId : ℕ := 2 ^ 32 - 1

/-- `LIVE_BUCKETS`. -/
def liveBuckets : ℕ := 4096

/-- `PROBE_LIMIT`. -/
def probeLimit : ℕ := 16

/-- `SendError`. -/
inductive SendError
  | portNotFound
  | queueFull
  deriving DecidableEq, Repr

/-- The place is one of those from `head` up to `tail` in the ring. -/
def InRing (head tail i : Fin queueDepth) : Prop :=
  (i + queueDepth - head) % queueDepth < (tail + queueDepth - head : ℕ) % queueDepth

theorem not_inRing_self (head i : Fin queueDepth) : ¬InRing head head i := by
  simp [InRing]

/-- `PortEntry`: a bucket. -/
structure PortEntry where
  /-- The port; `EMPTY_ID` for none. -/
  id : ℕ
  ownerPid : ℕ
  queue : Fin queueDepth → Option Message
  /-- Where the next message is taken. -/
  head : Fin queueDepth
  /-- Where the next message goes. -/
  tail : Fin queueDepth
  /-- There is a message at every place between them. -/
  filled : ∀ i, InRing head tail i → (queue i).isSome

namespace PortEntry

/-- `PortEntry::empty`. -/
def empty : PortEntry where
  id := emptyId
  ownerPid := 0
  queue _ := none
  head := ⟨0, by decide⟩
  tail := ⟨0, by decide⟩
  filled i h := absurd h (not_inRing_self _ i)

/-- `is_free`. -/
def isFree (b : PortEntry) : Bool := b.id = emptyId

/-- The place after a place in the ring. -/
def next (i : Fin queueDepth) : Fin queueDepth := ⟨(i + 1) % queueDepth, Nat.mod_lt _ (by decide)⟩

theorem inRing_next_tail {head tail i : Fin queueDepth} (h : InRing head (next tail) i) :
    i = tail ∨ InRing head tail i := by
  simp only [InRing, next, queueDepth] at *
  omega

theorem inRing_next_head {head tail i : Fin queueDepth} (hne : head ≠ tail)
    (h : InRing (next head) tail i) : i ≠ head ∧ InRing head tail i := by
  simp only [InRing, next, queueDepth] at *
  omega

theorem inRing_head {head tail : Fin queueDepth} (hne : head ≠ tail) : InRing head tail head := by
  simp only [InRing, queueDepth] at *
  omega

/-- `enqueue(msg)`: `none` when the ring is full. -/
def enqueue (b : PortEntry) (msg : Message) : Option PortEntry :=
  if next b.tail = b.head then none
  else
    some
      { b with
        queue := Function.update b.queue b.tail (some msg)
        tail := next b.tail
        filled := by
          intro i hi
          by_cases hit : i = b.tail
          · simp [hit]
          · rw [Function.update_of_ne hit]
            exact b.filled i ((inRing_next_tail hi).resolve_left hit) }

/-- `dequeue()`. -/
def dequeue (b : PortEntry) : Option Message × PortEntry :=
  if hne : b.head = b.tail then (none, b)
  else
    (b.queue b.head,
      { b with
        queue := Function.update b.queue b.head none
        head := next b.head
        filled := by
          intro i hi
          obtain ⟨hih, hin⟩ := inRing_next_head hne hi
          rw [Function.update_of_ne hih]
          exact b.filled i hin })

/-- The bucket is given to a port. -/
def allot (b : PortEntry) (id ownerPid : ℕ) : PortEntry :=
  { b with
    id := id
    ownerPid := ownerPid
    head := empty.head
    tail := empty.tail
    filled := fun i hi => absurd hi (not_inRing_self _ i) }

end PortEntry

/-- `PortTable`. -/
structure PortTable where
  buckets : Fin liveBuckets → PortEntry
  nextId : ℕ

namespace PortTable

/-- `PortTable::new`. -/
def new : PortTable := ⟨fun _ => .empty, 0⟩

/-- The bucket a port is tried in after `i` others. -/
def bucketAt (port i : ℕ) : Fin liveBuckets :=
  ⟨(port % liveBuckets + i) % liveBuckets, Nat.mod_lt _ (by decide)⟩

/-- The loop of `find` over the places to try. -/
def probe (t : PortTable) (port : ℕ) : List ℕ → Option (Fin liveBuckets)
  | [] => none
  | i :: rest =>
    if (t.buckets (bucketAt port i)).isFree then none
    else if (t.buckets (bucketAt port i)).id = port then some (bucketAt port i)
    else t.probe port rest

/-- `find(port)`, and `find_mut(port)`, which has the same body. -/
def find (t : PortTable) (port : ℕ) : Option (Fin liveBuckets) := t.probe port (List.range probeLimit)

/-- Replace a bucket. -/
def set (t : PortTable) (idx : Fin liveBuckets) (b : PortEntry) : PortTable :=
  { t with buckets := Function.update t.buckets idx b }

/-- The loop of `alloc` over the port ids, for a number of turns. -/
def allocFrom (ownerPid : ℕ) : ℕ → PortTable → Option (ℕ × Fin liveBuckets) × PortTable
  | 0, t => (none, t)
  | turns + 1, t =>
    let id := t.nextId
    let t := { t with nextId := (id + 1) % 2 ^ 32 % maxPorts }
    match ((List.range probeLimit).map (bucketAt id)).find? fun idx => (t.buckets idx).isFree with
    | some idx =>
      (some (id, idx), t.set idx ((t.buckets idx).allot id ownerPid))
    | none => allocFrom ownerPid turns t

/-- `alloc(owner_pid)`. -/
def alloc (t : PortTable) (ownerPid : ℕ) : Option (ℕ × Fin liveBuckets) × PortTable :=
  allocFrom ownerPid maxPorts t

/-- `create(pid)`. -/
def create (t : PortTable) (pid : ℕ) : Option ℕ × PortTable :=
  ((t.alloc pid).1.map Prod.fst, (t.alloc pid).2)

/-- `close(port)`. -/
def close (t : PortTable) (port : ℕ) : PortTable :=
  match t.find port with
  | some idx => t.set idx .empty
  | none => t

/-- The bucket is of a port of the owner. -/
def ownedBy (t : PortTable) (pid : ℕ) (idx : Fin liveBuckets) : Bool :=
  !(t.buckets idx).isFree && (t.buckets idx).ownerPid = pid

/-- The section of `release_by_owner(pid)`: the ports to unblock, at most 64 of those closed. -/
def releaseByOwner (t : PortTable) (pid : ℕ) : List ℕ × PortTable :=
  ((((List.finRange liveBuckets).filter (t.ownedBy pid)).map fun idx => (t.buckets idx).id).take 64,
    { t with buckets := fun idx => if t.ownedBy pid idx then .empty else t.buckets idx })

/-- The section of `send(port, msg)`. -/
def send (t : PortTable) (port : ℕ) (msg : Message) : Except SendError PortTable :=
  match t.find port with
  | none => .error .portNotFound
  | some idx =>
    match (t.buckets idx).enqueue msg with
    | some b => .ok (t.set idx b)
    | none => .error .queueFull

/-- `port_stats(port)`: how many messages are queued, and for how many there is room. -/
def portStats (t : PortTable) (port : ℕ) : Option (ℕ × ℕ) :=
  (t.find port).map fun idx =>
    (((t.buckets idx).tail + queueDepth - (t.buckets idx).head) % queueDepth, queueDepth - 1)

/-- `recv(port)`. -/
def recv (t : PortTable) (port : ℕ) : Option Message × PortTable :=
  match t.find port with
  | none => (none, t)
  | some idx => ((t.buckets idx).dequeue.1, t.set idx (t.buckets idx).dequeue.2)

/-- `recv_as(port, caller_pid)`. -/
def recvAs (t : PortTable) (port callerPid : ℕ) : Option Message × PortTable :=
  match t.find port with
  | none => (none, t)
  | some idx =>
    if (t.buckets idx).ownerPid ≠ callerPid then (none, t)
    else ((t.buckets idx).dequeue.1, t.set idx (t.buckets idx).dequeue.2)

/-- `is_owner(port, pid)`. -/
def isOwner (t : PortTable) (port pid : ℕ) : Bool :=
  (t.find port).any fun idx => (t.buckets idx).ownerPid = pid

end PortTable

end Cyanos
