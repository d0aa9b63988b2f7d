/-!
# Bounded first-in first-out queues

A queue of at most `cap` entries, as a list with the oldest first, and the traces of calls and
replies it can have.

* `Fifo.Trace.conserved` : in a trace, what was queued and what was accepted is what was returned
  and what is left, in this order.
-/

namespace Lib

variable {α : Type _}

/-- A call. -/
inductive FifoCall (α : Type _) where
  | send (a : α)
  | recv

/-- A reply. -/
inductive FifoReply (α : Type _) where
  | accepted
  | full
  | received (a : Option α)

namespace Fifo

variable {cap : Nat} {l l' l'' : List α} {tr tr' : List (FifoCall α × FifoReply α)}

/-- The reply to a call, and the queue after it. -/
def step (cap : Nat) (l : List α) : FifoCall α → FifoReply α × List α
  | .send a => if l.length < cap then (.accepted, l ++ [a]) else (.full, l)
  | .recv => (.received l.head?, l.tail)

/-- The calls get these replies, and lead from the first queue to the second. -/
inductive Trace (cap : Nat) : List α → List (FifoCall α × FifoReply α) → List α → Prop
  | nil (l : List α) : Trace cap l [] l
  | cons {l l' : List α} {c : FifoCall α} {tr : List (FifoCall α × FifoReply α)} :
    Trace cap (step cap l c).2 tr l' → Trace cap l ((c, (step cap l c).1) :: tr) l'

/-- The entry that a call and its reply add to the queue. -/
def accepted : FifoCall α × FifoReply α → Option α
  | (.send a, .accepted) => some a
  | _ => none

/-- The entry that a call and its reply return. -/
def returned : FifoCall α × FifoReply α → Option α
  | (.recv, .received a) => a
  | _ => none

theorem step_conserved (cap : Nat) (l : List α) (c : FifoCall α) :
    l ++ (accepted (c, (step cap l c).1)).toList =
      (returned (c, (step cap l c).1)).toList ++ (step cap l c).2 := by
  cases c with
  | send =>
    rw [step]
    split <;> simp [accepted, returned]
  | recv => cases l <;> simp [step, accepted, returned]

/-- **What was queued and what is accepted is what is returned and what is left, in order.** -/
theorem Trace.conserved (h : Trace cap l tr l') :
    l ++ tr.filterMap accepted = tr.filterMap returned ++ l' := by
  induction h with
  | nil => simp
  | @cons l l' c tr _ ih =>
    have hstep := step_conserved cap l c
    have hsplit : ∀ (f : FifoCall α × FifoReply α → Option α) x,
        (x :: tr).filterMap f = (f x).toList ++ tr.filterMap f := fun f x => by
      cases hx : f x <;> simp [hx]
    rw [hsplit, hsplit, ← List.append_assoc, hstep, List.append_assoc, ih, List.append_assoc]

end Fifo

end Lib
