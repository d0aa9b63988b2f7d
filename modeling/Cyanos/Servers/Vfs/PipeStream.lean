import Cyanos.Servers.Vfs.Objects

/-!
# Pipe streams

What is written to a pipe and read from it.  Every call has a number, and a pipe is known by the
number of the call that made it; an entry is an end of the pipe that its descriptor was made for, or
that the descriptor it was copied from was made for.  For every pipe, the bytes that writes to it
accepted and the bytes that reads from it delivered are kept beside the server (`Piped`).

The source keeps one flag for each end of a ring.  Closing a descriptor clears the flag whatever
other descriptors there are, and leaves its own entry in use.  So a read can report the end of the
file while there is a descriptor to write to, and a ring can be taken again while there are
descriptors for its last pipe (`eof_and_mix`).

* `pipe_streams_intact` : in a run without such calls (`Careful`), the bytes delivered are the first
  of the bytes accepted, and a read reports the end of the file only when all descriptors for the
  write end are closed and all bytes are delivered.
-/

namespace Cyanos.Vfs

open Lib Function List Option Nat

/-- The bytes that went through a pipe. -/
structure Stream where
  /-- Accepted by writes. -/
  accepted : List UInt8
  /-- Given to readers. -/
  delivered : List UInt8
  deriving DecidableEq

/-- An end of a pipe. -/
structure PipeEnd where
  /-- The number of the pipe. -/
  pipe : ℕ
  /-- A close of the descriptor has replied `0`. -/
  closed : Bool
  deriving DecidableEq

/-- The server with what went through its pipes. -/
structure Piped where
  vfs : State
  /-- The number of the next call. -/
  next : ℕ
  /-- By the number of the pipe. -/
  streams : ℕ → Stream
  /-- The end that an entry is, if it is one. -/
  ends : Fin maxProcs → Fin maxFds → PipeEnd

namespace Piped

/-- Before the first call. -/
def start : Piped := ⟨boot, 0, fun _ => ⟨[], []⟩, fun _ _ => ⟨0, false⟩⟩

/-- Bytes delivered from the pipe of an entry, if it is a read end. -/
def deliver (s : Piped) (t : Fin maxProcs) (i : Fin maxFds) (bytes : List UInt8) : ℕ → Stream :=
  match (s.vfs.fd t i).kind with
  | .pipe _ false =>
    let k := (s.ends t i).pipe
    Function.update s.streams k ⟨(s.streams k).accepted, (s.streams k).delivered ++ bytes⟩
  | _ => s.streams

/-- Bytes accepted for the pipe of an entry, if it is a write end. -/
def accept (s : Piped) (t : Fin maxProcs) (i : Fin maxFds) (bytes : List UInt8) : ℕ → Stream :=
  match (s.vfs.fd t i).kind with
  | .pipe _ true =>
    let k := (s.ends t i).pipe
    Function.update s.streams k ⟨(s.streams k).accepted ++ bytes, (s.streams k).delivered⟩
  | _ => s.streams

/-- The streams after a call: the bytes that a read stored were delivered, and as many bytes as a
write replied were accepted. -/
def record (s : Piped) (env : Env) (pid : ℕ) (req : Request) (reply : Reply) : ℕ → Stream :=
  match req with
  | .read n _ _ =>
    match s.vfs.target (maxFds + 1) pid n with
    | some (some (t, i)) => s.deliver t i reply.bytes
    | _ => s.streams
  | .write n buf _ =>
    match s.vfs.target (maxFds + 1) pid n with
    | some (some (t, i)) => s.accept t i (loadBytes env.mem buf reply.value.toNat)
    | _ => s.streams
  | _ => s.streams

/-- The ends after a call: a copy is an end of the same pipe, which was not closed. -/
def relabel (s : Piped) (pid : ℕ) (req : Request) (t : Fin maxProcs) (i : Fin maxFds) : PipeEnd :=
  match req.source s.vfs pid t i with
  | some (t₀, i₀) =>
    ⟨(s.ends t₀ i₀).pipe,
      if (t, i) = (t₀, i₀) then
        (s.ends t i).closed ||
          match req with
          | .close n => s.vfs.descriptor pid n == some (t, i)
          | _ => false
      else false⟩
  | none => ⟨s.next, false⟩

/-- The server after a call. -/
def step (s : Piped) (c : Call) : Option Piped :=
  (handle s.vfs c.env c.msg c.pid).map fun (v, reply) =>
    ⟨v, s.next + 1, s.record c.env c.pid c.msg.decode reply, s.relabel c.pid c.msg.decode⟩

end Piped

/-! ### Calls that keep the streams apart -/

/-- A pipe takes a ring for which there is no descriptor; the last descriptor for a write end is the
only one to be closed while the end is open; and a descriptor for a write end is copied while the
end is open. -/
def Careful (v : State) (pid : ℕ) : Request → Prop
  | .pipe _ _ => ∀ r, v.freeRing = some r →
    ∀ t i, v.Open t i → (v.fd t i).kind ≠ .pipe r false ∧ (v.fd t i).kind ≠ .pipe r true
  | .close n => ∀ t i, v.descriptor pid n = some (t, i) →
    ∀ r, (v.fd t i).kind = .pipe r true → (v.rings r).writeOpen = true →
      ∀ t' i', v.Open t' i' → (v.fd t' i').kind = .pipe r true → (t', i') = (t, i)
  | .dup2 oldfd _ | .allocFd oldfd => ∀ t i, v.descriptor pid oldfd = some (t, i) →
    ∀ r, (v.fd t i).kind = .pipe r true → (v.rings r).writeOpen = true
  | .forkDup parentPid _ => ∀ t, v.findTbl parentPid = some t →
    ∀ i, (v.fd t i).inUse = true → ∀ r, (v.fd t i).kind = .pipe r true →
      (v.rings r).writeOpen = true
  | _ => True

instance (v : State) (pid : ℕ) (req : Request) : Decidable (Careful v pid req) := by
  rcases req <;> dsimp only [Careful] <;> infer_instance

/-! ### The invariant -/

/-- `holder r` is the pipe that uses the ring `r`.  All descriptors for the ring are ends of it, and
what it has accepted is what it has delivered and what is in the ring. -/
structure PipeInv (s : Piped) (holder : Fin maxPipes → Option ℕ) : Prop where
  held : ∀ t i r b, s.vfs.Open t i → (s.vfs.fd t i).kind = .pipe r b →
    holder r = some (s.ends t i).pipe
  inj : ∀ r r' k, holder r = some k → holder r' = some k → r = r'
  closed : ∀ t i r, s.vfs.Open t i → (s.vfs.fd t i).kind = .pipe r true →
    (s.ends t i).closed = !(s.vfs.rings r).writeOpen
  queue : ∀ r, ∃ l, (s.vfs.rings r).Holds l ∧
    ∀ k, holder r = some k → (s.streams k).accepted = (s.streams k).delivered ++ l
  lt : ∀ r k, holder r = some k → k < s.next
  ordered : ∀ k, (s.streams k).delivered <+: (s.streams k).accepted
  fresh : ∀ k, s.next ≤ k → s.streams k = ⟨[], []⟩

variable {v v' : State} {s : Piped} {env : Env} {pid : ℕ} {req : Request} {reply : Reply}
  {t t₀ : Fin maxProcs} {i i₀ : Fin maxFds} {r : Fin maxPipes} {holder : Fin maxPipes → Option ℕ}

/-! ### Ends -/

/-- Only a pipe request that finds a ring makes ends. -/
theorem source_of_pipe {b : Bool} (h : serve v env pid req = some (v', reply))
    (hreq : ∀ p q, req = .pipe p q → v.freeRing = none) (ho : v'.Open t i) (hk : (v'.fd t i).kind = .pipe r b) :
    ∃ t₀ i₀, req.source v pid t i = some (t₀, i₀) ∧ v.Open t₀ i₀ ∧
      (v.fd t₀ i₀).kind = .pipe r b := by
  rcases serve_open h ho with ⟨t₀, i₀, hs, ho0, hobj⟩ | ⟨-, -, hmade⟩
  · rw [hk] at hobj
    exact ⟨t₀, i₀, hs, ho0, VnodeKind.object_eq_pipe.1 hobj.symm⟩
  · rw [hk] at hmade
    cases hmade with
    | «open» _ hopen =>
      cases openKind_effect hopen with
      | same _ hplain => cases hplain _ rfl
    | pipe _ hr => cases hr.symm.trans (hreq _ _ rfl)

theorem Piped.closed_relabel (hs : req.source s.vfs pid t i = some (t₀, i₀))
    (hreq : ∀ n, req ≠ .close n) :
    (s.relabel pid req t i).closed = if (t, i) = (t₀, i₀) then (s.ends t i).closed else false := by
  cases req with
  | close n => exact absurd rfl (hreq n)
  | _ => simp only [relabel, hs, Bool.or_false]

namespace PipeInv

section

variable (hi : PipeInv s holder) (h : serve s.vfs env pid req = some (v', reply))
include hi h

theorem closed_relabel (hc : Careful s.vfs pid req)
    (hreq : ∀ p q, req = .pipe p q → s.vfs.freeRing = none) (hclose : ∀ n, req ≠ .close n)
    (hw : (v'.rings r).writeOpen = (s.vfs.rings r).writeOpen)
    (ho : v'.Open t i) (hk : (v'.fd t i).kind = .pipe r true) :
    (s.relabel pid req t i).closed = !(v'.rings r).writeOpen := by
  obtain ⟨t₀, i₀, hs, ho0, hk0⟩ := source_of_pipe h hreq ho hk
  rw [Piped.closed_relabel hs hclose, hw]
  split
  · next heq =>
    cases heq
    exact hi.closed t i r ho0 hk0
  · next hne =>
    -- a careful request copies a write end only while the end is open
    suffices hopen : (s.vfs.rings r).writeOpen = true by rw [hopen, Bool.not_true]
    rcases Request.source_eq_some hs with
      heq | ⟨oldfd, newfd, rfl, hd⟩ | ⟨oldfd, rfl, hd⟩ | ⟨p, c, rfl, hp⟩
    · exact absurd heq hne
    · exact hc t₀ i₀ hd r hk0
    · exact hc t₀ i₀ hd r hk0
    · exact hc t₀ hp i₀ ho0.2 r hk0

/-- A request that makes no ends keeps the invariant if it does so for what is in the rings and what
is closed. -/
theorem advance {streams : ℕ → Stream}
    (hreq : ∀ p q, req = .pipe p q → s.vfs.freeRing = none)
    (hclosed : ∀ t i r, v'.Open t i → (v'.fd t i).kind = .pipe r true →
      (s.relabel pid req t i).closed = !(v'.rings r).writeOpen)
    (hqueue : ∀ r, ∃ l, (v'.rings r).Holds l ∧
      ∀ k, holder r = some k → (streams k).accepted = (streams k).delivered ++ l)
    (hordered : ∀ k, (streams k).delivered <+: (streams k).accepted)
    (hfresh : ∀ k, s.next ≤ k → streams k = ⟨[], []⟩) :
    PipeInv ⟨v', s.next + 1, streams, s.relabel pid req⟩ holder where
  held t i r b ho hk := by
    -- copies and surviving ends are ends of the pipe that uses their ring
    obtain ⟨t₀, i₀, hs, ho0, hk0⟩ := source_of_pipe h hreq ho hk
    simp only [Piped.relabel, hs]
    exact hi.held t₀ i₀ r b ho0 hk0
  inj := hi.inj
  closed := hclosed
  queue := hqueue
  lt r k hk := lt_succ_of_lt (hi.lt r k hk)
  ordered := hordered
  fresh k hk := hfresh k (le_of_succ_le hk)

section

variable (hc : Careful s.vfs pid req)
  (hreq : ∀ p q, req = .pipe p q → s.vfs.freeRing = none) (hclose : ∀ n, req ≠ .close n)
include hc hreq hclose

/-- A request that changes no ring. -/
theorem advance_same (hrings : v'.rings = s.vfs.rings)
    (hrec : s.record env pid req reply = s.streams) :
    PipeInv ⟨v', s.next + 1, s.record env pid req reply, s.relabel pid req⟩ holder := by
  rw [hrec]
  refine hi.advance h hreq (fun t i r ho hk => ?_) (fun r => ?_) hi.ordered hi.fresh
  · exact hi.closed_relabel h hc hreq hclose (by rw [hrings]) ho hk
  · rw [hrings]
    exact hi.queue r

/-- A request that changes one ring, and the stream of the pipe that uses it accordingly. -/
theorem advance_ring {k : ℕ} {ring : PipeRing} {l : List UInt8} {st : Stream}
    (hk : holder r = some k) (hrings : v'.rings = update s.vfs.rings r ring)
    (hring : ring.Holds l) (hw : ring.writeOpen = (s.vfs.rings r).writeOpen)
    (hst : st.accepted = st.delivered ++ l) :
    PipeInv ⟨v', s.next + 1, update s.streams k st, s.relabel pid req⟩ holder := by
  refine hi.advance h hreq (fun t i r' ho hk' => ?_) (fun r' => ?_) (fun k' => ?_) (fun k' hk' => ?_)
  · refine hi.closed_relabel h hc hreq hclose ?_ ho hk'
    rw [hrings]
    by_cases hr : r' = r
    · rw [hr, update_self, hw]
    · rw [update_of_ne hr]
  · rw [hrings]
    by_cases hr : r' = r
    · subst hr
      rw [update_self]
      refine ⟨l, hring, fun k' hk' => ?_⟩
      obtain rfl := mem_unique hk hk'
      rwa [update_self]
    · rw [update_of_ne hr]
      obtain ⟨l', hl', hq⟩ := hi.queue r'
      refine ⟨l', hl', fun k' hk' => ?_⟩
      -- The pipe of another ring is another pipe.
      have hne : k' ≠ k := fun heq => hr (hi.inj r' r k (heq ▸ hk') hk)
      rw [update_of_ne hne]
      exact hq k' hk'
  · by_cases hkk : k' = k
    · subst hkk
      rw [update_self, hst]
      exact prefix_append _ _
    · rw [update_of_ne hkk]
      exact hi.ordered k'
  · have hlt := hi.lt r k hk
    rw [update_of_ne (by omega)]
    exact hi.fresh k' hk'

end

end

end PipeInv

/-! ### Reads and writes -/

/-- A read of a pipe finds it empty, or takes the first bytes. -/
theorem readPipe_of_holds (buf count : ℕ) {l : List UInt8} (hl : (v.rings r).Holds l) :
    (l = [] ∧ readPipe v r buf count =
        (v, if (v.rings r).writeOpen then errReply 11 else valReply 0 [])) ∨
      l ≠ [] ∧ ∃ ring, ring.Holds (l.drop (min count 4096)) ∧
        ring.writeOpen = (v.rings r).writeOpen ∧ readPipe v r buf count =
          (v.setRing r ring, valReply (l.take (min count 4096)).length
            [(buf, l.take (min count 4096))]) := by
  unfold readPipe
  by_cases hcount : (v.rings r).count = 0
  · exact .inl ⟨hl.nil_of_count hcount, if_pos hcount⟩
  · obtain ⟨ring, hdrain, hring, -, hw⟩ := PipeRing.holds_drain (min count 4096) hl
    refine .inr ⟨?_, ring, hring, hw, ?_⟩
    · rintro rfl
      exact hcount hl.count
    · rw [if_neg hcount, hdrain]

theorem Piped.deliver_nil (s : Piped) (t : Fin maxProcs) (i : Fin maxFds) :
    s.deliver t i [] = s.streams := by
  unfold deliver
  split
  · simp only [append_nil, update_eq_self]
  · rfl

theorem Piped.accept_nil (s : Piped) (t : Fin maxProcs) (i : Fin maxFds) :
    s.accept t i [] = s.streams := by
  unfold accept
  split
  · simp only [append_nil, update_eq_self]
  · rfl

namespace PipeInv

variable {n buf count p q : ℕ}

theorem read (hi : PipeInv s holder)
    (h : serve s.vfs env pid (.read n buf count) = some (v', reply)) :
    PipeInv ⟨v', s.next + 1, s.record env pid (.read n buf count) reply,
      s.relabel pid (.read n buf count)⟩ holder := by
  have hsame := hi.advance_same h trivial (fun _ _ => by simp) (fun _ => by simp)
  have hread : handleRead s.vfs env pid n buf count = some (v', reply) := h
  rcases handleRead_cases hread with
    ⟨rfl, ⟨-, rfl⟩ | ⟨htarget, rfl⟩⟩ | ⟨t, i, htarget, -, hentry, heff⟩
  · refine hsame rfl ?_
    simp only [Piped.record]
    split
    · exact s.deliver_nil _ _
    · rfl
  · refine hsame rfl ?_
    simp only [Piped.record, htarget]
  · have hrec : s.record env pid (.read n buf count) reply = s.deliver t i reply.bytes := by
      simp only [Piped.record, htarget]
    by_cases hk : ∃ r, (s.vfs.fd t i).kind = .pipe r false
    · obtain ⟨r, hk⟩ := hk
      have hopen := (State.target_eq_some htarget).2.1
      have hholder := hi.held t i r false hopen hk
      simp only [readEntry, hk] at hentry
      obtain ⟨l, hl, hq⟩ := hi.queue r
      rcases readPipe_of_holds buf count hl with
        ⟨-, hpipe⟩ | ⟨-, ring, hring, hw, hpipe⟩
      · cases hpipe.symm.trans hentry
        refine hsame rfl (hrec.trans ?_)
        split <;> exact s.deliver_nil t i
      · cases hpipe.symm.trans hentry
        rw [hrec]
        simp only [Piped.deliver, hk]
        refine hi.advance_ring h trivial (fun _ _ => by simp) (fun _ => by simp) hholder rfl hring
          hw ?_
        simp only [hq _ hholder, valReply, Reply.bytes, flatMap_cons, flatMap_nil,
          append_nil, append_assoc, take_append_drop]
    · refine hsame (heff.rings fun r hr => hk ⟨r, hr⟩) (hrec.trans ?_)
      unfold Piped.deliver
      split
      · next r hr => exact absurd ⟨r, hr⟩ hk
      · rfl

theorem write (hi : PipeInv s holder)
    (h : serve s.vfs env pid (.write n buf count) = some (v', reply)) :
    PipeInv ⟨v', s.next + 1, s.record env pid (.write n buf count) reply,
      s.relabel pid (.write n buf count)⟩ holder := by
  have hsame := hi.advance_same h trivial (fun _ _ => by simp) (fun _ => by simp)
  have hwrite : handleWrite s.vfs env pid n buf count = some (v', reply) := h
  rcases handleWrite_cases hwrite with
    ⟨rfl, ⟨-, rfl⟩ | ⟨htarget, rfl⟩⟩ | ⟨t, i, htarget, -, hentry, heff⟩
  · refine hsame rfl ?_
    simp only [Piped.record]
    split
    · exact s.accept_nil _ _
    · rfl
  · refine hsame rfl ?_
    simp only [Piped.record, htarget]
  · have hrec : s.record env pid (.write n buf count) reply =
        s.accept t i (loadBytes env.mem buf reply.value.toNat) := by
      simp only [Piped.record, htarget]
    by_cases hk : ∃ r, (s.vfs.fd t i).kind = .pipe r true
    · obtain ⟨r, hk⟩ := hk
      have hopen := (State.target_eq_some htarget).2.1
      have hholder := hi.held t i r true hopen hk
      obtain ⟨l, hl, hq⟩ := hi.queue r
      obtain ⟨m, ring, hfill, hm, hring, -, hw⟩ := PipeRing.holds_fill env.mem count buf hl
      simp only [writeEntry, hk, writePipe, hfill] at hentry
      split at hentry <;> cases hentry
      · have hlt : m < 2 ^ 63 := lt_of_le_of_lt hm (by decide)
        have hvalue : (valReply m []).value.toNat = m := by rw [value_valReply hlt, Int.toNat_natCast]
        rw [hrec, hvalue]
        simp only [Piped.accept, hk]
        refine hi.advance_ring h trivial (fun _ _ => by simp) (fun _ => by simp) hholder rfl hring
          hw ?_
        simp only [hq _ hholder, append_assoc]
      · exact hsame rfl (hrec.trans (s.accept_nil t i))
    · refine hsame (heff.rings fun r hr => hk ⟨r, hr⟩) (hrec.trans ?_)
      unfold Piped.accept
      split
      · next r hr => exact absurd ⟨r, hr⟩ hk
      · rfl

/-! ### Closing and making pipes -/

theorem close (hi : PipeInv s holder) (hc : Careful s.vfs pid (.close n))
    (h : serve s.vfs env pid (.close n) = some (v', reply)) :
    PipeInv ⟨v', s.next + 1, s.streams, s.relabel pid (.close n)⟩ holder := by
  have hclose := handleClose_effect (some.inj h)
  refine hi.advance h (fun _ _ => by simp) (fun t i r ho' hk' => ?_) (fun r => ?_) hi.ordered
    hi.fresh
  · have ho : s.vfs.Open t i := (hclose.open_iff.1.1 ho').1
    have hk : (s.vfs.fd t i).kind = .pipe r true := (hclose.open_iff.2 ho').symm.trans hk'
    simp only [Piped.relabel, show (Request.close n).source s.vfs pid t i = some (t, i) from if_pos ho,
      if_true, hi.closed t i r ho hk]
    rcases hclose.rings with ⟨t₀, i₀, r₀, b, hd, hk0, hrings⟩ | ⟨hrings, hother⟩
    · rw [hrings, hd]
      by_cases hr : r = r₀ ∧ b = true
      · obtain ⟨rfl, rfl⟩ := hr
        rw [update_self, PipeRing.closeEnd, if_pos rfl]
        -- The entry was closed before, or it is the one that is closed now.
        cases hw : (s.vfs.rings r).writeOpen with
        | false => rfl
        | true => simp [hc t₀ i₀ hd r hk0 hw t i ho hk]
      · have hne : (t₀, i₀) ≠ (t, i) := by
          intro heq
          cases heq
          cases hk0.symm.trans hk
          exact hr ⟨rfl, rfl⟩
        have hw : (update s.vfs.rings r₀ ((s.vfs.rings r₀).closeEnd b) r).writeOpen =
            (s.vfs.rings r).writeOpen := by
          by_cases hrr : r = r₀
          · subst hrr
            have hread : b = false := by simpa using hr
            rw [update_self, hread]
            rfl
          · rw [update_of_ne hrr]
        have hbeq : (some (t₀, i₀) == some (t, i)) = false :=
          beq_eq_false_iff_ne.2 fun heq => hne (some.inj heq)
        rw [hw, hbeq, Bool.or_false]
    · have hbeq : (s.vfs.descriptor pid n == some (t, i)) = false :=
        beq_eq_false_iff_ne.2 fun hd => hother t i hd r true hk
      rw [hrings, hbeq, Bool.or_false]
  · obtain ⟨l, hl, hq⟩ := hi.queue r
    refine ⟨l, ?_, hq⟩
    rcases hclose.rings with ⟨t₀, i₀, r₀, b, -, -, hrings⟩ | ⟨hrings, -⟩
    · rw [hrings]
      by_cases hr : r = r₀
      · subst hr
        rw [update_self]
        cases b <;> exact ⟨hl.queued, hl.count⟩
      · rwa [update_of_ne hr]
    · rwa [hrings]

/-- An end after a pipe request was one before it, or is a new one for the free ring. -/
theorem ends_of_pipe {b : Bool} (h : serve s.vfs env pid (.pipe p q) = some (v', reply))
    (ho : v'.Open t i) (hk : (v'.fd t i).kind = .pipe r b) :
    (s.vfs.Open t i ∧ (s.vfs.fd t i).kind = .pipe r b ∧
        s.relabel pid (.pipe p q) t i = s.ends t i) ∨
      s.vfs.freeRing = some r ∧ s.relabel pid (.pipe p q) t i = ⟨s.next, false⟩ := by
  rcases serve_open h ho with ⟨t₀, i₀, hs, ho0, hobj⟩ | ⟨hs, -, hmade⟩
  · cases State.self_eq_some hs
    rw [hk] at hobj
    refine .inl ⟨ho0, VnodeKind.object_eq_pipe.1 hobj.symm, ?_⟩
    simp only [Piped.relabel, hs, if_true, Bool.or_false]
  · rw [hk] at hmade
    cases hmade with
    | pipe _ hr => exact .inr ⟨hr, by simp only [Piped.relabel, hs]⟩

/-- A ring without descriptors can have a new pipe. -/
theorem pipe_ring {p q : ℕ} {r₀ : Fin maxPipes} (hi : PipeInv s holder)
    (hc : Careful s.vfs pid (.pipe p q)) (hr₀ : s.vfs.freeRing = some r₀)
    (h : serve s.vfs env pid (.pipe p q) = some (v', reply))
    (hrings : v'.rings = update s.vfs.rings r₀
      { s.vfs.rings r₀ with readOpen := true, writeOpen := true }) :
    PipeInv ⟨v', s.next + 1, s.streams, s.relabel pid (.pipe p q)⟩
      (update holder r₀ (some s.next)) := by
  have hunused : ∀ {t i r b}, s.vfs.Open t i → (s.vfs.fd t i).kind = .pipe r b → r ≠ r₀ := by
    rintro t i r b ho hk rfl
    obtain ⟨hread, hwrite⟩ := hc r hr₀ t i ho
    cases b with
    | false => exact hread hk
    | true => exact hwrite hk
  -- The number of the new pipe is not in use.
  have hnew : ∀ r, holder r ≠ some s.next := fun r hr => lt_irrefl _ (hi.lt r _ hr)
  constructor
  case held =>
    intro t i r b ho hk
    rcases ends_of_pipe h ho hk with ⟨ho, hk, hlabel⟩ | ⟨hr, hlabel⟩
    · simp only [hlabel]
      rw [update_of_ne (hunused ho hk)]
      exact hi.held t i r b ho hk
    · obtain rfl := mem_unique hr₀ hr
      simp only [hlabel, update_self]
  case inj =>
    intro r r' k hk hk'
    rw [update_apply] at hk hk'
    split at hk
    · next hr =>
      split at hk'
      · next hr' => rw [hr, hr']
      · rw [← hk] at hk'
        exact absurd hk' (hnew r')
    · split at hk'
      · rw [← hk'] at hk
        exact absurd hk (hnew r)
      · exact hi.inj r r' k hk hk'
  case closed =>
    intro t i r ho hk
    simp only [hrings]
    rcases ends_of_pipe h ho hk with ⟨ho, hk, hlabel⟩ | ⟨hr, hlabel⟩
    · rw [hlabel, update_of_ne (hunused ho hk)]
      exact hi.closed t i r ho hk
    · obtain rfl := mem_unique hr₀ hr
      rw [hlabel, update_self]
      rfl
  case queue =>
    intro r
    simp only [hrings]
    obtain ⟨l, hl, hq⟩ := hi.queue r
    by_cases hr : r = r₀
    · subst hr
      rw [update_self, update_self]
      have hfree := (position_eq_some.1 hr₀).1
      simp only [PipeRing.isFree, Bool.and_eq_true, beq_iff_eq] at hfree
      obtain rfl := hl.nil_of_count hfree.2
      refine ⟨[], ⟨hl.queued, hl.count⟩, fun k hk => ?_⟩
      cases hk
      simp [hi.fresh s.next (le_refl _)]
    · rw [update_of_ne hr, update_of_ne hr]
      exact ⟨l, hl, hq⟩
  case lt =>
    intro r k hk
    rw [update_apply] at hk
    split at hk
    · exact some.inj hk ▸ lt_succ_self _
    · exact lt_succ_of_lt (hi.lt r k hk)
  case ordered => exact hi.ordered
  case fresh => exact fun k hk => hi.fresh k (le_of_succ_le hk)

/-- **Every careful request keeps the invariant.** -/
theorem serve {holder : Fin maxPipes → Option ℕ} (hi : PipeInv s holder)
    (hc : Careful s.vfs pid req) (h : serve s.vfs env pid req = some (v', reply)) :
    ∃ holder', PipeInv ⟨v', s.next + 1, s.record env pid req reply, s.relabel pid req⟩ holder' := by
  by_cases hreq : req.usesRings = true
  · cases req with
    | read => exact ⟨holder, hi.read h⟩
    | write => exact ⟨holder, hi.write h⟩
    | close => exact ⟨holder, hi.close hc h⟩
    | pipe =>
      obtain ⟨x, heff⟩ := handlePipe_effect (some.inj h)
      rcases heff.rings with ⟨hnone, hrings⟩ | ⟨r, hr, hrings⟩
      · exact ⟨holder, hi.advance_same h hc (fun _ _ _ => hnone) (fun _ => by simp) hrings rfl⟩
      · exact ⟨_, hi.pipe_ring hc hr h hrings⟩
    | _ => cases hreq
  · have hfalse : req.usesRings = false := by simpa using hreq
    have hrec : s.record env pid req reply = s.streams := by
      cases req with
      | read | write => cases hfalse
      | _ => rfl
    refine ⟨holder, hi.advance_same h hc ?_ ?_ ((serve_spares h).rings hfalse) hrec⟩
    · rintro p q rfl
      cases hfalse
    · rintro n rfl
      cases hfalse

theorem start : PipeInv .start fun _ => none where
  held t i r b ho hk := by
    cases (boot_kind ho).symm.trans hk
  inj r r' k hk := by cases hk
  closed t i r ho hk := by
    cases (boot_kind ho).symm.trans hk
  queue r := by
    have hring : Piped.start.vfs.rings r = .new := congrFun boot_sameObjects.rings r
    exact ⟨[], hring ▸ PipeRing.holds_new, fun k hk => by cases hk⟩
  lt r k hk := by cases hk
  ordered k := prefix_refl _
  fresh k _ := rfl

theorem step {c : Call} {s' : Piped} (hi : ∃ holder, PipeInv s holder)
    (hc : Careful s.vfs c.pid c.msg.decode) (h : s.step c = some s') :
    ∃ holder, PipeInv s' holder := by
  obtain ⟨holder, hi⟩ := hi
  obtain ⟨⟨v', reply⟩, hhandle, rfl⟩ := map_eq_some_iff.1 h
  exact hi.serve hc hhandle

/-- Where a read reports the end of the file, the ends to write to are closed and the ring is
empty. -/
theorem endOfFile (hi : PipeInv s holder)
    (h : handleRead s.vfs env pid n buf count = some (v', reply)) (hcount : count ≠ 0)
    (htarget : s.vfs.target (maxFds + 1) pid n = some (some (t, i)))
    (hk : (s.vfs.fd t i).kind = .pipe r false) (hreply : reply.value = 0) :
    (∀ t' i' r', s.vfs.Open t' i' → (s.vfs.fd t' i').kind = .pipe r' true →
        (s.ends t' i').pipe = (s.ends t i).pipe → (s.ends t' i').closed = true) ∧
      (s.streams (s.ends t i).pipe).delivered = (s.streams (s.ends t i).pipe).accepted := by
  have hholder := hi.held t i r false (State.target_eq_some htarget).2.1 hk
  obtain ⟨l, hl, hq⟩ := hi.queue r
  have hentry : readEntry s.vfs env t i buf count = (v', reply) := by
    rcases handleRead_cases h with ⟨-, ⟨h0, -⟩ | ⟨hbad, -⟩⟩ | ⟨t', i', htarget', -, hentry, -⟩
    · exact absurd h0 hcount
    · rw [htarget] at hbad
      cases hbad
    · rw [htarget] at htarget'
      cases htarget'
      exact hentry
  simp only [readEntry, hk] at hentry
  rcases readPipe_of_holds buf count hl with
    ⟨rfl, hpipe⟩ | ⟨hne, ring, -, -, hpipe⟩
  · cases hpipe.symm.trans hentry
    have hclosed : (s.vfs.rings r).writeOpen = false := by
      by_contra hw
      rw [Bool.not_eq_false] at hw
      simp [hw, errReply] at hreply
    refine ⟨fun t' i' r' ho' hk' hpipe' => ?_, by simp [hq _ hholder]⟩
    obtain rfl := hi.inj r' r _ (hi.held t' i' r' true ho' hk') (hpipe' ▸ hholder)
    rw [hi.closed t' i' r' ho' hk', hclosed, Bool.not_false]
  · -- Some bytes were read.
    cases hpipe.symm.trans hentry
    have hlen : (l.take (min count 4096)).length < 2 ^ 63 := by
      rw [length_take]
      omega
    have hpos : 0 < l.length := length_pos_iff.2 hne
    rw [value_valReply hlen, length_take] at hreply
    omega

end PipeInv

/-- **Pipe streams are intact in a run of careful calls.**  The bytes delivered from a pipe are the
first of the bytes that it accepted.  A read of an end reports the end of the file only when every
descriptor to write to the pipe is closed and every byte was delivered. -/
theorem pipe_streams_intact
    (h : Run Piped.step (fun s c => Careful s.vfs c.pid c.msg.decode) .start s) :
    (∀ k, (s.streams k).delivered <+: (s.streams k).accepted) ∧
      ∀ (c : Call) (n buf count : ℕ) t i r v' reply, c.msg.decode = .read n buf count → count ≠ 0 →
        s.vfs.target (maxFds + 1) c.pid n = some (some (t, i)) →
        (s.vfs.fd t i).kind = .pipe r false →
        handle s.vfs c.env c.msg c.pid = some (v', reply) → reply.value = 0 →
        (∀ t' i' r', s.vfs.Open t' i' → (s.vfs.fd t' i').kind = .pipe r' true →
            (s.ends t' i').pipe = (s.ends t i).pipe → (s.ends t' i').closed = true) ∧
          (s.streams (s.ends t i).pipe).delivered = (s.streams (s.ends t i).pipe).accepted := by
  obtain ⟨holder, hi⟩ := h.invariant ⟨_, .start⟩
    fun _ _ _ hi hc hstep => PipeInv.step hi hc hstep
  refine ⟨hi.ordered, fun c n buf count t i r v' reply hmsg hcount htarget hk hhandle hreply => ?_⟩
  rw [handle, hmsg] at hhandle
  exact hi.endOfFile hhandle hcount htarget hk hreply

/-- A process makes a pipe, writes two bytes, reads them and closes the end to write to. -/
def pipeCalls : List Call :=
  [.ofBytes [7, 8] 1 0x17 8192 8196 0, .ofBytes [7, 8] 1 0x12 4 4096 2,
    .ofBytes [] 1 0x11 3 4096 9, .ofBytes [] 1 0x13 4 0 0]

/-- A read of the end to read from. -/
def pipeRead : Call := .ofBytes [] 1 0x11 3 4096 9

theorem pipe_streams_intact_two_bytes :
    ∃ s, Run Piped.step (fun s c => Careful s.vfs c.pid c.msg.decode) .start s ∧
      (s.streams 0 = ⟨[7, 8], [7, 8]⟩ ∧
        s.vfs.target (maxFds + 1) pipeRead.pid 3 = some (some (0, 3)) ∧
        (s.vfs.fd 0 3).kind = .pipe 0 false ∧
        (handle s.vfs pipeRead.env pipeRead.msg pipeRead.pid).map (·.2.value) = some 0 ∧
        s.vfs.Open 0 4 ∧ (s.vfs.fd 0 4).kind = .pipe 0 true ∧
        (s.ends 0 4).pipe = (s.ends 0 3).pipe) ∧
      (s.streams 0).delivered <+: (s.streams 0).accepted ∧ (s.ends 0 4).closed = true := by
  refine Run.exists_guarded_with pipeCalls (by decide +kernel) fun s hrun hp => ?_
  obtain ⟨-, htarget, hk, hreply, hopen, hk', hsame⟩ := hp
  obtain ⟨⟨v', reply⟩, hhandle, hvalue⟩ := map_eq_some_iff.1 hreply
  obtain ⟨hordered, heof⟩ := pipe_streams_intact hrun
  obtain ⟨hclosed, -⟩ := heof pipeRead 3 4096 9 0 3 0 v' reply rfl (by decide) htarget hk hhandle hvalue
  exact ⟨hordered 0, hclosed 0 4 0 hopen hk' hsame⟩

/-- A child closes its copy of the end to write to; a ring is used again while there is a descriptor
for its last pipe.  In the first run a read reports the end of the file and the parent has not
closed its end; in the second one a byte is read that was not written to the pipe. -/
theorem eof_and_mix :
    (∃ s, Reach Piped.step .start s ∧
      (handle s.vfs pipeRead.env pipeRead.msg pipeRead.pid).map (·.2.value) = some 0 ∧
      s.vfs.target (maxFds + 1) pipeRead.pid 3 = some (some (0, 3)) ∧
      (s.vfs.fd 0 3).kind = .pipe 0 false ∧ s.vfs.Open 0 4 ∧
      (s.vfs.fd 0 4).kind = .pipe 0 true ∧ s.ends 0 4 = ⟨(s.ends 0 3).pipe, false⟩) ∧
    ∃ s, Reach Piped.step .start s ∧ ¬ (s.streams 0).delivered <+: (s.streams 0).accepted := by
  constructor
  · exact Run.exists_of_foldlM
      [.ofBytes [] 1 0x17 8192 8196 0, .ofBytes [] 1 0x1A 1 2 0, .ofBytes [] 2 0x13 4 0 0]
      (by decide +kernel)
  · exact Run.exists_of_foldlM
      [.ofBytes [] 1 0x17 8192 8196 0, .ofBytes [] 1 0x13 3 0 0, .ofBytes [] 1 0x13 4 0 0,
        .ofBytes [] 1 0x17 8192 8196 0, .ofBytes [7] 1 0x12 6 4096 1, .ofBytes [] 1 0x11 3 4096 1]
      (by decide +kernel)

end Cyanos.Vfs
