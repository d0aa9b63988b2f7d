import Cyanos.Servers.Vfs.Effects

/-!
# Reads of a periodic timer

A timer with the first deadline `d` and the interval `i` has expired `expirationsBy d i now` times
at the tick `now`.  A read gives the expirations since the one before and moves the deadline behind
the tick it is made at.

* `timer_reads` : **the reads of a periodic timer give every expiration**.
-/

namespace Cyanos.Vfs

open Lib State List Nat

/-- The expirations up to the tick `now`. -/
def expirationsBy (deadline interval now : ℕ) : ℕ :=
  if now < deadline then 0 else (now - deadline) / interval + 1

/-- A read: what it finds, and its arguments. -/
structure TimerRead where
  env : Env
  buf : ℕ
  count : ℕ

namespace TimerRead

/-- The tick of the read. -/
def now (r : TimerRead) : ℕ := r.env.ticks 0

/-- The reply to a read that gives `n` expirations.  A read of less than 8 bytes gives none. -/
def reply (r : TimerRead) (n : ℕ) : Reply :=
  if r.count = 0 then valReply 0 []
  else if r.count < 8 then errReply 22
  else if n = 0 then errReply 11
  else valReply 8 [(r.buf, leBytes 8 n)]

end TimerRead

/-- One read of a descriptor after the other. -/
def readAll (pid fd : ℕ) : State → List TimerRead → Option (State × List Reply)
  | v, [] => some (v, [])
  | v, r :: rs => do
    let (v, reply) ← handleRead v r.env pid fd r.buf r.count
    let (v, replies) ← readAll pid fd v rs
    pure (v, reply :: replies)

/-- After `given` expirations, the reads give the others: those up to each read of 8 bytes or more,
together. -/
def GivesAll (pid fd d i given : ℕ) (v : State) (rs : List TimerRead) : Prop :=
  ∃ w ns, readAll pid fd v rs = some (w, zipWith TimerRead.reply rs ns) ∧
    ns.length = rs.length ∧ ∀ k r, rs[k]? = some r →
      if r.count < 8 then ns[k]? = some 0
      else given + (ns.take (k + 1)).sum = expirationsBy d i r.now

variable {v : State} {pid fd d i given now : ℕ} {t : Fin maxProcs} {j : Fin maxFds}
  {s : Fin maxTimerfds} {r : TimerRead} {rs : List TimerRead}

theorem expirationsBy_mono {now' : ℕ} (h : now ≤ now') :
    expirationsBy d i now ≤ expirationsBy d i now' := by
  have hdiv : (now - d) / i ≤ (now' - d) / i := Nat.div_le_div_right (by omega)
  unfold expirationsBy
  generalize (now - d) / i = a, (now' - d) / i = b at hdiv ⊢
  split_ifs <;> omega

theorem expire_eq (hi : 0 < i) (hle : given ≤ expirationsBy d i now)
    (hfits : d + expirationsBy d i now * i < 2 ^ 64) :
    TimerFdEntry.expire ⟨true, d + given * i, i, 0⟩ now =
      ⟨true, d + expirationsBy d i now * i, i, expirationsBy d i now - given⟩ := by
  unfold TimerFdEntry.expire
  by_cases hdue : d + given * i ≤ now
  · have hextra : (now - (d + given * i)) / i + 1 = expirationsBy d i now - given := by
      have hdiv : given ≤ (now - d) / i := (le_div_iff_mul_le hi).2 (by omega)
      rw [expirationsBy, if_neg (by omega), ← Nat.sub_sub, Nat.mul_comm, Nat.sub_mul_div]
      omega
    have hmul : expirationsBy d i now ≤ expirationsBy d i now * i := Nat.le_mul_of_pos_right _ hi
    have hsum : given * i + (expirationsBy d i now - given) * i = expirationsBy d i now * i := by
      rw [← Nat.add_mul, Nat.add_sub_cancel' hle]
    simp only [hdue, hi, wadd, hextra, and_self, if_true, zero_add, add_assoc, hsum,
      mod_eq_of_lt hfits, mod_eq_of_lt (show expirationsBy d i now - given < 2 ^ 64 by omega)]
  · have hsame : expirationsBy d i now = given := by
      refine le_antisymm ?_ hle
      unfold expirationsBy
      split_ifs
      · exact zero_le given
      · exact (div_lt_iff_lt_mul hi).2 (by omega)
    simp [hdue, hsame]

theorem GivesAll.cons {n : ℕ} {v' : State}
    (hread : handleRead v r.env pid fd r.buf r.count = some (v', r.reply n))
    (hn : if r.count < 8 then n = 0 else given + n = expirationsBy d i r.now)
    (hrest : GivesAll pid fd d i (given + n) v' rs) : GivesAll pid fd d i given v (r :: rs) := by
  obtain ⟨w, ns, hrest, hlen, hsum⟩ := hrest
  refine ⟨w, n :: ns, ?_, by simp [hlen], fun k r' hr' => ?_⟩
  · simp only [readAll, hread, Option.bind_eq_bind, Option.bind_some, hrest]
    rfl
  · cases k with
    | zero =>
      cases hr'
      simpa using hn
    | succ k => simpa [add_assoc] using hsum k r' hr'

section

variable (hd : v.descriptor pid fd = some (t, j)) (hk : (v.fd t j).kind = .timerFd s)
include hd hk

theorem handleRead_short (hshort : r.count < 8) :
    handleRead v r.env pid fd r.buf r.count = some (v, r.reply 0) := by
  have htarget := target_of_descriptor hd (by simp [hk])
  rw [handleRead, handleReadWithin, htarget, TimerRead.reply]
  split_ifs with hnone
  · rfl
  · simp only [Option.map_some, readEntry, hk, if_pos hshort]

theorem handleRead_timer {e : TimerFdEntry} (hfull : ¬ r.count < 8)
    (he : (v.timers s).expire r.now = e) :
    handleRead v r.env pid fd r.buf r.count =
      some (v.setTimer s { e with expirations := 0 }, r.reply e.expirations) := by
  have htarget := target_of_descriptor hd (by simp [hk])
  have hsome : r.count ≠ 0 := by omega
  rw [handleRead, handleReadWithin, if_neg hsome, htarget, TimerRead.reply, if_neg hsome]
  simp only [Option.map_some, readEntry, hk, if_neg hfull]
  rw [show (v.timers s).expire (r.env.ticks 0) = e from he]
  split_ifs with hnone
  · rw [← hnone]
  · rfl

theorem givesAll (he : v.timers s = ⟨true, d + given * i, i, 0⟩) (hi : 0 < i)
    (hmono : rs.Pairwise fun r r' => r.now ≤ r'.now)
    (hle : ∀ r ∈ rs, given ≤ expirationsBy d i r.now)
    (hfits : ∀ r ∈ rs, d + expirationsBy d i r.now * i < 2 ^ 64) :
    GivesAll pid fd d i given v rs := by
  induction rs generalizing v given with
  | nil => exact ⟨v, [], rfl, rfl, fun k r hr => by simp at hr⟩
  | cons r rs ih =>
    obtain ⟨hfirst, hmono⟩ := pairwise_cons.1 hmono
    have hfits' := fun r' hr' => hfits r' (.tail r hr')
    by_cases hshort : r.count < 8
    · refine .cons (handleRead_short hd hk hshort) (by rw [if_pos hshort]) ?_
      exact ih hd hk he hmono (fun r' hr' => hle r' (.tail r hr')) hfits'
    · have hexp := expire_eq hi (hle r (.head _)) (hfits r (.head _))
      have hsum := Nat.add_sub_cancel' (hle r (.head _))
      refine .cons (handleRead_timer hd hk hshort (he ▸ hexp)) (by rwa [if_neg hshort]) ?_
      rw [hsum]
      exact ih hd hk (Function.update_self ..) hmono
        (fun r' hr' => expirationsBy_mono (hfirst r' hr')) hfits'

end

/-- **The reads of a periodic timer give every expiration.**  Let a timer be armed for the tick `d`
with an interval of `i` ticks, and be read at ticks that do not go back.  If no counter overflows,
what the reads up to one of them give together is the number of expirations up to its tick, and a
read that would give none replies `EAGAIN`. -/
theorem timer_reads {env : Env} {valueNs intervalNs : ℕ} (hd : v.descriptor pid fd = some (t, j))
    (hk : (v.fd t j).kind = .timerFd s) (hvalue : valueNs ≠ 0)
    (hdeadline : wadd (env.ticks 0) (max (valueNs / nsPerTick) 1) = d)
    (hinterval : intervalNs / nsPerTick = i) (hi : 1 ≤ i)
    (hmono : rs.Pairwise fun r r' => r.now ≤ r'.now)
    (hfits : ∀ r ∈ rs, d + expirationsBy d i r.now * i < 2 ^ 64) :
    GivesAll pid fd d i 0 (handleTimerfdSettime v env pid fd valueNs intervalNs).1 rs := by
  have hset : (handleTimerfdSettime v env pid fd valueNs intervalNs).1 =
      v.setTimer s ⟨true, d, i, 0⟩ := by
    simp only [handleTimerfdSettime, hd, hk, if_neg hvalue, hdeadline, hinterval]
  have he : (v.setTimer s ⟨true, d, i, 0⟩).timers s = ⟨true, d + 0 * i, i, 0⟩ := by
    rw [zero_mul]
    exact Function.update_self ..
  rw [hset]
  exact givesAll hd hk he hi hmono (fun _ _ => zero_le _) hfits

/-- Nothing to be found but a clock at `now`. -/
def clockAt (now : ℕ) : Env :=
  { (Call.ofBytes [] 1 0 0 0 0).env with ticks := fun _ => now }

/-- A timer of 10 ms and then every 20 ms, read at once, after 10 ms, twice after 60 ms, with a
buffer that is too small, and after 90 ms. -/
theorem timer_reads_often : GivesAll 1 3 1 2 0
    (handleTimerfdSettime (handleTimerfdCreate boot 1).1 (clockAt 0) 1 3 10000000 20000000).1
    [⟨clockAt 0, 4096, 8⟩, ⟨clockAt 1, 4096, 8⟩, ⟨clockAt 6, 4096, 8⟩, ⟨clockAt 6, 4096, 8⟩,
      ⟨clockAt 7, 4096, 4⟩, ⟨clockAt 9, 4096, 8⟩] :=
  timer_reads (t := 0) (j := 3) (s := 0) (by decide +kernel) (by decide +kernel) (by decide) rfl rfl
    (by decide) (by decide) (by simp [TimerRead.now, clockAt, expirationsBy])

end Cyanos.Vfs
