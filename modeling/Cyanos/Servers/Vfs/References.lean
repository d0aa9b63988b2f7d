import Cyanos.Servers.Vfs.Objects

/-!
# Objects and their descriptors

A ring has a flag for each of its ends, and a timer that is not in use has the value `free`: these
say which objects are allocated (`State.allocated`).  They should say that there is a descriptor for
the object (`State.Refers`).

The source looks at an object when its descriptor is closed, and then clears it whatever other
descriptors there are.  It does not look at objects when a process ends or calls `exec`, and when
`dup2` puts a descriptor over another one (`exit_leaks_pipe`).

* `allocated_iff_referenced` : in a run in which every request that drops the last descriptor for an
  object is a close of a timer, and no other request is one (`Releases`), the ends and timers that are
  allocated are those with a descriptor.
-/

namespace Cyanos.Vfs

open Lib State TimerFdEntry Option

variable {v v' : State} {env : Env} {pid : ℕ} {req : Request} {reply : Reply}
  {t t' t₀ : Fin maxProcs} {i i' i₀ : Fin maxFds} {kind : VnodeKind} {e : TimerFdEntry}

/-- The kind of descriptor is for an end of a pipe or a timer. -/
def VnodeKind.isTracked : VnodeKind → Bool
  | .pipe _ _ | .timerFd _ => true
  | _ => false

/-- The end or timer is allocated. -/
def State.allocated (v : State) : VnodeKind → Bool
  | .pipe r false => (v.rings r).readOpen
  | .pipe r true => (v.rings r).writeOpen
  | .timerFd slot => !(v.timers slot).isFree
  | _ => false

/-- There is a descriptor of this kind. -/
def State.Refers (v : State) (kind : VnodeKind) : Prop := ∃ t i, v.Open t i ∧ (v.fd t i).kind = kind

/-- The ends and timers that are allocated are those with a descriptor. -/
def Referenced (v : State) : Prop :=
  ∀ kind, kind.isTracked = true → (v.allocated kind = true ↔ v.Refers kind)

/-! ### Calls that release what they drop -/

instance : Decidable (req.Drops v pid t i) := by
  rcases req <;> dsimp only [Request.Drops] <;> infer_instance

/-- Where the request drops a descriptor for an end or a timer, it leaves another one for it. -/
def LeavesAnother (v : State) (pid : ℕ) (req : Request) : Prop :=
  ∀ t i, req.Drops v pid t i → v.Open t i → (v.fd t i).kind.isTracked = true →
    ∃ t' i', v.Open t' i' ∧ (v.fd t' i').kind = (v.fd t i).kind ∧ ¬ req.Drops v pid t' i'

instance : Decidable (LeavesAnother v pid req) := inferInstanceAs (Decidable (∀ _ _, _))

/-- The last descriptor for an end or a timer is dropped only by the close of a timer, and a close of
a timer is of the last one; an end of a pipe is not closed.  A pipe request that finds a ring finds
two descriptors.  A timer that is read or disarmed has a deadline. -/
def Releases (v : State) (pid : ℕ) : Request → Prop
  | .close n => ∀ t i, v.descriptor pid n = some (t, i) →
    (∀ r b, (v.fd t i).kind ≠ .pipe r b) ∧
      ∀ slot, (v.fd t i).kind = .timerFd slot →
        ∀ t' i', v.Open t' i' → (v.fd t' i').kind = .timerFd slot → (t', i') = (t, i)
  | .dup2 oldfd newfd => LeavesAnother v pid (.dup2 oldfd newfd)
  | .execCloexec p => LeavesAnother v pid (.execCloexec p)
  | .closeAll p => LeavesAnother v pid (.closeAll p)
  | .pipe _ _ => v.freeRing ≠ none →
    (v.findTbl pid = none → v.freeTbl ≠ none) ∧
      ∀ t, v.findTbl pid = some t →
        ∃ i j, i ≠ j ∧ (v.fd t i).inUse = false ∧ (v.fd t j).inUse = false
  | .read n _ _ => ∀ t i, v.target (maxFds + 1) pid n = some (some (t, i)) →
    ∀ slot, (v.fd t i).kind = .timerFd slot → (v.timers slot).deadlineTicks ≠ 0
  | .timerfdSettime n valueNs _ => valueNs = 0 → ∀ t i, v.descriptor pid n = some (t, i) →
    ∀ slot, (v.fd t i).kind = .timerFd slot → (v.timers slot).deadlineTicks ≠ 0
  | _ => True

instance (v : State) (pid : ℕ) (req : Request) : Decidable (Releases v pid req) := by
  rcases req <;> dsimp only [Releases] <;> infer_instance

/-! ### References -/

theorem VnodeKind.object_eq_of_isTracked {k : VnodeKind} (h : kind.isTracked = true) :
    k.object = kind.object ↔ k = kind := by
  cases kind with
  | pipe => exact object_eq_pipe
  | timerFd => exact object_eq_timerFd
  | _ => cases h

/-- A tracked kind of an entry is that of its source, or it was made. -/
theorem refers_of_serve (h : serve v env pid req = some (v', reply)) (hk : kind.isTracked = true)
    (hr : v'.Refers kind) :
    v.Refers kind ∨ (∃ p q r b, req = .pipe p q ∧ v.freeRing = some r ∧ kind = .pipe r b) ∨
      ∃ slot, req = .timerfdCreate ∧ v.freeTimer = some slot ∧ kind = .timerFd slot := by
  obtain ⟨t, i, ho, rfl⟩ := hr
  rcases serve_open h ho with ⟨t₀, i₀, -, ho0, hobj⟩ | ⟨-, -, hmade⟩
  · exact .inl ⟨t₀, i₀, ho0, (VnodeKind.object_eq_of_isTracked hk).1 hobj.symm⟩
  · revert hmade hk
    generalize (v'.fd t i).kind = kind
    intro hk hmade
    cases hmade with
    | «open» _ hopen =>
      cases openKind_effect hopen with
      | same _ hplain =>
        have hp := hplain _ rfl
        cases kind <;> cases hk <;> cases hp
      | found | created | generated => cases hk
    | pipe isWrite hr => exact .inr (.inl ⟨_, _, _, isWrite, rfl, hr, rfl⟩)
    | eventfd => cases hk
    | timerfdCreate hs => exact .inr (.inr ⟨_, rfl, hs, rfl⟩)

/-- What has a descriptor has one that is not dropped, if it was not closed. -/
theorem Releases.survivor (hg : Releases v pid req) (hk : kind.isTracked = true)
    (hr : v.Refers kind)
    (hclose : ∀ n slot, req = .close n → kind = .timerFd slot →
      ∀ t i, v.descriptor pid n = some (t, i) → (v.fd t i).kind ≠ .timerFd slot) :
    ∃ t i, v.Open t i ∧ (v.fd t i).kind = kind ∧ ¬ req.Drops v pid t i := by
  obtain ⟨t, i, ho, rfl⟩ := hr
  by_cases hd : req.Drops v pid t i
  · cases req with
    | dup2 | execCloexec | closeAll => exact hg t i hd ho hk
    | close n =>
      cases hkind : (v.fd t i).kind with
      | pipe r b => exact absurd hkind (hd.2 r b)
      | timerFd slot => exact absurd hkind (hclose n slot rfl hkind t i hd.1)
      | _ =>
        rw [hkind] at hk
        cases hk
    | _ => exact absurd hd id
  · exact ⟨t, i, ho, rfl, hd⟩

theorem refers_serve (h : serve v env pid req = some (v', reply)) (hk : kind.isTracked = true)
    (hs : ∃ t i, v.Open t i ∧ (v.fd t i).kind = kind ∧ ¬ req.Drops v pid t i) :
    v'.Refers kind := by
  obtain ⟨t, i, ho, rfl, hd⟩ := hs
  obtain ⟨ho', hobj⟩ := serve_survives h ho hd
  exact ⟨t, i, ho', (VnodeKind.object_eq_of_isTracked hk).1 hobj⟩

/-! ### Allocation -/

theorem PipeRing.flags_drain (n : ℕ) (ring : PipeRing) :
    (drain n ring).2.readOpen = ring.readOpen ∧ (drain n ring).2.writeOpen = ring.writeOpen := by
  induction n generalizing ring with
  | zero => exact ⟨rfl, rfl⟩
  | succ n ih =>
    rw [drain, get]
    split
    · exact ⟨rfl, rfl⟩
    · next hget =>
      split at hget
      · cases hget
      · cases hget
        exact ih _

theorem PipeRing.flags_fill (mem : ℕ → UInt8) (n a : ℕ) (ring : PipeRing) :
    (fill mem n a ring).2.readOpen = ring.readOpen ∧
      (fill mem n a ring).2.writeOpen = ring.writeOpen := by
  induction n generalizing a ring with
  | zero => exact ⟨rfl, rfl⟩
  | succ n ih =>
    rw [fill, put]
    split
    · exact ⟨rfl, rfl⟩
    · next hput =>
      split at hput
      · cases hput
      · cases hput
        exact ih _ _

theorem State.allocated_setRing {r : Fin maxPipes} {ring : PipeRing}
    (hread : ring.readOpen = (v.rings r).readOpen)
    (hwrite : ring.writeOpen = (v.rings r).writeOpen) :
    (v.setRing r ring).allocated kind = v.allocated kind := by
  cases kind with
  | pipe r' b =>
    by_cases hr : r' = r
    · subst hr
      cases b
      · simpa [allocated, setRing] using hread
      · simpa [allocated, setRing] using hwrite
    · cases b <;> simp [allocated, setRing, hr]
  | _ => rfl

theorem State.allocated_congr (hrings : v'.rings = v.rings) (htimers : v'.timers = v.timers) :
    v'.allocated kind = v.allocated kind := by
  cases kind with
  | pipe r b => cases b <;> simp [allocated, hrings]
  | timerFd => simp [allocated, htimers]
  | _ => rfl

theorem State.allocated_setTimer_of_ne {slot : Fin maxTimerfds} {e : TimerFdEntry}
    (h : kind ≠ .timerFd slot) : (v.setTimer slot e).allocated kind = v.allocated kind := by
  cases kind with
  | timerFd slot' =>
    have hne : slot' ≠ slot := fun heq => h (by rw [heq])
    simp [allocated, setTimer, hne]
  | pipe r b => cases b <;> rfl
  | _ => rfl

theorem State.allocated_setTimer {slot : Fin maxTimerfds} {e : TimerFdEntry}
    (h : e.isFree = (v.timers slot).isFree) : (v.setTimer slot e).allocated kind = v.allocated kind := by
  by_cases hs : kind = .timerFd slot
  · subst hs
    simp [allocated, setTimer, h]
  · exact allocated_setTimer_of_ne hs

theorem TimerFdEntry.isFree_eq_false_of_deadline (h : e.deadlineTicks ≠ 0) : e.isFree = false := by
  simp [isFree, h]

theorem TimerFdEntry.isFree_eq_false_of_armed (h : e.armed = true) : e.isFree = false := by
  simp [isFree, h]

/-- A timer with a deadline is not free after it was read. -/
theorem TimerFdEntry.isFree_expire (now : ℕ) (h : e.deadlineTicks ≠ 0) :
    ({ e.expire now with expirations := 0 } : TimerFdEntry).isFree = false := by
  unfold expire
  split
  · next hexp =>
    by_cases hi : 0 < e.intervalTicks
    · -- It is still armed.
      simp only [hi]
      exact isFree_eq_false_of_armed hexp.1
    · simp only [hi]
      exact isFree_eq_false_of_deadline h
  · exact isFree_eq_false_of_deadline h

theorem ReadEffect.allocated {buf count : ℕ} {out : State × Reply}
    (h : ReadEffect v env t i buf count out)
    (hd : ∀ slot, (v.fd t i).kind = .timerFd slot → (v.timers slot).deadlineTicks ≠ 0) :
    out.1.allocated kind = v.allocated kind := by
  cases h with
  | pipe =>
    rw [readPipe]
    split
    · rfl
    · exact allocated_setRing (PipeRing.flags_drain ..).1 (PipeRing.flags_drain ..).2
  | timer slot reply hs =>
    refine allocated_setTimer ?_
    rw [isFree_expire _ (hd slot hs), isFree_eq_false_of_deadline (hd slot hs)]
  | _ => exact allocated_congr rfl rfl

theorem WriteEffect.allocated {buf count : ℕ} {out : State × Reply}
    (h : WriteEffect v env t i buf count out) : out.1.allocated kind = v.allocated kind := by
  cases h with
  | pipe =>
    rw [writePipe]
    split
    · exact allocated_setRing (PipeRing.flags_fill ..).1 (PipeRing.flags_fill ..).2
    · rfl
  | _ => exact allocated_congr rfl rfl

theorem allocated_handleTimerfdSettime {n valueNs intervalNs : ℕ} (hv : Referenced v)
    (hg : Releases v pid (.timerfdSettime n valueNs intervalNs)) :
    (handleTimerfdSettime v env pid n valueNs intervalNs).1.allocated kind = v.allocated kind := by
  unfold handleTimerfdSettime
  cases hd : v.descriptor pid n with
  | none => rfl
  | some ti =>
    obtain ⟨t, i⟩ := ti
    simp only
    split
    · next slot hk =>
      -- The timer has a descriptor, so it is not free.
      have hbusy : (v.timers slot).isFree = false := by
        have hall := (hv (.timerFd slot) rfl).2 ⟨t, i, open_of_descriptor hd, hk⟩
        simpa [allocated] using hall
      split
      · next hzero =>
        refine allocated_setTimer ?_
        rw [hbusy]
        exact isFree_eq_false_of_deadline (hg hzero t i hd slot hk)
      · refine allocated_setTimer ?_
        rw [hbusy]
        exact isFree_eq_false_of_armed rfl
    · rfl

/-- Requests that do not make or close descriptors keep what is allocated. -/
theorem allocated_serve (h : serve v env pid req = some (v', reply)) (hv : Referenced v)
    (hg : Releases v pid req) (hpipe : ∀ p q, req ≠ .pipe p q) (htimer : req ≠ .timerfdCreate)
    (hclose : ∀ n, req ≠ .close n) : v'.allocated kind = v.allocated kind := by
  by_cases hreq : req.usesRings = false ∧ req.usesTimers = false
  · exact allocated_congr ((serve_spares h).rings hreq.1) ((serve_spares h).timers hreq.2)
  cases req with
  | read n buf count =>
    rcases handleRead_cases h with ⟨rfl, -⟩ | ⟨t, i, htarget, -, -, heff⟩
    · rfl
    · exact heff.allocated (hg t i htarget)
  | write n buf count =>
    rcases handleWrite_cases h with ⟨rfl, -⟩ | ⟨t, i, -, -, -, heff⟩
    · rfl
    · exact heff.allocated
  | timerfdSettime n a b =>
    have hall : (handleTimerfdSettime v env pid n a b).1.allocated kind = v.allocated kind :=
      allocated_handleTimerfdSettime hv hg
    rwa [some.inj h] at hall
  | pipe p q => exact absurd rfl (hpipe p q)
  | timerfdCreate => exact absurd rfl htimer
  | close n => exact absurd rfl (hclose n)
  | _ => exact absurd ⟨rfl, rfl⟩ hreq

/-! ### Requests -/

theorem refers_of_same (h : serve v env pid req = some (v', reply)) (hpipe : ∀ p q, req ≠ .pipe p q)
    (htimer : req ≠ .timerfdCreate) (hk : kind.isTracked = true) (hr : v'.Refers kind) :
    v.Refers kind := by
  rcases refers_of_serve h hk hr with hr | ⟨p, q, -, -, hreq, -⟩ | ⟨-, hreq, -⟩
  · exact hr
  · exact absurd hreq (hpipe p q)
  · exact absurd hreq htimer

/-- A request after which the same ends and timers are allocated, and which makes none. -/
theorem Referenced.of_same (hv : Referenced v) (hg : Releases v pid req)
    (h : serve v env pid req = some (v', reply)) (hk : kind.isTracked = true)
    (hall : v'.allocated kind = v.allocated kind) (hnew : v'.Refers kind → v.Refers kind)
    (hclose : ∀ n slot, req = .close n → kind = .timerFd slot →
      ∀ t i, v.descriptor pid n = some (t, i) → (v.fd t i).kind ≠ .timerFd slot) :
    v'.allocated kind = true ↔ v'.Refers kind := by
  rw [hall, hv kind hk]
  exact ⟨fun hr => refers_serve h hk (hg.survivor hk hr hclose), hnew⟩

theorem Referenced.close {n : ℕ} (hv : Referenced v) (hg : Releases v pid (.close n))
    (h : Vfs.serve v env pid (.close n) = some (v', reply)) : Referenced v' := by
  intro kind hk
  have hclose := handleClose_effect (some.inj h)
  have hsame : v'.allocated kind = v.allocated kind →
      (∀ slot, kind = .timerFd slot →
        ∀ t i, v.descriptor pid n = some (t, i) → (v.fd t i).kind ≠ .timerFd slot) →
      (v'.allocated kind = true ↔ v'.Refers kind) := fun hall hother =>
    hv.of_same hg h hk hall (refers_of_same h (by simp) (by simp) hk) fun m slot hm hs t i hd =>
      hother slot hs t i (Request.close.inj hm ▸ hd)
  have hother : ∀ t₀ i₀, v.descriptor pid n = some (t₀, i₀) → (v.fd t₀ i₀).kind ≠ kind →
      ∀ slot, kind = .timerFd slot →
        ∀ t i, v.descriptor pid n = some (t, i) → (v.fd t i).kind ≠ .timerFd slot := by
    rintro t₀ i₀ hd hne slot rfl t i hd'
    cases hd.symm.trans hd'
    exact hne
  cases hclose with
  | bad hd => exact hsame rfl fun slot _ t i hd' => by simp [hd] at hd'
  | pipe t i r b hd hkind => exact absurd hkind ((hg t i hd).1 r b)
  | event t i slot hd hkind =>
    refine hsame (allocated_congr rfl rfl) (hother t i hd ?_)
    rintro rfl
    rw [hkind] at hk
    cases hk
  | other t i hd hpipe hevent htimer =>
    refine hsame (allocated_congr rfl rfl) (hother t i hd ?_)
    rintro rfl
    cases hkind : (v.fd t i).kind with
    | pipe r b => exact hpipe r b hkind
    | timerFd slot => exact htimer slot hkind
    | _ =>
      rw [hkind] at hk
      cases hk
  | timer t i slot hd hkind =>
    by_cases hs : kind = .timerFd slot
    · -- The last descriptor is gone, and the timer is free.
      subst hs
      refine iff_of_false (by simp [allocated, setTimer, isFree, free]) ?_
      rintro ⟨t', i', ho', hk'⟩
      have hiff := (handleClose_effect (some.inj h)).open_iff (t := t') (i := i')
      obtain ⟨ho, hdrop⟩ := hiff.1.1 ho'
      rw [hiff.2 ho'] at hk'
      cases (hg t i hd).2 slot hkind t' i' ho hk'
      exact hdrop ⟨hd, by simp [hkind]⟩
    · refine hsame ?_ (hother t i hd fun heq => hs (heq.symm.trans hkind))
      exact (allocated_setTimer_of_ne hs).trans (allocated_congr rfl rfl)

theorem State.allocated_openRing {r : Fin maxPipes} (hrings : v'.rings =
      Function.update v.rings r { v.rings r with readOpen := true, writeOpen := true })
    (htimers : v'.timers = v.timers) :
    v'.allocated kind = true ↔ v.allocated kind = true ∨ ∃ b, kind = .pipe r b := by
  cases kind with
  | pipe r' b =>
    by_cases hr : r' = r
    · subst hr
      cases b <;> simp [allocated, hrings]
    · cases b <;> simp [allocated, hrings, hr]
  | timerFd => simp [allocated, htimers]
  | _ => simp [allocated]

theorem Referenced.pipe {p q : ℕ} (hv : Referenced v) (hg : Releases v pid (.pipe p q))
    (h : Vfs.serve v env pid (.pipe p q) = some (v', reply)) : Referenced v' := by
  obtain ⟨x, heff⟩ := handlePipe_effect (some.inj h)
  rcases heff.rings with ⟨hnone, hrings⟩ | ⟨r₀, hr0, hrings⟩
  · intro kind hk
    refine hv.of_same hg h hk (allocated_congr hrings heff.sameButRings.timers) (fun hr => ?_) (by simp)
    rcases refers_of_serve h hk hr with hr | ⟨-, -, r, -, -, hr, -⟩ | ⟨-, hreq, -⟩
    · exact hr
    · rw [hnone] at hr
      cases hr
    · cases hreq
  · obtain ⟨htbl, hroom⟩ := hg (by simp [hr0])
    intro kind hk
    rw [allocated_openRing hrings heff.sameButRings.timers, hv kind hk]
    constructor
    · rintro (hr | ⟨b, rfl⟩)
      · exact refers_serve h hk (hg.survivor hk hr (by simp))
      · -- There is room for both descriptors, so the request has made them.
        cases heff with
        | noRing hnone =>
          rw [hnone] at hr0
          cases hr0
        | noTable r hr hg' =>
          obtain ⟨hf, hfree⟩ := getOrCreate_eq_none.1 hg'
          exact absurd hfree (htbl hf)
        | noFd r t hr hf ha =>
          obtain ⟨i, j, -, hi, -⟩ := hroom t hf
          have hall := position_eq_none.1 ha i
          rw [← State.fd, hi] at hall
          cases hall
        | oneFd r t i hr hf ha hused =>
          obtain ⟨j, k, hjk, hj, hk'⟩ := hroom t hf
          by_cases hji : j = i
          · have hki : k ≠ i := fun hki => hjk (hji.trans hki.symm)
            rw [hused k hki] at hk'
            cases hk'
          · rw [hused j hji] at hj
            cases hj
        | done r t w i j hr hget hi hj hij =>
          obtain rfl := mem_unique hr0 hr
          have hu := inUse_getOrCreate hget
          cases b with
          | false =>
            refine ⟨t, i, ⟨by simp [hu], ?_⟩, ?_⟩
            · rw [fd_setFd_of_ne (by simpa using hij), fd_setFd_self]
            · rw [fd_setFd_of_ne (by simpa using hij), fd_setFd_self]
          | true => exact ⟨t, j, ⟨by simp [hu], by simp⟩, by simp⟩
    · intro hr
      rcases refers_of_serve h hk hr with hr | ⟨-, -, r, b, -, hr, hkind⟩ | ⟨-, hreq, -⟩
      · exact .inl hr
      · obtain rfl := mem_unique hr0 hr
        exact .inr ⟨b, hkind⟩
      · cases hreq

theorem Referenced.timerfdCreate (hv : Referenced v)
    (h : Vfs.serve v env pid .timerfdCreate = some (v', reply)) : Referenced v' := by
  intro kind hk
  have hg : Releases v pid .timerfdCreate := trivial
  rcases handleTimerfdCreate_cases (some.inj h) with
    ⟨-, rfl, -⟩ | ⟨slot, hs, ⟨e, -, rfl, -⟩ | ⟨t, i, hn, -⟩⟩
  · exact hv kind hk
  · have hall : (v.setTimer slot .free).allocated kind = v.allocated kind :=
      allocated_setTimer (position_eq_some.1 hs).1.symm
    rw [hall]
    exact hv kind hk
  · have htimers := (sameObjects_newFd hn).timers
    have hrings := (sameObjects_newFd hn).rings
    by_cases hkind : kind = .timerFd slot
    · subst hkind
      refine iff_of_true ?_ ?_
      · simp [allocated, htimers, setTimer, isFree, free]
      · obtain ⟨-, -, _, ⟨⟩, -⟩ | ⟨t', i', w, hget, -, rfl, -⟩ := newFd_cases hn
        exact ⟨t', i', ⟨by simp [inUse_getOrCreate hget], by simp⟩, by simp⟩
    · refine hv.of_same hg h hk
        ((allocated_congr hrings htimers).trans (allocated_setTimer_of_ne hkind)) (fun hr => ?_) (by simp)
      rcases refers_of_serve h hk hr with hr | ⟨p, q, -, -, hreq, -⟩ | ⟨slot', -, hs', hkind'⟩
      · exact hr
      · cases hreq
      · obtain rfl := mem_unique hs hs'
        exact absurd hkind' hkind

/-- **Every request that releases what it drops keeps the invariant.** -/
theorem Referenced.serve (hv : Referenced v) (hg : Releases v pid req)
    (h : serve v env pid req = some (v', reply)) : Referenced v' := by
  by_cases hclose : ∃ n, req = .close n
  · obtain ⟨n, rfl⟩ := hclose
    exact hv.close hg h
  by_cases hpipe : ∃ p q, req = .pipe p q
  · obtain ⟨p, q, rfl⟩ := hpipe
    exact hv.pipe hg h
  by_cases htimer : req = .timerfdCreate
  · subst htimer
    exact hv.timerfdCreate h
  have hpipe' : ∀ p q, req ≠ .pipe p q := fun p q hreq => hpipe ⟨p, q, hreq⟩
  have hclose' : ∀ n, req ≠ .close n := fun n hreq => hclose ⟨n, hreq⟩
  intro kind hk
  have hall : v'.allocated kind = v.allocated kind := allocated_serve h hv hg hpipe' htimer hclose'
  exact hv.of_same hg h hk hall (refers_of_same h hpipe' htimer hk)
    fun n _ hreq => absurd hreq (hclose' n)

theorem referenced_boot : Referenced boot := by
  intro kind hk
  have hobj := boot_sameObjects
  refine iff_of_false ?_ ?_
  · rw [allocated_congr hobj.rings hobj.timers]
    cases kind with
    | pipe r b => cases b <;> exact Bool.false_ne_true
    | _ => exact Bool.false_ne_true
  · rintro ⟨t, i, ho, rfl⟩
    rw [boot_kind ho] at hk
    cases hk

/-- **In a run of calls that release what they drop, objects are allocated exactly while there is a
descriptor for them**: the ends of pipes and the timers. -/
theorem allocated_iff_referenced
    (h : Run step (fun v c => Releases v c.pid c.msg.decode) boot v) :
    (∀ r, ((v.rings r).readOpen = true ↔ ∃ t i, v.Open t i ∧ (v.fd t i).kind = .pipe r false) ∧
      ((v.rings r).writeOpen = true ↔ ∃ t i, v.Open t i ∧ (v.fd t i).kind = .pipe r true)) ∧
    ∀ slot, (v.timers slot).isFree = false ↔ ∃ t i, v.Open t i ∧ (v.fd t i).kind = .timerFd slot := by
  have hv : Referenced v := h.invariant referenced_boot fun s c s' hs hg hstep => by
    obtain ⟨⟨v', reply⟩, hserve, rfl⟩ := map_eq_some_iff.1 hstep
    exact hs.serve hg hserve
  refine ⟨fun r => ⟨hv (.pipe r false) rfl, hv (.pipe r true) rfl⟩, fun slot => ?_⟩
  rw [← Bool.not_eq_true']
  exact hv (.timerFd slot) rfl

theorem allocated_iff_referenced_child_exit :
    ∃ v, Run step (fun v c => Releases v c.pid c.msg.decode) boot v ∧
      ((v.rings 0).readOpen = true ∧ (v.timers 0).isFree = false) ∧
      (∃ t i, v.Open t i ∧ (v.fd t i).kind = .pipe 0 false) ∧
      ∃ t i, v.Open t i ∧ (v.fd t i).kind = .timerFd 0 :=
  Run.exists_guarded_with
    [.ofBytes [] 1 0x17 8192 8196 0, .ofBytes [] 1 0x25 0 0 0, .ofBytes [] 1 0x1A 1 2 0,
      .ofBytes [] 2 0x1C 2 0 0] (by decide +kernel) fun _ hrun hp =>
    ⟨((allocated_iff_referenced hrun).1 0).1.1 hp.1, ((allocated_iff_referenced hrun).2 0).1 hp.2⟩

/-- A process that makes a pipe and a timer and ends: they are allocated without descriptors. -/
theorem exit_leaks_pipe :
    ∃ v, Reach step boot v ∧
      ((v.rings 0).readOpen = true ∧ ¬ ∃ t i, v.Open t i ∧ (v.fd t i).kind = .pipe 0 false) ∧
      (v.timers 0).isFree = false ∧ ¬ ∃ t i, v.Open t i ∧ (v.fd t i).kind = .timerFd 0 :=
  Run.exists_of_foldlM
    [.ofBytes [] 1 0x17 8192 8196 0, .ofBytes [] 1 0x25 0 0 0, .ofBytes [] 1 0x1C 1 0 0]
    (by decide +kernel)

end Cyanos.Vfs
