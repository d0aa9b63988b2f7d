import Cyanos.Servers.Vfs.Descriptors

/-!
# Objects over requests

Which requests touch the rings, the tmpfs pool, the eventfd counters and the timers: all others leave
them as they are (`serve_spares`).
-/

namespace Cyanos.Vfs

open Lib Option State

variable {v v' w : State} {env : Env} {pid : ℕ} {req : Request} {reply : Reply} {t : Fin maxProcs}
  {i : Fin maxFds} {r : Fin maxPipes} {buf count : ℕ} {out : State × Reply}

/-! ### The server after `init` -/

theorem boot_cases : boot = State.fresh ∨
    ∃ t, boot = State.fresh.setTable t
      ⟨1, fun i => if i.val < 3 then ⟨.devNull, 0, true⟩ else .empty, true⟩ := by
  rw [boot, init]
  cases fresh.freeTbl with
  | none => exact .inl rfl
  | some t => exact .inr ⟨t, rfl⟩

theorem boot_kind (ho : boot.Open t i) : (boot.fd t i).kind = .devNull := by
  rcases boot_cases with hb | ⟨t₀, hb⟩
  · rw [hb] at ho
    cases ho.1
  · rw [hb] at ho ⊢
    by_cases ht : t = t₀
    · subst ht
      have hfd : ∀ tbl, (fresh.setTable t tbl).fd t i = tbl.fds i := fun tbl => by
        rw [fd, tables_setTable_self]
      rw [State.Open, hfd] at ho
      rw [hfd]
      by_cases hi : i.val < 3
      · simp only [hi, if_true]
      · simp [hi, FdEntry.empty] at ho
    · rw [State.Open, tables_setTable_of_ne ht] at ho
      cases ho.1

theorem boot_sameObjects : SameObjects State.fresh boot := by
  rcases boot_cases with hb | ⟨t, hb⟩
  · exact hb ▸ .refl _
  · exact hb ▸ .setTable ..

/-! ### Requests on descriptors alone -/

/-- The request works on the descriptors alone. -/
def Request.isTabular : Request → Bool
  | .lseek _ _ _ | .dup2 _ _ | .fcntl _ _ _ | .forkDup _ _ | .execCloexec _ | .closeAll _
  | .getdents64 _ _ _ | .allocFd _ | .fdPath _ _ _ | .timerfdGettime _ _ | .ioctl _ _ _
  | .unknown => true
  | _ => false

theorem sameObjects_getOrCreate (h : v.getOrCreate pid = some (t, w)) : SameObjects v w := by
  rcases getOrCreate_cases h with ⟨-, rfl⟩ | ⟨-, -, rfl⟩
  · exact .refl _
  · exact .setTable ..

theorem sameObjects_newFd {a b : ℕ} {e : FdEntry} {r : Except ℕ (Fin maxProcs × Fin maxFds)}
    (h : newFd v pid a b e = (v', r)) : SameObjects v v' := by
  rcases newFd_cases h with ⟨rfl, -⟩ | ⟨t, i, w, hg, -, rfl, -⟩
  · exact .refl _
  · exact (sameObjects_getOrCreate hg).trans (.setFd ..)

theorem serve_sameObjects (h : serve v env pid req = some (v', reply))
    (hreq : req.isTabular = true) : SameObjects v v' := by
  cases req with
  | lseek fd offset whence =>
    exact fst_of_some h ▸ (handleLseek_effect v env pid fd offset whence).sameObjects
  | fcntl fd cmd arg => exact fst_of_some h ▸ (handleFcntl_effect v pid fd cmd arg).sameObjects
  | getdents64 fd buf count => exact (handleGetdents64_effect (ok_of_toOption h)).sameObjects
  | dup2 oldfd newfd =>
    rcases handleDup2_cases (some.inj h) with ⟨rfl, -⟩ | ⟨t, i, j, -, -, rfl, -⟩
    · exact .refl _
    · exact .setFd ..
  | allocFd =>
    rcases handleAllocFd_cases (some.inj h) with
      ⟨rfl | ⟨t, hg⟩, -⟩ | ⟨t, i, j, -, -, rfl, -⟩
    · exact .refl _
    · exact sameObjects_getOrCreate hg
    · exact .setFd ..
  | forkDup =>
    rcases (handleForkDup_cases (some.inj h)).2 with rfl | ⟨_, t, -, -, rfl⟩
    · exact .refl _
    · exact .setTable ..
  | execCloexec =>
    rcases (handleExecCloexec_cases (some.inj h)).2 with ⟨-, rfl⟩ | ⟨t, -, rfl⟩
    · exact .refl _
    · exact .setTable ..
  | closeAll =>
    rcases (handleCloseAll_cases (some.inj h)).2 with ⟨-, rfl⟩ | ⟨t, -, rfl⟩
    · exact .refl _
    · exact .setTable ..
  | fdPath | timerfdGettime | ioctl | unknown => exact fst_of_some h ▸ .refl v
  | _ => cases hreq

/-! ### Requests on one sort of object -/

/-- All objects but the tmpfs pool are the same. -/
structure SameButTmp (v v' : State) : Prop where
  rings : v'.rings = v.rings
  counters : v'.counters = v.counters
  timers : v'.timers = v.timers

theorem OpenEffect.sameButTmp {path : List UInt8} {flags : BitVec 32} {r : Except ℕ VnodeKind}
    (h : OpenEffect v env pid path flags w r) : SameButTmp v w := by
  cases h with
  | same | created | generated => exact ⟨rfl, rfl, rfl⟩
  | found => split <;> exact ⟨rfl, rfl, rfl⟩

/-- The requests on names and lengths of tmpfs files. -/
def Request.isFile : Request → Bool
  | .open _ _ | .unlink _ | .mkdir _ | .ftruncate _ _ | .rename _ _ => true
  | _ => false

theorem serve_sameButTmp (h : serve v env pid req = some (v', reply)) (hreq : req.isFile = true) :
    SameButTmp v v' := by
  cases req with
  | «open» =>
    rcases handleOpen_cases (ok_of_toOption h) with ⟨rfl, -⟩ | ⟨path, w, r, -, hk, hr⟩
    · exact ⟨rfl, rfl, rfl⟩
    · have hw := (openKind_effect hk).sameButTmp
      rcases hr with ⟨e, -, rfl, -⟩ | ⟨kind, -, ⟨rfl, -⟩ | ⟨t, i, hn, -⟩⟩
      · exact hw
      · exact hw
      · have hsame := sameObjects_newFd hn
        exact ⟨hsame.rings.trans hw.rings, hsame.counters.trans hw.counters,
          hsame.timers.trans hw.timers⟩
  | unlink | mkdir | ftruncate | rename =>
    obtain ⟨tmp, rfl⟩ := serve_editsTmp h rfl
    exact ⟨rfl, rfl, rfl⟩
  | _ => cases hreq

/-- All objects but the rings are the same. -/
structure SameButRings (v v' : State) : Prop where
  tmp : v'.tmp = v.tmp
  counters : v'.counters = v.counters
  timers : v'.timers = v.timers

theorem PipeEffect.sameButRings {r : Except ℕ (Fin maxProcs × Fin maxFds × Fin maxFds)}
    (h : PipeEffect v pid v' r) : SameButRings v v' := by
  cases h with
  | noRing | noTable | noFd | oneFd => exact ⟨rfl, rfl, rfl⟩
  | done r t w i j _ hg =>
    have hw := sameObjects_getOrCreate hg
    exact ⟨hw.tmp, hw.counters, hw.timers⟩

/-! ### Rings -/

theorem ReadEffect.rings (h : ReadEffect v env t i buf count out)
    (hk : ∀ r, (v.fd t i).kind ≠ .pipe r false) : out.1.rings = v.rings := by
  cases h with
  | pipe r hr => exact absurd hr (hk r)
  | _ => rfl

theorem WriteEffect.rings (h : WriteEffect v env t i buf count out)
    (hk : ∀ r, (v.fd t i).kind ≠ .pipe r true) : out.1.rings = v.rings := by
  cases h with
  | pipe r hr => exact absurd hr (hk r)
  | _ => rfl

theorem CloseEffect.rings {n : ℕ} (h : CloseEffect v pid n v' reply) :
    (∃ t i r b, v.descriptor pid n = some (t, i) ∧ (v.fd t i).kind = .pipe r b ∧
        v'.rings = Function.update v.rings r ((v.rings r).closeEnd b)) ∨
      v'.rings = v.rings ∧
        ∀ t i, v.descriptor pid n = some (t, i) → ∀ r b, (v.fd t i).kind ≠ .pipe r b := by
  have hother : ∀ t₀ i₀, v.descriptor pid n = some (t₀, i₀) →
      (∀ r b, (v.fd t₀ i₀).kind ≠ .pipe r b) →
      ∀ t i, v.descriptor pid n = some (t, i) → ∀ r b, (v.fd t i).kind ≠ .pipe r b := by
    intro t₀ i₀ hd hk t i hd'
    cases hd.symm.trans hd'
    exact hk
  cases h with
  | bad hd => exact .inr ⟨rfl, fun t i hd' => by rw [hd] at hd'; cases hd'⟩
  | pipe t i r b hd hk => exact .inl ⟨t, i, r, b, hd, hk, rfl⟩
  | event t i slot hd hk | timer t i slot hd hk => exact .inr ⟨rfl, hother t i hd (by simp [hk])⟩
  | other t i hd hk => exact .inr ⟨rfl, hother t i hd hk⟩

theorem PipeEffect.rings {x : Except ℕ (Fin maxProcs × Fin maxFds × Fin maxFds)}
    (h : PipeEffect v pid v' x) :
    (v.freeRing = none ∧ v'.rings = v.rings) ∨
      ∃ r, v.freeRing = some r ∧ v'.rings =
        Function.update v.rings r { v.rings r with readOpen := true, writeOpen := true } := by
  cases h with
  | noRing hr => exact .inl ⟨hr, rfl⟩
  | noTable r hr | noFd r t hr | oneFd r t i hr => exact .inr ⟨r, hr, rfl⟩
  | done r t w i j hr hg => exact .inr ⟨r, hr, (sameObjects_getOrCreate hg).rings⟩

/-! ### What a request leaves alone -/

theorem ReadEffect.tmp (h : ReadEffect v env t i buf count out) : out.1.tmp = v.tmp := by
  cases h with
  | pipe =>
    rw [readPipe]
    split <;> rfl
  | _ => rfl

theorem WriteEffect.timers (h : WriteEffect v env t i buf count out) : out.1.timers = v.timers := by
  cases h with
  | pipe =>
    rw [writePipe]
    split <;> rfl
  | _ => rfl

/-- The request can change a ring. -/
def Request.usesRings : Request → Bool
  | .read _ _ _ | .write _ _ _ | .close _ | .pipe _ _ => true
  | _ => false

/-- The request can change the tmpfs pool. -/
def Request.usesTmp : Request → Bool
  | .open _ _ | .write _ _ _ | .unlink _ | .mkdir _ | .ftruncate _ _ | .rename _ _ => true
  | _ => false

/-- The request can change an eventfd counter. -/
def Request.usesCounters : Request → Bool
  | .read _ _ _ | .write _ _ _ | .close _ | .eventfd _ => true
  | _ => false

/-- The request can change a timer. -/
def Request.usesTimers : Request → Bool
  | .read _ _ _ | .close _ | .timerfdCreate | .timerfdSettime _ _ _ => true
  | _ => false

/-- The objects that a request does not use are the same. -/
structure Spares (req : Request) (v v' : State) : Prop where
  rings : req.usesRings = false → v'.rings = v.rings
  tmp : req.usesTmp = false → v'.tmp = v.tmp
  counters : req.usesCounters = false → v'.counters = v.counters
  timers : req.usesTimers = false → v'.timers = v.timers

theorem serve_spares (h : serve v env pid req = some (v', reply)) : Spares req v v' := by
  by_cases htab : req.isTabular = true
  · have hs := serve_sameObjects h htab
    exact ⟨fun _ => hs.rings, fun _ => hs.tmp, fun _ => hs.counters, fun _ => hs.timers⟩
  by_cases hfile : req.isFile = true
  · have hs := serve_sameButTmp h hfile
    have huses : req.usesTmp = true := by cases req <;> first | rfl | cases hfile
    exact ⟨fun _ => hs.rings, fun hu => absurd huses (by simp [hu]), fun _ => hs.counters,
      fun _ => hs.timers⟩
  cases req with
  | read =>
    rcases handleRead_cases h with ⟨rfl, -⟩ | ⟨t, i, -, -, -, heff⟩
    · exact ⟨nofun, fun _ => rfl, nofun, nofun⟩
    · exact ⟨nofun, fun _ => heff.tmp, nofun, nofun⟩
  | write =>
    rcases handleWrite_cases h with ⟨rfl, -⟩ | ⟨t, i, -, -, -, heff⟩
    · exact ⟨nofun, nofun, nofun, fun _ => rfl⟩
    · exact ⟨nofun, nofun, nofun, fun _ => heff.timers⟩
  | close => cases handleClose_effect (some.inj h) <;> exact ⟨nofun, fun _ => rfl, nofun, nofun⟩
  | pipe =>
    obtain ⟨r, heff⟩ := handlePipe_effect (some.inj h)
    have hs := heff.sameButRings
    exact ⟨nofun, fun _ => hs.tmp, fun _ => hs.counters, fun _ => hs.timers⟩
  | eventfd =>
    rcases handleEventfd_cases (some.inj h) with ⟨rfl, -⟩ | ⟨slot, t, i, -, hn, -⟩
    · exact ⟨fun _ => rfl, fun _ => rfl, nofun, fun _ => rfl⟩
    · have hs := sameObjects_newFd hn
      exact ⟨fun _ => hs.rings, fun _ => hs.tmp, nofun, fun _ => hs.timers⟩
  | timerfdCreate =>
    rcases handleTimerfdCreate_cases (some.inj h) with
      ⟨-, rfl, -⟩ | ⟨slot, -, ⟨e, -, rfl, -⟩ | ⟨t, i, hn, -⟩⟩
    · exact ⟨fun _ => rfl, fun _ => rfl, fun _ => rfl, nofun⟩
    · exact ⟨fun _ => rfl, fun _ => rfl, fun _ => rfl, nofun⟩
    · have hs := sameObjects_newFd hn
      exact ⟨fun _ => hs.rings, fun _ => hs.tmp, fun _ => hs.counters, nofun⟩
  | timerfdSettime =>
    obtain ⟨timers, rfl⟩ := serve_timerfdSettime h
    exact ⟨fun _ => rfl, fun _ => rfl, fun _ => rfl, nofun⟩
  | «open» | unlink | mkdir | ftruncate | rename => exact absurd rfl hfile
  | _ => exact absurd rfl htab

end Cyanos.Vfs
