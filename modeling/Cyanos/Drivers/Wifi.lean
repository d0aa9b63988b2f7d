import Mathlib.Logic.Basic
import Mathlib.Data.Nat.Notation
import Mathlib.Tactic.SplitIfs
import Cyanos.Lib.Run

/-!
# Association with a Wi-Fi network

The connection state machine of `drivers/wifi/src/mac80211`, with the handlers of `auth.rs`.  A
frame is any list of bytes; the driver's answer to `config` is part of the call.  What the station
sends is not modelled: nothing in the state depends on it.

`handle_auth` and `handle_assoc_resp` do not look at the sender of a frame.

## Main results

* `bound_run` : **association is bound to the chosen network** as long as every answer that is
  accepted carries its BSSID and no association is refused.
* `bound_to_nobody` : two frames of another station associate the station.
-/

namespace Cyanos.Wifi

open Lib

/-- `MacAddr`. -/
abbrev MacAddr : Type := Vector UInt8 6

/-- `StaConnState`. -/
inductive StaConnState
  | disconnected
  | scanning
  | authenticating
  | associating
  | associated
  | disconnectRequested
  deriving DecidableEq

/-- `Mac80211`. -/
structure Mac where
  state : StaConnState
  /-- The BSSID of `current_bss`. -/
  currentBss : Option MacAddr

/-! ### Frames -/

/-- `u16::from_le_bytes([frame[i], frame[i + 1]])`. -/
def u16At (frame : List UInt8) (i : ℕ) : ℕ :=
  (frame.getD i 0).toNat + 256 * (frame.getD (i + 1) 0).toNat

/-- `frame[16..22]`. -/
def bssidAt (frame : List UInt8) : MacAddr := .ofFn fun i => frame.getD (16 + i) 0

/-- `frame_subtype(fc)`, with the type; `is_mgmt` says that the type is 0. -/
def frameSubtype (frame : List UInt8) : ℕ := u16At frame 0 &&& (0x000C ||| 0x00F0)

/-- `STYPE_AUTH`. -/
def stypeAuth : ℕ := 0x00B0

/-- `STYPE_ASSOC_RESP`. -/
def stypeAssocResp : ℕ := 0x0010

namespace Mac

/-- `Mac80211::new`. -/
def new : Mac := ⟨.disconnected, none⟩

/-- `scan_done`. -/
def scanDone (m : Mac) : Mac :=
  if m.state = .scanning then { m with state := .disconnected } else m

/-- `scan`; the driver's answer does not matter for the state. -/
def scan (m : Mac) : Mac :=
  if m.state ≠ .disconnected then m else { m with state := .scanning }

/-- `connect(bss)`, with the driver's answer to `config`. -/
def connect (m : Mac) (bssid : MacAddr) (configured : Bool) : Mac :=
  if !configured then m else ⟨.authenticating, some bssid⟩

/-- `handle_auth`. -/
def handleAuth (m : Mac) (frame : List UInt8) : Mac :=
  if m.state ≠ .authenticating then m
  else if frame.length < 30 then m
  else if u16At frame 26 ≠ 2 then m
  else if u16At frame 28 ≠ 0 then m.scanDone
  else if m.currentBss.isSome then { m with state := .associating }
  else m

/-- `handle_assoc_resp`. -/
def handleAssocResp (m : Mac) (frame : List UInt8) : Mac :=
  if m.state ≠ .associating then m
  else if frame.length < 30 then m
  else if u16At frame 26 ≠ 0 then { m with state := .disconnected }
  else { m with state := .associated }

/-- `rx_mgmt(frame)`.  `STYPE_DEAUTH` and `STYPE_DISASSOC` end the association; beacons and
probe responses only go to the cache of scan results. -/
def rxMgmt (m : Mac) (frame : List UInt8) : Mac :=
  if frame.length < 2 then m
  else if frameSubtype frame &&& 0x000C ≠ 0 then m
  else if frameSubtype frame = stypeAuth then m.handleAuth frame
  else if frameSubtype frame = stypeAssocResp then m.handleAssocResp frame
  else if frameSubtype frame = 0x00C0 ∨ frameSubtype frame = 0x00A0 then .new
  else m

end Mac

/-! ### Runs -/

/-- The state machine, with the frames received since the last `connect` that succeeded. -/
structure Station where
  mac : Mac
  heard : List (List UInt8)

/-- The calls. -/
inductive Call
  | scan
  | scanDone
  | connect (bssid : MacAddr) (configured : Bool)
  | disconnect
  | rxMgmt (frame : List UInt8)

namespace Station

/-- One call; `disconnect` clears `current_bss` and the state. -/
def step (s : Station) : Call → Option Station
  | .scan => some { s with mac := s.mac.scan }
  | .scanDone => some { s with mac := s.mac.scanDone }
  | .connect bssid configured =>
    some ⟨s.mac.connect bssid configured, if configured then [] else s.heard⟩
  | .disconnect => some { s with mac := .new }
  | .rxMgmt frame => some ⟨s.mac.rxMgmt frame, s.heard ++ [frame]⟩

end Station

/-- An authentication frame with sequence number 2 and status 0. -/
def AuthOk (frame : List UInt8) : Prop :=
  30 ≤ frame.length ∧ frameSubtype frame = stypeAuth ∧ u16At frame 26 = 2 ∧ u16At frame 28 = 0

/-- An association response. -/
def AssocResp (frame : List UInt8) : Prop := 30 ≤ frame.length ∧ frameSubtype frame = stypeAssocResp

instance (f : List UInt8) : Decidable (AuthOk f) := inferInstanceAs (Decidable (_ ∧ _))

instance (f : List UInt8) : Decidable (AssocResp f) := inferInstanceAs (Decidable (_ ∧ _))

/-- An authentication frame of `b` has been received. -/
def Authenticated (b : MacAddr) (heard : List (List UInt8)) : Prop :=
  ∃ f ∈ heard, AuthOk f ∧ bssidAt f = b

/-- An authentication frame of `b` has been received, and an association response after it. -/
def Admitted (b : MacAddr) (heard : List (List UInt8)) : Prop :=
  ∃ f g, [f, g].Sublist heard ∧ (AuthOk f ∧ bssidAt f = b) ∧
    AssocResp g ∧ u16At g 26 = 0 ∧ bssidAt g = b

/-- **Association is bound to the chosen network.** -/
structure Bound (s : Station) : Prop where
  associated : s.mac.state = .associated → ∃ b, s.mac.currentBss = some b ∧ Admitted b s.heard
  idle : s.mac.state = .disconnected ∨ s.mac.state = .scanning → s.mac.currentBss = none

/-- The answers that the station accepts come from the chosen network, and it does not refuse. -/
def Genuine (s : Station) : Call → Prop
  | .rxMgmt frame => ∀ b ∈ s.mac.currentBss,
    (s.mac.state = .authenticating → AuthOk frame → bssidAt frame = b) ∧
    (s.mac.state = .associating → AssocResp frame → u16At frame 26 = 0 ∧ bssidAt frame = b)
  | _ => True

/-- The invariant of the runs: what has been received in each state. -/
def Inv (m : Mac) (heard : List (List UInt8)) : Prop :=
  match m.state with
  | .authenticating => m.currentBss.isSome = true
  | .associating => ∃ b, m.currentBss = some b ∧ Authenticated b heard
  | .associated => ∃ b, m.currentBss = some b ∧ Admitted b heard
  | _ => m.currentBss = none

variable {m : Mac} {heard : List (List UInt8)} {f : List UInt8} {b : MacAddr} {s s' : Station} {c : Call}

theorem Authenticated.append (h : Authenticated b heard) : Authenticated b (heard ++ [f]) := by
  obtain ⟨g, hg, h⟩ := h
  exact ⟨g, List.mem_append_left _ hg, h⟩

theorem Admitted.append (h : Admitted b heard) : Admitted b (heard ++ [f]) := by
  obtain ⟨g, k, hsub, h⟩ := h
  exact ⟨g, k, hsub.trans (List.sublist_append_left _ _), h⟩

theorem Inv.append (h : Inv m heard) : Inv m (heard ++ [f]) := by
  unfold Inv at *
  split at h
  · exact h
  · exact h.imp fun _ h => ⟨h.1, h.2.append⟩
  · exact h.imp fun _ h => ⟨h.1, h.2.append⟩
  · exact h

theorem inv_handleAuth (h : Inv m heard) (hf : frameSubtype f = stypeAuth)
    (hg : ∀ b ∈ m.currentBss, m.state = .authenticating → AuthOk f → bssidAt f = b) :
    Inv (m.handleAuth f) (heard ++ [f]) := by
  unfold Mac.handleAuth
  split_ifs with hstate hlen hseq hstatus hbss
  · exact h.append
  · exact h.append
  · exact h.append
  · -- `scan_done` does nothing here
    rw [not_not] at hstate
    rw [Mac.scanDone, if_neg (by rw [hstate]; decide)]
    exact h.append
  · rw [not_not] at hstate hseq hstatus
    obtain ⟨b, hb⟩ := Option.isSome_iff_exists.1 hbss
    have hok : AuthOk f := ⟨by omega, hf, hseq, hstatus⟩
    exact ⟨b, hb, f, List.mem_append_right _ (.head _), hok, hg b hb hstate hok⟩
  · exact h.append

theorem inv_handleAssocResp (h : Inv m heard) (hf : frameSubtype f = stypeAssocResp)
    (hg : ∀ b ∈ m.currentBss, m.state = .associating → AssocResp f →
      u16At f 26 = 0 ∧ bssidAt f = b) :
    Inv (m.handleAssocResp f) (heard ++ [f]) := by
  unfold Mac.handleAssocResp
  split_ifs with hstate hlen hstatus
  · exact h.append
  · exact h.append
  all_goals
    rw [not_not] at hstate
    rw [Inv, hstate] at h
    obtain ⟨b, hb, k, hk, hauth⟩ := h
    have hresp : AssocResp f := ⟨by omega, hf⟩
    obtain ⟨hzero, hbssid⟩ := hg b hb hstate hresp
  · exact absurd hzero hstatus
  · have hsub : [k, f].Sublist (heard ++ [f]) := (List.singleton_sublist.2 hk).append (.refl [f])
    exact ⟨b, hb, k, f, hsub, hauth, hresp, hzero, hbssid⟩

theorem inv_step (h : Inv s.mac s.heard) (hg : Genuine s c) (hst : s.step c = some s') :
    Inv s'.mac s'.heard := by
  cases c with
  | scan =>
    cases hst
    unfold Mac.scan
    split_ifs with hd
    · exact h
    · rw [not_not] at hd
      rwa [Inv, hd] at h
  | scanDone =>
    cases hst
    unfold Mac.scanDone
    split_ifs with hd
    · rwa [Inv, hd] at h
    · exact h
  | connect bssid configured =>
    cases hst
    cases configured with
    | false => exact h
    | true => rfl
  | disconnect =>
    cases hst
    rfl
  | rxMgmt =>
    cases hst
    simp only [Mac.rxMgmt]
    split_ifs with _ _ hauth hassoc
    · exact h.append
    · exact h.append
    · exact inv_handleAuth h hauth fun b hb => (hg b hb).1
    · exact inv_handleAssocResp h hassoc fun b hb => (hg b hb).2
    · rfl
    · exact h.append

/-- **In every run in which the answers accepted come from the chosen network, association is bound
to it.** -/
theorem bound_run (h : Run Station.step Genuine ⟨.new, []⟩ s) : Bound s := by
  have hinv : Inv s.mac s.heard := h.invariant (by exact rfl)
    fun _ _ _ hi hg hst => inv_step hi hg hst
  refine ⟨fun hs => ?_, ?_⟩
  · rwa [Inv, hs] at hinv
  · rintro (hs | hs) <;> rwa [Inv, hs] at hinv

/-- The BSSID of the chosen network. -/
def home : MacAddr := #v[2, 0, 0, 0, 0, 1]

/-- A frame with this subtype, BSSID and body. -/
def mgmtFrame (subtype : UInt8) (bssid : MacAddr) (body : List UInt8) : List UInt8 :=
  [subtype, 0] ++ List.replicate 14 0 ++ bssid.toList ++ [0, 0] ++ body

/-- `connect`, then two answers that carry this BSSID. -/
def answeredBy (bssid : MacAddr) : List Call :=
  [.connect home true, .rxMgmt (mgmtFrame 0xB0 bssid [0, 0, 2, 0, 0, 0]),
    .rxMgmt (mgmtFrame 0x10 bssid [1, 0, 0, 0, 1, 0])]

instance (s : Station) (c : Call) : Decidable (Genuine s c) := by
  rcases c <;> dsimp only [Genuine] <;> infer_instance

theorem bound_home : ∃ s, Run Station.step Genuine ⟨.new, []⟩ s ∧
    s.mac.state = .associated ∧ Bound s :=
  Run.exists_guarded_with (answeredBy home) (by decide) fun _ hrun _ => bound_run hrun

/-- **Two frames of another station associate the station**: no frame that it received carries the
BSSID of the network it chose. -/
theorem bound_to_nobody : ∃ s, Reach Station.step ⟨.new, []⟩ s ∧
    (s.mac.state = .associated ∧ s.mac.currentBss = some home ∧ ∀ f ∈ s.heard, bssidAt f ≠ home) ∧
      ¬ Bound s := by
  refine Run.exists_guarded_with (answeredBy #v[2, 0, 0, 0, 0, 7]) (by decide) fun s _ hp h => ?_
  obtain ⟨hstate, hbss, hother⟩ := hp
  obtain ⟨b, hb, f, g, hsub, ⟨-, hf⟩, -⟩ := h.associated hstate
  cases hbss.symm.trans hb
  exact hother f (hsub.subset (.head _)) hf

end Cyanos.Wifi
