import Doppelganger.Core.OooCore
import Doppelganger.Core.WindowClock

/-! What the uops of an out-of-order core wait for: the producers of their operands, the stages of
the pipeline, and, for loads and stores, the addresses of all earlier stores and the fences.  The
stages in front of the dispatch move the clock and leave the memory operations, the scoreboard and
what was simulated, and the load-store unit keeps enough of the past. -/

namespace Doppelganger.Core.OooCore

open Function WindowStructure

variable {μ : Type*} {s s' : OooCore μ} {uop : DynUop}

theorem advanceBy_clock {n : ℕ} {w w' : WindowStructure} (hpos : w.curPos < 1024)
    (h : advanceBy n w = some w') : w'.curCycle = w.curCycle + n ∧ w'.curPos < 1024 := by
  induction n generalizing w with
  | zero =>
    obtain rfl := Option.some.inj h
    exact ⟨rfl, hpos⟩
  | succ n ih =>
    obtain ⟨w1, h1, hrest⟩ := Option.bind_eq_some_iff.mp h
    obtain ⟨hcycle, hpos1⟩ := advancePos_clock hpos h1
    obtain ⟨hcycle', hpos'⟩ := ih hpos1 hrest
    exact ⟨by omega, hpos'⟩

/-- What the stages in front of the dispatch keep. -/
structure Front (s s' : OooCore μ) : Prop where
  same : s' = { s with
    insWindow := s'.insWindow
    decodeCycle := s'.decodeCycle
    uopQueue := s'.uopQueue
    curCycleIssuedUops := s'.curCycleIssuedUops
    curCycleRFReads := s'.curCycleRFReads
    regScoreboard := s'.regScoreboard }
  scoreboard : ∀ r, r ≠ 0 → s'.regScoreboard r = s.regScoreboard r
  later : Later 1024 s.insWindow s'.insWindow

theorem Front.trans {t : OooCore μ} (h : Front s s') (h' : Front s' t) : Front s t where
  same := by
    have hsame := h'.same
    rw [h.same] at hsame
    exact hsame
  scoreboard := fun r hr => (h'.scoreboard r hr).trans (h.scoreboard r hr)
  later := h.later.trans h'.later

theorem Front.executed (h : Front s s') : s'.executed = s.executed := by rw [h.same]

theorem Front.recorded (h : Front s s') : s'.recorded = s.recorded := by rw [h.same]

theorem Front.rob (h : Front s s') : s'.rob = s.rob := by rw [h.same]

theorem Front.loadQueue (h : Front s s') : s'.loadQueue = s.loadQueue := by rw [h.same]

theorem Front.storeQueue (h : Front s s') : s'.storeQueue = s.storeQueue := by rw [h.same]

/-- The counter of issued uops is for the cycle of the clock, and starts again with it. -/
def Counted (s s' : OooCore μ) : Prop :=
  s'.curCycle = s.curCycle ∧ s'.curCycleIssuedUops = s.curCycleIssuedUops ∨
    s.curCycle < s'.curCycle ∧ s'.curCycleIssuedUops = 0

/-- A decode stall that 32 bits hold moves the clock to the decode cycle. -/
theorem decode_spec {prevDecCycle : ℕ} (hpos : s.insWindow.curPos < 1024)
    (h : s.decode uop prevDecCycle = some s') :
    Front s s' ∧ s'.regScoreboard = s.regScoreboard ∧
      s'.uopQueue = s.uopQueue.markLeave 28 s'.curCycle ∧
      s.uopQueue.minAllocCycle ≤ s'.decodeCycle ∧ s.decodeCycle ≤ s'.decodeCycle ∧
      (s'.decodeCycle < s'.curCycle + 2 ^ 32 → s'.decodeCycle ≤ s'.curCycle ∧ Counted s s') := by
  obtain ⟨s1, h1, rfl⟩ := Option.map_eq_some_iff.mp h
  split at h1
  case isTrue hlt =>
    obtain ⟨w, hw, rfl⟩ := Option.map_eq_some_iff.mp h1
    obtain ⟨hcycle, hpos'⟩ := advanceBy_clock hpos hw
    refine ⟨⟨rfl, fun _ _ => rfl, hpos', ?_⟩, rfl, rfl, Nat.le_max_right .., ?_, fun hnear => ?_⟩
    · change s.insWindow.curCycle ≤ w.curCycle
      omega
    · exact (Nat.le_add_right ..).trans (Nat.le_max_left ..)
    · simp only [restart, curCycle] at hlt hcycle hnear ⊢
      have hle : max (s.decodeCycle + (((uop.decCycle : ℤ) - prevDecCycle) % 2 ^ 32).toNat)
          s.uopQueue.minAllocCycle = w.curCycle := by omega
      refine ⟨hle.le, .inr ⟨?_, rfl⟩⟩
      change s.insWindow.curCycle < w.curCycle
      omega
  case isFalse hle =>
    obtain rfl := Option.some.inj h1
    refine ⟨⟨rfl, fun _ _ => rfl, hpos, le_rfl⟩, rfl, rfl, Nat.le_max_right .., ?_, fun _ =>
      ⟨Nat.not_lt.mp hle, .inl ⟨rfl, rfl⟩⟩⟩
    exact (Nat.le_add_right ..).trans (Nat.le_max_left ..)

/-- The uop is counted in the cycle of the clock, where there were less than four. -/
theorem issue_spec (hpos : s.insWindow.curPos < 1024) (h : s.issue = some s') :
    Front s s' ∧ s'.regScoreboard = s.regScoreboard ∧ s'.uopQueue = s.uopQueue ∧
      s'.decodeCycle = s.decodeCycle ∧
      (s'.curCycle = s.curCycle ∧ s'.curCycleIssuedUops = s.curCycleIssuedUops + 1 ∧
          s.curCycleIssuedUops < 4 ∨
        s'.curCycle = s.curCycle + 1 ∧ s'.curCycleIssuedUops = 1) := by
  obtain ⟨s1, h1, rfl⟩ := Option.map_eq_some_iff.mp h
  split at h1
  case isTrue hfull =>
    obtain ⟨w, hw, rfl⟩ := Option.map_eq_some_iff.mp h1
    obtain ⟨hcycle, hpos'⟩ := advancePos_clock hpos hw
    refine ⟨⟨rfl, fun _ _ => rfl, hpos', ?_⟩, rfl, rfl, rfl, .inr ⟨hcycle, rfl⟩⟩
    change s.insWindow.curCycle ≤ w.curCycle
    omega
  case isFalse hroom =>
    obtain rfl := Option.some.inj h1
    exact ⟨⟨rfl, fun _ _ => rfl, hpos, le_rfl⟩, rfl, rfl, rfl,
      .inl ⟨rfl, rfl, Nat.not_le.mp hroom⟩⟩

/-- The operands are waited for, unless they are the invalid register. -/
theorem readRegs_spec {stalled : Bool} {cOps : ℕ} (hpos : s.insWindow.curPos < 1024)
    (h : s.readRegs uop = some (s', stalled, cOps)) :
    Front s s' ∧ s'.uopQueue = s.uopQueue ∧ s'.decodeCycle = s.decodeCycle ∧
      (∀ r, r ≠ 0 → r = uop.rs0 ∨ r = uop.rs1 → s.regScoreboard r ≤ cOps) ∧
      (stalled = false ∧ s'.curCycle = s.curCycle ∧
          s'.curCycleIssuedUops = s.curCycleIssuedUops ∨
        stalled = true ∧ s'.curCycle = s.curCycle + 1 ∧ s'.curCycleIssuedUops = 0) := by
  have hother (r : ℕ) (hr : r ≠ 0) : update s.regScoreboard 0 s.curCycle r = s.regScoreboard r :=
    update_of_ne hr ..
  have hops (r : ℕ) (hr : r ≠ 0) (huses : r = uop.rs0 ∨ r = uop.rs1) : s.regScoreboard r ≤
      max (update s.regScoreboard 0 s.curCycle uop.rs0)
        (update s.regScoreboard 0 s.curCycle uop.rs1) := by
    rw [← hother r hr]
    rcases huses with rfl | rfl
    · exact Nat.le_max_left ..
    · exact Nat.le_max_right ..
  unfold readRegs at h
  dsimp only at h
  split at h
  case isTrue =>
    obtain ⟨w, hw, heq⟩ := Option.map_eq_some_iff.mp h
    simp only [Prod.mk.injEq] at heq
    obtain ⟨rfl, rfl, rfl⟩ := heq
    obtain ⟨hcycle, hpos'⟩ := advancePos_clock hpos hw
    refine ⟨⟨rfl, hother, hpos', ?_⟩, rfl, rfl, hops, .inr ⟨rfl, hcycle, rfl⟩⟩
    change s.insWindow.curCycle ≤ w.curCycle
    omega
  case isFalse =>
    simp only [Option.some.injEq, Prod.mk.injEq] at h
    obtain ⟨rfl, rfl, rfl⟩ := h
    exact ⟨⟨rfl, hother, hpos, le_rfl⟩, rfl, rfl, hops, .inl ⟨rfl, rfl, rfl⟩⟩

/-- The window takes the uop no earlier than wanted. -/
theorem dispatch_spec {request dispatchCycle : ℕ} (hpos : s.insWindow.curPos < 1024)
    (h : s.dispatch uop request = some (s', dispatchCycle)) :
    Front s s' ∧ s'.regScoreboard = s.regScoreboard ∧ s'.uopQueue = s.uopQueue ∧
      s'.decodeCycle = s.decodeCycle ∧ Counted s s' ∧
      (request < s.curCycle + 2 ^ 31 → s'.curCycle ≤ dispatchCycle ∧ request ≤ dispatchCycle) := by
  obtain ⟨⟨w, c⟩, hw, heq⟩ := Option.map_eq_some_iff.mp h
  obtain ⟨rfl, rfl⟩ := Prod.mk.inj heq
  obtain ⟨hlater, hnear⟩ := schedule_clock hpos (by decide) hw
  split
  case isTrue hlt =>
    exact ⟨⟨rfl, fun _ _ => rfl, hlater⟩, rfl, rfl, rfl, .inr ⟨hlt, rfl⟩, hnear⟩
  case isFalse hge =>
    refine ⟨⟨rfl, fun _ _ => rfl, hlater⟩, rfl, rfl, rfl, .inl ⟨?_, rfl⟩, hnear⟩
    exact Nat.le_antisymm (Nat.not_lt.mp hge) hlater.le

end Doppelganger.Core.OooCore

namespace Doppelganger.Core

open Function

/-- The last of the uops that writes a register. -/
def lastWriter (r : ℕ) (l : List Executed) : Option Executed :=
  l.find? fun e => e.uop.rd0 = r ∨ e.uop.rd1 = r

/-- The last store to an entry of `fwdArray`. -/
def lastStoreTo (i : ℕ) (l : List Executed) : Option Executed :=
  l.find? fun e => e.uop.type = .STORE ∧ fwdIdx e.addr = i

def DynUop.isMem (uop : DynUop) : Prop := uop.type = .LOAD ∨ uop.type = .STORE

/-- The latency of a uop; a load whose predicate is false takes no time. -/
def Executed.minLat (e : Executed) : ℕ :=
  match e.uop.type with
  | .LOAD => if e.addr = -1 then 0 else L1D_LAT
  | .STORE => L1D_LAT
  | _ => e.uop.lat

/-- The addresses of the stores of `l` are known before `cycle`, its fences are over, and so are the
stores before each of them, with the latency of the fence. -/
structure Resolved (l : List Executed) (cycle : ℕ) : Prop where
  addrs : ∀ p ∈ l, p.uop.type = .STORE_ADDR ∨ p.uop.type = .FENCE → p.commit < cycle
  fences : ∀ after f before, l = after ++ f :: before → f.uop.type = .FENCE →
    ∀ p ∈ before, p.uop.type = .STORE → p.commit + f.uop.lat < cycle

/-- What a load or store waits for, where `l` are the uops before it, the last one first, and how
long a uop takes. -/
structure Executed.Ordered (e : Executed) (l : List Executed) : Prop where
  resolved : e.uop.isMem → Resolved l e.dispatch
  forwarded : e.uop.type = .LOAD → ∀ p, lastStoreTo (fwdIdx e.addr) l = some p → p.addr = e.addr →
    p.commit ≤ e.commit
  latency : e.dispatch + e.minLat ≤ e.commit

/-- What a uop waits for: it leaves the queue, is issued and may be dispatched after the stages in
between, in the order of the program, when its operands have been committed. -/
structure Executed.Waits (e : Executed) (l : List Executed) : Prop where
  decoded : e.decoded ≤ e.issue
  left : e.left ≤ e.issue
  inOrder : ∀ p ∈ l, p.issue ≤ e.issue
  stages : e.issue + (DISPATCH_STAGE - ISSUE_STAGE) ≤ e.dispatch
  operands : ∀ r, r ≠ 0 → r = e.uop.rs0 ∨ r = e.uop.rs1 → ∀ p, lastWriter r l = some p →
    p.commit ≤ e.dispatch
  ordered : e.Ordered l

/-- `P` is of every uop and the ones before it. -/
def Each (P : Executed → List Executed → Prop) : List Executed → Prop
  | [] => True
  | e :: l => P e l ∧ Each P l

/-! ### The load-store unit -/

section Resolve

variable {l : List Executed} {e : Executed} {cycle cycle' : ℕ}

theorem Resolved.mono (h : Resolved l cycle) (hle : cycle ≤ cycle') : Resolved l cycle' where
  addrs := fun p hp htype => (h.addrs p hp htype).trans_le hle
  fences := fun after f before hl htype p hp hstore =>
    (h.fences after f before hl htype p hp hstore).trans_le hle

theorem Resolved.cons (h : Resolved l cycle) (hle : cycle ≤ cycle')
    (haddr : e.uop.type = .STORE_ADDR ∨ e.uop.type = .FENCE → e.commit < cycle')
    (hfence : e.uop.type = .FENCE → ∀ p ∈ l, p.uop.type = .STORE →
      p.commit + e.uop.lat < cycle') : Resolved (e :: l) cycle' where
  addrs := by
    rintro p (_ | ⟨_, hp⟩) htype
    · exact haddr htype
    · exact (h.addrs p hp htype).trans_le hle
  fences := by
    intro after f before hl htype
    cases after with
    | nil =>
      obtain ⟨rfl, rfl⟩ := List.cons.inj hl
      exact hfence htype
    | cons p after =>
      obtain ⟨rfl, rfl⟩ := List.cons.inj hl
      exact fun p hp hstore => (h.fences after f before rfl htype p hp hstore).trans_le hle

end Resolve

theorem lastStoreTo_cons_of_ne {l : List Executed} {e : Executed} (h : e.uop.type ≠ .STORE)
    (i : ℕ) : lastStoreTo i (e :: l) = lastStoreTo i l :=
  List.find?_cons_of_neg (by simp [h])

namespace OooCore

variable {μ : Type*} {s s' : OooCore μ} {l : List Executed} {c : Caches μ} {e : Executed}

/-- What the load-store unit knows of the uops `l`. -/
structure Lsu (s : OooCore μ) (l : List Executed) : Prop where
  resolved : Resolved l (s.lastStoreAddrCommitCycle + 1)
  stores : ∀ p ∈ l, p.uop.type = .STORE → p.commit ≤ s.lastStoreCommitCycle
  forward : ∀ i p, lastStoreTo i l = some p → s.fwdArray i = ⟨p.addr, p.commit⟩

theorem Lsu.nil : s.Lsu [] where
  resolved := ⟨nofun, fun after f before h => by cases after <;> exact nomatch h⟩
  stores := nofun
  forward := nofun

/-- What the load-store unit leaves, and the call of the recorder that it may make. -/
structure Back (dispatchCycle : ℕ) (s s' : OooCore μ) : Prop where
  same : s' = { s with
    loadAddrs := s'.loadAddrs
    storeAddrs := s'.storeAddrs
    lastStoreCommitCycle := s'.lastStoreCommitCycle
    lastStoreAddrCommitCycle := s'.lastStoreAddrCommitCycle
    loadQueue := s'.loadQueue
    storeQueue := s'.storeQueue
    fwdArray := s'.fwdArray
    caches := s'.caches
    recorded := s'.recorded }
  recorded : s'.recorded = s.recorded ∨ ∃ d, dispatchCycle ≤ d ∧ ∃ r, d + L1D_LAT ≤ r ∧
    s'.recorded = ⟨s.curCycle, d, r⟩ :: s.recorded

theorem Back.executed {d : ℕ} (h : Back d s s') : s'.executed = s.executed := by rw [h.same]

theorem Back.insWindow {d : ℕ} (h : Back d s s') : s'.insWindow = s.insWindow := by rw [h.same]

theorem Back.regScoreboard {d : ℕ} (h : Back d s s') : s'.regScoreboard = s.regScoreboard := by
  rw [h.same]

theorem Back.issuedUops {d : ℕ} (h : Back d s s') :
    s'.curCycleIssuedUops = s.curCycleIssuedUops := by
  rw [h.same]

theorem Back.rob {d : ℕ} (h : Back d s s') : s'.rob = s.rob := by rw [h.same]

theorem Back.uopQueue {d : ℕ} (h : Back d s s') : s'.uopQueue = s.uopQueue := by rw [h.same]

/-- A uop that is not a store is no news for the stores. -/
theorem Lsu.cons (h : s.Lsu l) (htype : e.uop.type ≠ .STORE)
    (hle : s.lastStoreAddrCommitCycle ≤ s'.lastStoreAddrCommitCycle)
    (haddr : e.uop.type = .STORE_ADDR ∨ e.uop.type = .FENCE →
      e.commit ≤ s'.lastStoreAddrCommitCycle)
    (hfence : e.uop.type = .FENCE →
      s.lastStoreCommitCycle + e.uop.lat ≤ s'.lastStoreAddrCommitCycle)
    (hstores : s'.lastStoreCommitCycle = s.lastStoreCommitCycle)
    (hfwd : s'.fwdArray = s.fwdArray) : s'.Lsu (e :: l) where
  resolved := by
    refine h.resolved.cons (Nat.succ_le_succ hle) (fun ht => Nat.lt_succ_of_le (haddr ht))
      fun ht p hp hstore => ?_
    have := h.stores p hp hstore
    have := hfence ht
    omega
  stores := by
    rintro p (_ | ⟨_, hp⟩) hstore
    · exact absurd hstore htype
    · exact hstores ▸ h.stores p hp hstore
  forward := fun i p hp => by
    rw [lastStoreTo_cons_of_ne htype] at hp
    exact hfwd ▸ h.forward i p hp

theorem loadData_spec (c : Caches μ) (addr : Address) (d : ℕ) (s : OooCore μ) :
    ∃ caches recorded, (s.loadData c addr d).1 = { s with caches, recorded } ∧
      d + (if addr = -1 then 0 else L1D_LAT) ≤ (s.loadData c addr d).2 ∧
      (recorded = s.recorded ∨ ∃ r, d + L1D_LAT ≤ r ∧
        recorded = ⟨s.curCycle, d, r⟩ :: s.recorded) := by
  unfold loadData
  split
  case isTrue hne =>
    refine ⟨_, _, rfl, ?_, .inr ⟨_, ?_, rfl⟩⟩
    all_goals exact Nat.add_le_add_right (Nat.le_add_right ..) _
  case isFalse heq => exact ⟨_, _, rfl, by rw [if_pos (not_not.mp heq)]; exact le_rfl, .inl rfl⟩

theorem load_spec {disp d m : ℕ} {addr : Address} (h : s.Lsu l)
    (hload : s.load c disp = some (s', d, m, addr)) (htype : e.uop.type = .LOAD)
    (haddr : e.addr = addr) (hd : e.dispatch = d) (hm : e.commit = m) :
    disp ≤ d ∧ e.Ordered l ∧ s'.Lsu (e :: l) ∧ Back disp s s' := by
  subst haddr hd hm
  unfold load at hload
  split at hload
  case h_1 => exact nomatch hload
  case h_2 addr rest hlist =>
    simp only [Option.some.injEq, Prod.mk.injEq] at hload
    obtain ⟨rfl, hd, hm, rfl⟩ := hload
    obtain ⟨caches, recorded, heq, hreq, hrec⟩ := loadData_spec c e.addr (max
      (s.lastStoreAddrCommitCycle + 1) (max s.loadQueue.minAllocCycle.toNat disp)) s
    rw [heq, hd] at hm ⊢
    rw [hd] at hreq hrec
    have hdisp : disp ≤ e.dispatch := by omega
    refine ⟨hdisp, ⟨fun _ => h.resolved.mono (by omega), fun _ p hp hsame => ?_, ?_⟩,
      h.cons (by rw [htype]; nofun) le_rfl (by rw [htype]; nofun) (by rw [htype]; nofun) rfl rfl,
      rfl, ?_⟩
    · rw [← hm, forward, if_pos]
      all_goals simp only [h.forward _ p hp, hsame, Nat.le_max_right]
    · simp only [Executed.minLat, htype]
      refine hreq.trans ?_
      rw [← hm, forward]
      split
      · exact Nat.le_max_left ..
      · exact le_rfl
    · exact hrec.imp id fun ⟨r, hr, h⟩ => ⟨e.dispatch, hdisp, r, hr, h⟩

theorem store_spec {disp d m : ℕ} {addr : Address} (h : s.Lsu l)
    (hstore : s.store c disp = some (s', d, m, addr)) (htype : e.uop.type = .STORE)
    (haddr : e.addr = addr) (hd : e.dispatch = d) (hm : e.commit = m) :
    disp ≤ d ∧ e.Ordered l ∧ s'.Lsu (e :: l) ∧ Back disp s s' := by
  subst haddr hd hm
  unfold store at hstore
  split at hstore
  case h_1 => exact nomatch hstore
  case h_2 addr rest hlist =>
    simp only [Option.some.injEq, Prod.mk.injEq] at hstore
    obtain ⟨rfl, hd, hm, rfl⟩ := hstore
    rw [hd] at hm ⊢
    rw [hm]
    have hdisp : disp ≤ e.dispatch := by omega
    have hlat : e.dispatch + L1D_LAT ≤ e.commit := by omega
    refine ⟨hdisp, ⟨fun _ => h.resolved.mono (by omega), by rw [htype]; nofun, ?_⟩, ⟨?_, ?_, ?_⟩,
      rfl, .inr ⟨e.dispatch, hdisp, e.commit, hlat, rfl⟩⟩
    · simp only [Executed.minLat, htype]
      exact hlat
    · exact h.resolved.cons le_rfl (by rw [htype]; nofun) (by rw [htype]; nofun)
    · rintro p (_ | ⟨_, hp⟩) hp'
      · exact Nat.le_max_right ..
      · exact (h.stores p hp hp').trans (Nat.le_max_left ..)
    · intro i p hp
      by_cases hi : fwdIdx e.addr = i
      · subst hi
        rw [lastStoreTo, List.find?_cons_of_pos (by simp [htype])] at hp
        obtain rfl := Option.some.inj hp
        exact update_self ..
      · rw [lastStoreTo, List.find?_cons_of_neg (by simp [hi])] at hp
        exact (update_of_ne (Ne.symm hi) ..).trans (h.forward i p hp)

/-- Every uop is dispatched no earlier than the window says, and waits as it should. -/
theorem access_spec {disp d m : ℕ} {addr : Address} (h : s.Lsu l)
    (haccess : s.access c e.uop disp = some (s', d, m, addr)) (haddr : e.addr = addr)
    (hd : e.dispatch = d) (hm : e.commit = m) :
    disp ≤ d ∧ e.Ordered l ∧ s'.Lsu (e :: l) ∧ Back disp s s' := by
  unfold access at haccess
  have hother (hl : e.uop.type ≠ .LOAD) (hs : e.uop.type ≠ .STORE)
      (hm : e.commit = disp + e.uop.lat) (hd : e.dispatch = disp) : e.Ordered l := by
    refine ⟨fun hmem => absurd hmem (not_or.mpr ⟨hl, hs⟩), fun htype => absurd htype hl, ?_⟩
    unfold Executed.minLat
    split
    case h_1 htype => exact absurd htype hl
    case h_2 htype => exact absurd htype hs
    case h_3 => rw [hd, hm]
  split at haccess
  case h_1 htype =>
    simp only [Option.some.injEq, Prod.mk.injEq] at haccess
    obtain ⟨rfl, rfl, rfl, -⟩ := haccess
    exact ⟨le_rfl, hother (by rw [htype]; nofun) (by rw [htype]; nofun) hm hd,
      h.cons (by rw [htype]; nofun) le_rfl (by rw [htype]; nofun) (by rw [htype]; nofun) rfl rfl,
      rfl, .inl rfl⟩
  case h_2 htype => exact load_spec h haccess htype haddr hd hm
  case h_3 htype => exact store_spec h haccess htype haddr hd hm
  case h_4 htype =>
    simp only [Option.some.injEq, Prod.mk.injEq] at haccess
    obtain ⟨rfl, rfl, rfl, -⟩ := haccess
    exact ⟨le_rfl, hother (by rw [htype]; nofun) (by rw [htype]; nofun) hm hd,
      h.cons (by rw [htype]; nofun) (Nat.le_max_left ..) (fun _ => hm ▸ Nat.le_max_right ..)
        (by rw [htype]; nofun) rfl rfl, rfl, .inl rfl⟩
  case h_5 htype =>
    simp only [Option.some.injEq, Prod.mk.injEq] at haccess
    obtain ⟨rfl, rfl, rfl, -⟩ := haccess
    refine ⟨le_rfl, hother (by rw [htype]; nofun) (by rw [htype]; nofun) hm hd,
      h.cons (by rw [htype]; nofun) ?_ (fun _ => hm ▸ Nat.le_max_left ..) (fun _ => ?_) rfl rfl,
      rfl, .inl rfl⟩
    · exact (Nat.le_max_left ..).trans (Nat.le_max_right ..)
    · exact (Nat.le_max_right ..).trans (Nat.le_max_right ..)

end OooCore

end Doppelganger.Core
