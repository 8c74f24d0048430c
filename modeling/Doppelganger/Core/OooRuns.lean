import Doppelganger.Core.OooOrder
import Doppelganger.Lib.Run

/-! Every run of an out-of-order core simulates uops that wait for the ones before them, issues a
bounded number of them in a cycle, and calls its recorder with cycles that are in order. -/

namespace Doppelganger.Core

open Function Lib

/-- The distances of a uop that the core keeps in 32 bits are short. -/
structure Executed.Near (e : Executed) : Prop where
  decoded : e.decoded < e.issue + 2 ^ 31
  request : e.request < e.issue + 2 ^ 31

/-- The uops that are issued in a cycle, after a stall of the register reads or not. -/
def issuedAt (cycle : ℕ) (stalled : Bool) (l : List Executed) : ℕ :=
  l.countP fun e => e.issue = cycle ∧ e.stalled = stalled

instance (e : Executed) : Decidable e.Near :=
  decidable_of_iff (e.decoded < e.issue + 2 ^ 31 ∧ e.request < e.issue + 2 ^ 31)
    ⟨fun h => ⟨h.1, h.2⟩, fun h => ⟨h.1, h.2⟩⟩

theorem issuedAt_of_lt {l : List Executed} {cycle : ℕ} (h : ∀ p ∈ l, p.issue < cycle)
    (stalled : Bool) : issuedAt cycle stalled l = 0 := by
  refine List.countP_eq_zero.mpr fun p hp hissue => ?_
  exact absurd (of_decide_eq_true hissue).1 (h p hp).ne

theorem issuedAt_cons (e : Executed) (l : List Executed) (cycle : ℕ) (stalled : Bool) :
    issuedAt cycle stalled (e :: l) =
      issuedAt cycle stalled l + if e.issue = cycle ∧ e.stalled = stalled then 1 else 0 := by
  simp [issuedAt, List.countP_cons]

/-- What a call of the recorder is to meet. -/
structure RecordCall.Ok (r : RecordCall) : Prop where
  dispatched : r.curCycle ≤ r.dispatchCycle
  answered : r.dispatchCycle ≤ r.respCycle

namespace OooCore

variable {μ : Type*} {s s' : OooCore μ} {c : Caches μ} {uop : DynUop}

/-- The counter of issued uops bounds those of the cycle of the clock, but for one that has waited
for the register file. -/
structure Width (s : OooCore μ) : Prop where
  issued : s.curCycleIssuedUops ≤ ISSUES_PER_CYCLE
  current : issuedAt s.curCycle false s.executed ≤ s.curCycleIssuedUops
  all : ∀ cycle, issuedAt cycle false s.executed ≤ ISSUES_PER_CYCLE ∧
    issuedAt cycle true s.executed ≤ 1

/-- The calls of the recorder are in the order of the clock. -/
structure Records (s : OooCore μ) : Prop where
  ok : ∀ r ∈ s.recorded, r.Ok
  le : ∀ r ∈ s.recorded, r.curCycle ≤ s.curCycle
  sorted : s.recorded.Pairwise fun r r' => r'.curCycle ≤ r.curCycle

structure Inv (s : OooCore μ) : Prop where
  pos : s.insWindow.curPos < 1024
  timed : Each Executed.Waits s.executed
  inOrder : ∀ p ∈ s.executed, p.issue ≤ s.curCycle
  scoreboard : ∀ r, r ≠ 0 → ∀ p, lastWriter r s.executed = some p → p.commit = s.regScoreboard r
  lsu : s.Lsu s.executed
  width : s.Width
  records : s.Records

theorem inv_init (caches : μ) : Inv (init caches) where
  pos := show 0 < 1024 by decide
  timed := trivial
  inOrder := nofun
  scoreboard := nofun
  lsu := .nil
  width := ⟨Nat.zero_le _, le_rfl, fun _ => ⟨Nat.zero_le _, Nat.zero_le _⟩⟩
  records := ⟨nofun, nofun, .nil⟩

/-! ### One uop -/

theorem Records.later (h : s.Records) (hrec : s'.recorded = s.recorded)
    (hle : s.curCycle ≤ s'.curCycle) : s'.Records where
  ok := hrec ▸ h.ok
  le := fun r hr => (h.le r (hrec ▸ hr)).trans hle
  sorted := hrec ▸ h.sorted

theorem Records.cons (h : s.Records) {d r : ℕ}
    (hrec : s'.recorded = ⟨s'.curCycle, d, r⟩ :: s.recorded)
    (hle : s.curCycle ≤ s'.curCycle) (hd : s'.curCycle ≤ d) (hr : d ≤ r) : s'.Records where
  ok := by
    rw [hrec]
    rintro call (_ | ⟨_, hcall⟩)
    · exact ⟨hd, hr⟩
    · exact h.ok call hcall
  le := by
    rw [hrec]
    rintro call (_ | ⟨_, hcall⟩)
    · exact le_rfl
    · exact (h.le call hcall).trans hle
  sorted := by
    rw [hrec]
    exact .cons (fun call hcall => (h.le call hcall).trans hle) h.sorted

theorem Width.counted (h : s.Width) (hin : ∀ p ∈ s.executed, p.issue ≤ s.curCycle)
    (hexecuted : s'.executed = s.executed) (hcounted : Counted s s') : s'.Width where
  issued := by
    obtain ⟨-, hissued⟩ | ⟨-, hissued⟩ := hcounted
    · exact hissued ▸ h.issued
    · exact hissued ▸ Nat.zero_le _
  current := by
    obtain ⟨hcycle, hissued⟩ | ⟨hlt, hissued⟩ := hcounted
    · rw [hexecuted, hcycle, hissued]
      exact h.current
    · rw [hexecuted, issuedAt_of_lt fun p hp => (hin p hp).trans_lt hlt]
      exact Nat.zero_le _
  all := hexecuted ▸ h.all

/-- The scoreboard after a uop has written its registers. -/
theorem scoreboard_retire {e : Executed} {scoreboard : ℕ → ℕ} {l : List Executed}
    (h : ∀ r, r ≠ 0 → ∀ p, lastWriter r l = some p → p.commit = scoreboard r) (r : ℕ) (hr : r ≠ 0)
    (p : Executed) (hp : lastWriter r (e :: l) = some p) :
    p.commit = update (update scoreboard e.uop.rd0 e.commit) e.uop.rd1 e.commit r := by
  by_cases hwrites : e.uop.rd0 = r ∨ e.uop.rd1 = r
  · rw [lastWriter, List.find?_cons_of_pos (by simpa using hwrites)] at hp
    obtain rfl := Option.some.inj hp
    rcases eq_or_ne e.uop.rd1 r with rfl | hne
    · rw [update_self]
    · rw [update_of_ne hne.symm, hwrites.resolve_right hne, update_self]
  · rw [lastWriter, List.find?_cons_of_neg (by simpa using hwrites)] at hp
    obtain ⟨h0, h1⟩ := not_or.mp hwrites
    rw [update_of_ne (Ne.symm h1), update_of_ne (Ne.symm h0)]
    exact h r hr p hp

/-- The issue stage and the register reads leave room for the uop in its cycle. -/
theorem Width.issue (h : s.Width) {s1 s2 : OooCore μ} {stalled : Bool}
    (hin : ∀ p ∈ s.executed, p.issue ≤ s.curCycle)
    (hissue : s1.curCycle = s.curCycle ∧ s1.curCycleIssuedUops = s.curCycleIssuedUops + 1 ∧
        s.curCycleIssuedUops < 4 ∨ s1.curCycle = s.curCycle + 1 ∧ s1.curCycleIssuedUops = 1)
    (hreads : stalled = false ∧ s2.curCycle = s1.curCycle ∧
        s2.curCycleIssuedUops = s1.curCycleIssuedUops ∨
      stalled = true ∧ s2.curCycle = s1.curCycle + 1 ∧ s2.curCycleIssuedUops = 0)
    {e : Executed} (he : e.issue = s2.curCycle) (hstalled : e.stalled = stalled)
    (hexecuted : s2.executed = e :: s.executed) : s2.Width := by
  obtain ⟨hissued, hcurrent, hall⟩ := h
  have hle : s.curCycle ≤ s1.curCycle := by omega
  have hcount : issuedAt s1.curCycle false s.executed + 1 ≤ s1.curCycleIssuedUops := by
    rcases hissue with ⟨hcycle, hcounter, -⟩ | ⟨hcycle, hcounter⟩
    · rw [hcycle]
      omega
    · rw [issuedAt_of_lt (fun p hp => (hin p hp).trans_lt (by omega)), hcounter]
  have hbound : s1.curCycleIssuedUops ≤ ISSUES_PER_CYCLE := by
    unfold ISSUES_PER_CYCLE at hissued ⊢
    omega
  rcases hreads with ⟨rfl, hcycle, hcounter⟩ | ⟨rfl, hcycle, hcounter⟩
  · have hnew (cycle : ℕ) : issuedAt cycle false s2.executed ≤ ISSUES_PER_CYCLE ∧
        issuedAt cycle true s2.executed ≤ 1 := by
      obtain ⟨h4, h1⟩ := hall cycle
      rw [hexecuted, issuedAt_cons, issuedAt_cons, hstalled, he, hcycle]
      by_cases hhere : s1.curCycle = cycle
      · subst hhere
        simp
        omega
      · simp [hhere, h4, h1]
    refine ⟨hcounter ▸ hbound, ?_, hnew⟩
    rw [hexecuted, issuedAt_cons, he, hstalled, hcycle, hcounter]
    simpa using hcount
  · -- the uop is the first one in its cycle
    have hfirst (b : Bool) : issuedAt s2.curCycle b s.executed = 0 :=
      issuedAt_of_lt (fun p hp => (hin p hp).trans_lt (by omega)) b
    refine ⟨hcounter ▸ Nat.zero_le _, ?_, fun cycle => ?_⟩
    · rw [hexecuted, issuedAt_cons, hfirst, hstalled]
      simp
    · obtain ⟨h4, h1⟩ := hall cycle
      rw [hexecuted, issuedAt_cons, issuedAt_cons, hstalled, he]
      by_cases hhere : s2.curCycle = cycle
      · subst hhere
        simp [hfirst]
      · simp [hhere, h4, h1]

/-- The stages of a uop, and what is known of it then. -/
theorem simulate_stages {prevDecCycle m : ℕ} (h : s.simulate c uop prevDecCycle = some (s', m)) :
    ∃ s1 s2 s3 stalled cOps s4 scheduled s5 dispatchCycle addr,
      s.decode uop prevDecCycle = some s1 ∧ s1.issue = some s2 ∧
      s2.readRegs uop = some (s3, stalled, cOps) ∧
      s3.dispatch uop (s3.request cOps) = some (s4, scheduled) ∧
      s4.access c uop scheduled = some (s5, dispatchCycle, m, addr) ∧
      s' = s5.retire ⟨uop, addr, s3.decodeCycle, s1.curCycle, stalled, s3.curCycle,
        s3.request cOps, dispatchCycle, m⟩ := by
  obtain ⟨s1, hdecode, h⟩ := Option.bind_eq_some_iff.mp h
  obtain ⟨s2, hissue, h⟩ := Option.bind_eq_some_iff.mp h
  obtain ⟨⟨s3, stalled, cOps⟩, hreads, h⟩ := Option.bind_eq_some_iff.mp h
  obtain ⟨⟨s4, scheduled⟩, hdispatch, h⟩ := Option.bind_eq_some_iff.mp h
  obtain ⟨⟨s5, dispatchCycle, commitCycle, addr⟩, haccess, heq⟩ := Option.map_eq_some_iff.mp h
  obtain ⟨rfl, rfl⟩ := Prod.mk.inj heq
  exact ⟨s1, s2, s3, stalled, cOps, s4, scheduled, s5, dispatchCycle, addr, hdecode, hissue, hreads,
    hdispatch, haccess, rfl⟩

theorem simulate_spec {prevDecCycle m : ℕ} (hpos : s.insWindow.curPos < 1024)
    (hsim : s.simulate c uop prevDecCycle = some (s', m)) :
    ∃ e, s'.executed = e :: s.executed ∧ s'.insWindow.curPos < 1024 ∧
      (s.Inv → e.Near → s'.Inv) := by
  obtain ⟨s1, s2, s3, stalled, cOps, s4, scheduled, s5, dispatchCycle, addr, hdecode, hissue,
    hreads, hdispatch, haccess, rfl⟩ := simulate_stages hsim
  obtain ⟨f1, hsb1, -, -, -, hnear1⟩ := decode_spec hpos hdecode
  obtain ⟨f2, hsb2, -, hdec2, hcount2⟩ := issue_spec f1.later.pos hissue
  obtain ⟨f3, -, hdec3, hops, hcount3⟩ := readRegs_spec f2.later.pos hreads
  obtain ⟨f4, hsb4, -, -, hcounted4, hnear4⟩ := dispatch_spec f3.later.pos hdispatch
  set e : Executed := ⟨uop, addr, s3.decodeCycle, s1.curCycle, stalled, s3.curCycle,
    s3.request cOps, dispatchCycle, m⟩
  have front : Front s s4 := ((f1.trans f2).trans f3).trans f4
  obtain ⟨hdisp, -, -, hback⟩ := @access_spec _ _ _ _ c e _ _ _ _ .nil haccess rfl rfl rfl
  have hexec5 : s5.executed = s.executed := hback.executed.trans front.executed
  have hpos5 : s5.insWindow.curPos < 1024 := hback.insWindow ▸ f4.later.pos
  have hcycle5 : s5.curCycle = s4.curCycle := congrArg WindowStructure.curCycle hback.insWindow
  refine ⟨e, congrArg (e :: ·) hexec5, hpos5, fun h hnear => ?_⟩
  have hlsu : s4.Lsu s.executed := by
    rw [front.same]
    exact ⟨h.lsu.resolved, h.lsu.stores, h.lsu.forward⟩
  obtain ⟨-, hordered, hlsu', -⟩ := @access_spec _ _ _ _ c e _ _ _ _ hlsu haccess rfl rfl rfl
  have hle01 : s.curCycle ≤ s1.curCycle := f1.later.le
  have hle12 : s1.curCycle ≤ s2.curCycle := f2.later.le
  have hle23 : s2.curCycle ≤ s3.curCycle := f3.later.le
  have hle34 : s3.curCycle ≤ s4.curCycle := f4.later.le
  obtain ⟨hcur4, hreq4⟩ := hnear4 hnear.request
  have hdecode3 : s3.decodeCycle = s1.decodeCycle := hdec3.trans hdec2
  obtain ⟨hdec, hcounted1⟩ : s1.decodeCycle ≤ s1.curCycle ∧ Counted s s1 := by
    refine hnear1 ?_
    have hdecoded : s3.decodeCycle < s3.curCycle + 2 ^ 31 := hnear.decoded
    omega
  have hin1 : ∀ p ∈ s1.executed, p.issue ≤ s1.curCycle := by
    rw [f1.executed]
    exact fun p hp => (h.inOrder p hp).trans hle01
  have hwidth3 : ({ s3 with executed := e :: s1.executed } : OooCore μ).Width :=
    (h.width.counted h.inOrder f1.executed hcounted1).issue hin1 hcount2 hcount3 rfl rfl rfl
  have hin3 : ∀ p ∈ e :: s.executed, p.issue ≤ s3.curCycle := by
    rintro p (_ | ⟨_, hp⟩)
    · exact le_rfl
    · have := h.inOrder p hp
      omega
  have hreq : s3.request cOps ≤ dispatchCycle := hreq4.trans hdisp
  have hcOps : cOps ≤ dispatchCycle := (Nat.le_max_left ..).trans hreq
  have hstages : s3.curCycle + (DISPATCH_STAGE - ISSUE_STAGE) ≤ dispatchCycle :=
    (Nat.add_le_add_right (Nat.le_max_right ..) _).trans ((Nat.le_max_right ..).trans hreq)
  constructor
  case pos => exact hpos5
  case timed =>
    rw [retire, hexec5]
    refine ⟨⟨?_, ?_, fun p hp => hin3 p (List.mem_cons_of_mem e hp), hstages, ?_, hordered⟩,
      h.timed⟩
    · change s3.decodeCycle ≤ s3.curCycle
      omega
    · change s1.curCycle ≤ s3.curCycle
      omega
    · intro r hr huses p hp
      have hread : s2.regScoreboard r ≤ cOps := hops r hr huses
      rw [hsb2, hsb1, ← h.scoreboard r hr p hp] at hread
      exact hread.trans hcOps
  case inOrder =>
    rw [retire, hexec5]
    intro p hp
    have hle : p.issue ≤ s3.curCycle := hin3 p hp
    change p.issue ≤ s5.curCycle
    omega
  case scoreboard =>
    rw [retire, hexec5, hback.regScoreboard]
    refine scoreboard_retire fun r hr p hp => ?_
    rw [front.scoreboard r hr]
    exact h.scoreboard r hr p hp
  case lsu =>
    rw [retire, hexec5]
    exact ⟨hlsu'.resolved, hlsu'.stores, hlsu'.forward⟩
  case width =>
    refine hwidth3.counted ?_ ?_ ?_
    · rw [f1.executed]
      exact hin3
    · rw [retire, hexec5, f1.executed]
    · change s5.curCycle = _ ∧ s5.curCycleIssuedUops = _ ∨ _ < s5.curCycle ∧
        s5.curCycleIssuedUops = 0
      rw [hcycle5, hback.issuedUops]
      exact hcounted4
  case records =>
    have hle : s.curCycle ≤ s5.curCycle := by omega
    obtain hrec | ⟨d, hd, r, hr, hrec⟩ := hback.recorded
    · refine h.records.later ?_ hle
      exact hrec.trans front.recorded
    · refine h.records.cons (d := d) (r := r) ?_ hle ?_ (by omega)
      · rw [← hcycle5, front.recorded] at hrec
        exact hrec
      · change s5.curCycle ≤ d
        omega

/-- The invariant holds as long as the distances are short. -/
structure Good (s : OooCore μ) : Prop where
  pos : s.insWindow.curPos < 1024
  inv : (∀ e ∈ s.executed, e.Near) → s.Inv

theorem Good.simulate {prevDecCycle m : ℕ} (h : s.Good)
    (hsim : s.simulate c uop prevDecCycle = some (s', m)) : s'.Good := by
  obtain ⟨e, hexec, hpos, hinv⟩ := simulate_spec h.pos hsim
  refine ⟨hpos, fun hnear => ?_⟩
  rw [hexec, List.forall_mem_cons] at hnear
  exact hinv (h.inv hnear.2) hnear.1

theorem Good.simulateAll {uops : List DynUop} {prevDecCycle m m' : ℕ} (h : s.Good)
    (hsim : OooCore.simulateAll c uops prevDecCycle m s = some (s', m')) : s'.Good := by
  induction uops generalizing prevDecCycle m s with
  | nil =>
    obtain ⟨rfl, -⟩ := Prod.mk.inj (Option.some.inj hsim)
    exact h
  | cons uop uops ih =>
    obtain ⟨⟨s1, m1⟩, h1, hrest⟩ := Option.bind_eq_some_iff.mp hsim
    exact ih (h.simulate h1) hrest

/-! ### The frontend and the clock -/

/-- The part of the core that the uops change, but for the recorder. -/
def backend (s : OooCore μ) : WindowStructure × (ℕ → ℕ) × ℕ × ℕ × (ℕ → FwdEntry) × ℕ × CycleQueue ×
    ReorderBuffer × ReorderBuffer × ReorderBuffer × List Executed :=
  (s.insWindow, s.regScoreboard, s.lastStoreAddrCommitCycle, s.lastStoreCommitCycle, s.fwdArray,
    s.curCycleIssuedUops, s.uopQueue, s.rob, s.loadQueue, s.storeQueue, s.executed)

/-- What the frontend does: it leaves the backend, and its calls of the recorder are right. -/
structure Idle (s s' : OooCore μ) : Prop where
  backend : s'.backend = s.backend
  records : s.Records → s'.Records

theorem Idle.refl (s : OooCore μ) : Idle s s := ⟨rfl, id⟩

theorem Idle.trans {t : OooCore μ} (h : Idle s s') (h' : Idle s' t) : Idle s t :=
  ⟨h'.backend.trans h.backend, fun hs => h'.records (h.records hs)⟩

theorem idle_of_eq (h : s'.backend = s.backend) (hrec : s'.recorded = s.recorded) : Idle s s' where
  backend := h
  records := fun hs => hs.later hrec <|
    (congrArg (fun b => WindowStructure.curCycle b.1) h).ge

theorem Idle.executed (h : Idle s s') : s'.executed = s.executed :=
  (Prod.mk.inj (Prod.mk.inj (Prod.mk.inj (Prod.mk.inj (Prod.mk.inj (Prod.mk.inj (Prod.mk.inj
    (Prod.mk.inj (Prod.mk.inj (Prod.mk.inj h.backend).2).2).2).2).2).2).2).2).2).2

theorem Idle.inv (h : Idle s s') (hs : s.Inv) : s'.Inv := by
  have hrec := h.records hs.records
  have hbackend := h.backend
  simp only [OooCore.backend, Prod.mk.injEq] at hbackend
  obtain ⟨hwindow, hscoreboard, haddr, hstore, hfwd, hissued, -, -, -, -, hexec⟩ := hbackend
  have hcycle : s'.curCycle = s.curCycle := congrArg WindowStructure.curCycle hwindow
  refine ⟨hwindow ▸ hs.pos, hexec ▸ hs.timed, ?_, ?_, ⟨?_, ?_, ?_⟩,
    hs.width.counted hs.inOrder hexec (.inl ⟨hcycle, hissued⟩), hrec⟩
  · rw [hexec, hcycle]
    exact hs.inOrder
  · rw [hexec, hscoreboard]
    exact hs.scoreboard
  · rw [hexec, haddr]
    exact hs.lsu.resolved
  · rw [hexec, hstore]
    exact hs.lsu.stores
  · rw [hexec, hfwd]
    exact hs.lsu.forward

theorem Idle.good (h : Idle s s') (hs : s.Good) : s'.Good where
  pos := by
    rw [show s'.insWindow = s.insWindow from congrArg Prod.fst h.backend]
    exact hs.pos
  inv := fun hnear => h.inv (hs.inv (h.executed ▸ hnear))

theorem idle_fetch (c : Caches μ) (fetchAddr : Address) (s : OooCore μ) :
    Idle s (s.fetch c fetchAddr).1 :=
  ⟨rfl, fun h => h.cons rfl le_rfl le_rfl (Nat.le_add_right ..)⟩

theorem idle_wrongPath (c : Caches μ) (lineSize lastCommitCycle n : ℕ) (addr : Address)
    (reqCycle : ℕ) (s : OooCore μ) :
    Idle s (s.wrongPath c lineSize lastCommitCycle n addr reqCycle) := by
  induction n generalizing addr reqCycle s with
  | zero => exact .refl s
  | succ n ih =>
    unfold wrongPath
    dsimp only
    split
    case isTrue => exact idle_fetch c addr s
    case isFalse => exact (idle_fetch c addr s).trans (ih ..)

theorem idle_fetchLines (c : Caches μ) (lineSize : ℕ) (endAddr : Address) (n : ℕ)
    (addr : Address) (fetchCycle : ℕ) (s : OooCore μ) :
    Idle s (s.fetchLines c lineSize endAddr n addr fetchCycle).1 := by
  induction n generalizing addr fetchCycle s with
  | zero => exact .refl s
  | succ n ih =>
    unfold fetchLines
    split
    case isTrue => exact (idle_fetch c addr s).trans (ih ..)
    case isFalse => exact .refl s

theorem idle_predict (c : Caches μ) (lineSize lastCommitCycle fetchCycle : ℕ) (s : OooCore μ) :
    Idle s (s.predict c lineSize lastCommitCycle fetchCycle).1 := by
  unfold predict
  split
  case isFalse => exact .refl s
  case isTrue =>
    dsimp only
    split
    case isTrue => exact idle_of_eq rfl rfl
    case isFalse =>
      have hcounted : Idle s { s with
          condBranches := s.condBranches + 1
          branchPred := s.branchPred.update .ooo s.branchPc s.branchTaken
          mispredBranches := s.mispredBranches + 1 } :=
        idle_of_eq rfl rfl
      exact (hcounted.trans (idle_wrongPath c lineSize lastCommitCycle _ _ fetchCycle _)).trans
        (idle_of_eq rfl rfl)

theorem idle_frontend (c : Caches μ) (lineSize lastCommitCycle : ℕ) (bblAddr : Address)
    (bblInfo : BblInfo) (s : OooCore μ) :
    Idle s (s.frontend c lineSize lastCommitCycle bblAddr bblInfo) :=
  (idle_predict ..).trans <| (idle_fetchLines ..).trans <|
    idle_of_eq rfl rfl

/-- What a call of the core does: it leaves the backend, or simulates uops, or moves the clock. -/
theorem step_cases {lineSize : ℕ} {op : CoreOp} (h : coreStep c lineSize op s = some s') :
    Idle s s' ∨ (∃ s1 uops s2 m, Idle s s1 ∧ simulateAll c uops 0 0 s1 = some (s2, m) ∧
      Idle s2 s') ∨ ∃ targetCycle, s.advance targetCycle = some s' := by
  cases op with
  | load addr | store addr | predFalseMemOp =>
    obtain ⟨-, heq⟩ := Option.ite_none_right_eq_some.mp h
    obtain rfl := Option.some.inj heq
    exact .inl (idle_of_eq rfl rfl)
  | branch | deschedule =>
    obtain rfl := Option.some.inj h
    exact .inl (idle_of_eq rfl rfl)
  | advance targetCycle => exact .inr (.inr ⟨targetCycle, h⟩)
  | bbl bblAddr bblInfo =>
    change s.bbl c lineSize bblAddr bblInfo = some s' at h
    unfold bbl at h
    split at h
    case h_1 =>
      obtain rfl := Option.some.inj h
      exact .inl (idle_of_eq rfl rfl)
    case h_2 prev hprev =>
      obtain ⟨⟨s1, lastCommitCycle⟩, h1, hrest⟩ := Option.bind_eq_some_iff.mp h
      obtain ⟨-, heq⟩ := Option.ite_none_right_eq_some.mp hrest
      obtain rfl := Option.some.inj heq
      refine .inr (.inl ⟨_, _, s1, lastCommitCycle, ?_, h1, ?_⟩)
      · exact idle_of_eq rfl rfl
      · have hcounted : Idle s1 { s1 with
            instrs := s1.instrs + prev.instrs
            uops := s1.uops + prev.uop.length
            bbls := s1.bbls + 1
            approxInstrs := s1.approxInstrs + prev.approxInstrs } := idle_of_eq rfl rfl
        exact hcounted.trans (idle_frontend c lineSize lastCommitCycle bblAddr bblInfo _)

/-- A jump of the clock starts a cycle. -/
theorem Good.advance {targetCycle : ℕ} (h : s.Good) (hadv : s.advance targetCycle = some s') :
    s'.Good := by
  unfold OooCore.advance at hadv
  split at hadv
  case isFalse => exact nomatch hadv
  case isTrue hlt =>
    obtain ⟨w, hw, rfl⟩ := Option.map_eq_some_iff.mp hadv
    obtain ⟨hcycle, hpos⟩ := WindowStructure.longAdvance_clock h.pos hw
    have hlater : s.curCycle < w.curCycle := hcycle ▸ hlt
    refine ⟨hpos, fun hnear => ?_⟩
    obtain ⟨-, htimed, hin, hscoreboard, hlsu, hwidth, hrec⟩ := h.inv hnear
    exact ⟨hpos, htimed, fun p hp => (hin p hp).trans hlater.le, hscoreboard,
      ⟨hlsu.resolved, hlsu.stores, hlsu.forward⟩,
      hwidth.counted hin rfl (.inr ⟨hlater, rfl⟩), hrec.later rfl hlater.le⟩

/-- Every call of the core keeps the invariant. -/
theorem Good.step {lineSize : ℕ} (h : s.Good) (op : CoreOp)
    (hs' : coreStep c lineSize op s = some s') : s'.Good := by
  obtain hidle | ⟨s1, uops, s2, m, h1, hsim, h2⟩ | ⟨targetCycle, hadv⟩ := step_cases hs'
  · exact hidle.good h
  · exact h2.good ((h1.good h).simulateAll hsim)
  · exact h.advance hadv

theorem good_of_run {lineSize : ℕ} {caches : μ} {ops : List CoreOp}
    (hrun : run (coreStep c lineSize) ops (.init caches) = some s) : s.Good :=
  @run_preserves _ _ (coreStep c lineSize) (fun _ _ => True) Good ops _ _
    (fun op _ _ h _ hs' => h.step op hs') ⟨show 0 < 1024 by decide, fun _ => inv_init caches⟩
    (along_of_forall (fun _ _ => trivial) ops _) hrun

end OooCore

open OooCore

/-- In every run whose short distances fit the 32 bits that the core has for them, a uop is issued
in program order, after it was decoded and has left the queue, and is dispatched after the pipeline
stages in between and after the last writer of each of its operands has committed; a load or store
is dispatched after the addresses of all earlier stores are known and the earlier fences are over;
and a load that a store to its address forwards to does not commit before that. -/
theorem uops_wait {μ : Type*} (c : Caches μ) (lineSize : ℕ) (caches : μ) (ops : List CoreOp)
    {s : OooCore μ} (hrun : run (coreStep c lineSize) ops (.init caches) = some s)
    (hnear : ∀ e ∈ s.executed, e.Near) : Each Executed.Waits s.executed :=
  ((good_of_run hrun).inv hnear).timed

/-- Caches that answer a load after 10 cycles, and a store and a fetch at once. -/
def flatCaches : Caches Unit where
  load := fun _ _ s => (10, s)
  store := fun _ _ s => (0, s)
  fetch := fun _ _ s => (0, s)
  contextSwitch := id

/-- A register is written, stored and loaded, and what was loaded is used. -/
def forwardBbl : BblInfo := ⟨4, 16, 0, [⟨0, 0, 1, 0, 3, 1, .GENERAL, 0x01, 0⟩,
  ⟨2, 0, 9, 0, 1, 1, .STORE_ADDR, 0x08, 0⟩, ⟨1, 9, 0, 0, 0, 1, .STORE, 0x10, 0⟩,
  ⟨2, 0, 3, 0, 0, 2, .LOAD, 0x04, 0⟩, ⟨3, 0, 4, 0, 1, 2, .GENERAL, 0x02, 0⟩]⟩

/-- A basic block whose uops are simulated when the next one comes. -/
def simulated (bbl : BblInfo) (mem : List CoreOp) : List CoreOp :=
  .bbl 0x1000 bbl :: mem ++ [.bbl 0x1010 bbl]

theorem uops_wait_forward : ∃ s,
    run (coreStep flatCaches 64) (simulated forwardBbl [.store 0x80, .load 0x80]) (.init ()) =
      some s ∧ Each Executed.Waits s.executed ∧
    s.executed.map (fun e => (e.dispatch, e.commit)) =
      [(27, 28), (13, 27), (14, 18), (11, 12), (11, 14)] := by
  obtain ⟨s, hrun, hs⟩ := Option.map_eq_some_iff.mp (show
    (run (coreStep flatCaches 64) (simulated forwardBbl [.store 0x80, .load 0x80]) (.init ())).map
      (fun s => (decide (∀ e ∈ s.executed, e.Near),
        s.executed.map fun e => (e.dispatch, e.commit))) =
      some (true, [(27, 28), (13, 27), (14, 18), (11, 12), (11, 14)]) by decide +kernel)
  obtain ⟨hnear, hcycles⟩ := Prod.mk.inj hs
  exact ⟨s, hrun, uops_wait flatCaches 64 () _ hrun (of_decide_eq_true hnear), hcycles⟩

/-- In every run whose short distances fit their 32 bits, a cycle issues at most four uops and one
more that has waited for the register file, and the calls of the recorder are in the order of the
clock, with requests that are not before it and answers that are not before the requests. -/
theorem issue_width {μ : Type*} (c : Caches μ) (lineSize : ℕ) (caches : μ) (ops : List CoreOp)
    {s : OooCore μ} (hrun : run (coreStep c lineSize) ops (.init caches) = some s)
    (hnear : ∀ e ∈ s.executed, e.Near) :
    (∀ cycle, issuedAt cycle false s.executed ≤ 4 ∧ issuedAt cycle true s.executed ≤ 1) ∧
    (s.recorded.Pairwise fun r r' => r'.curCycle ≤ r.curCycle) ∧ ∀ r ∈ s.recorded, r.Ok :=
  have h := (good_of_run hrun).inv hnear
  ⟨h.width.all, h.records.sorted, h.records.ok⟩

/-- The second uop waits for the register file, and four more are issued with it. -/
def wideBbl : BblInfo := ⟨6, 16, 0, [⟨1, 2, 0, 0, 1, 1, .GENERAL, 0x23, 0⟩,
  ⟨1, 2, 0, 0, 1, 1, .GENERAL, 0x23, 0⟩, ⟨1, 2, 0, 0, 1, 1, .GENERAL, 0x23, 0⟩,
  ⟨0, 0, 0, 0, 1, 1, .GENERAL, 0x23, 0⟩, ⟨0, 0, 0, 0, 1, 1, .GENERAL, 0x23, 0⟩,
  ⟨0, 0, 0, 0, 1, 1, .GENERAL, 0x23, 0⟩]⟩

theorem issue_width_wide : ∃ s,
    run (coreStep flatCaches 64) (simulated wideBbl []) (.init ()) = some s ∧
    issuedAt 6 false s.executed = 4 ∧ issuedAt 6 true s.executed = 1 ∧
    ∀ cycle, issuedAt cycle true s.executed ≤ 1 := by
  obtain ⟨s, hrun, hs⟩ := Option.map_eq_some_iff.mp (show
    (run (coreStep flatCaches 64) (simulated wideBbl []) (.init ())).map
      (fun s => (decide (∀ e ∈ s.executed, e.Near), issuedAt 6 false s.executed,
        issuedAt 6 true s.executed)) = some (true, 4, 1) by decide +kernel)
  simp only [Prod.mk.injEq] at hs
  obtain ⟨hnear, hfour, hone⟩ := hs
  have hwidth := (issue_width flatCaches 64 () _ hrun (of_decide_eq_true hnear)).1
  exact ⟨s, hrun, hfour, hone, fun cycle => (hwidth cycle).2⟩

end Doppelganger.Core
