import Doppelganger.Dram.Drains

/-! Every request is served: in every run of a controller that has room for requests, no assertion
fails, an event is on its way as long as a request waits, and each access event is done once. -/

namespace Doppelganger.Dram

open Lib

/-! ### Addresses -/

namespace AddrMap

variable {bits : Field → Nat} {m m' : AddrMap}

/-- The masks are in their fields. -/
def Masked (bits : Field → Nat) (m : AddrMap) : Prop :=
  m.rankMask ≤ 2 ^ bits .rank - 1 ∧ m.bankMask ≤ 2 ^ bits .bank - 1

theorem Masked.addToken {field : Field} (h : m.Masked bits) (hm : m.addToken bits field = some m') :
    m'.Masked bits := by
  unfold AddrMap.addToken at hm
  dsimp only at hm
  cases field with
  | col =>
    obtain ⟨-, hm⟩ := Option.ite_none_right_eq_some.mp hm
    cases hm
    exact h
  | rank =>
    obtain ⟨-, hm⟩ := Option.ite_none_right_eq_some.mp hm
    cases hm
    exact ⟨le_rfl, h.2⟩
  | bank =>
    obtain ⟨-, hm⟩ := Option.ite_none_right_eq_some.mp hm
    cases hm
    exact ⟨h.1, le_rfl⟩

theorem Masked.addTokens {fields : List Field} (h : m.Masked bits)
    (hm : fields.foldlM (fun m field => m.addToken bits field) m = some m') : m'.Masked bits := by
  induction fields generalizing m with
  | nil =>
    cases hm
    exact h
  | cons field fields ih =>
    obtain ⟨m1, hfield, hfields⟩ := Option.bind_eq_some_iff.mp hm
    exact ih (h.addToken hfield) hfields

theorem new_masked {tokens : List Field} (h : AddrMap.new bits tokens = some m) :
    m.Masked bits := by
  obtain ⟨-, htokens⟩ := Option.ite_none_left_eq_some.mp h
  exact Masked.addTokens ⟨Nat.zero_le _, Nat.zero_le _⟩ htokens

end AddrMap

theorem mask_lt {x n mask : Nat} (hn : n ≠ 0) (hmask : mask ≤ 2 ^ n.log2 - 1) : x &&& mask < n := by
  have hand : x &&& mask ≤ mask := Nat.and_le_right
  have hpow : 2 ^ n.log2 ≤ n := Nat.log2_self_le hn
  have hpos : 0 < 2 ^ n.log2 := Nat.two_pow_pos _
  omega

/-- The parameters that matter for room. -/
structure Args.Room (args : Args) : Prop where
  depth : args.queueDepth ≠ 0
  ranks : args.ranksPerChannel ≠ 0
  banks : args.banksPerRank ≠ 0

theorem toNat_ne_zero {x : UInt32} (h : x ≠ 0) : x.toNat ≠ 0 :=
  fun hzero => h (UInt32.toNat_inj.mp hzero)

theorem Args.works {args : Args} {cfg : Config} (h : args.config = some cfg) (hroom : args.Room) :
    DDRMemory.Works cfg := by
  refine ⟨Args.valid h, ?_, ?_⟩
  all_goals
    obtain ⟨timing, -, h⟩ := Option.bind_eq_some_iff.mp h
    obtain ⟨-, h⟩ := Option.ite_none_left_eq_some.mp h
    obtain ⟨addrMap, hmap, rfl⟩ := Option.map_eq_some_iff.mp h
  · exact Nat.pos_of_ne_zero (toNat_ne_zero hroom.depth)
  · intro lineAddr
    obtain ⟨hrank, hbank⟩ := AddrMap.new_masked hmap
    exact ⟨_, if_pos ⟨mask_lt (toNat_ne_zero hroom.ranks) hrank,
      mask_lt (toNat_ne_zero hroom.banks) hbank⟩⟩

/-! ### Runs -/

namespace DDRMemory

variable {cfg : Config} {s : DDRMemory}

theorem Inv.run_inv (hw : Works cfg) (ops : List Op) {s : DDRMemory} (h : s.Inv cfg)
    (horder : Along (step cfg) Enabled ops s) : ∃ s', run (step cfg) ops s = some s' ∧ s'.Inv cfg ∧
      s'.numRequests = s.numRequests + (ops.map Op.requests).sum := by
  induction ops generalizing s with
  | nil => exact ⟨s, rfl, h, rfl⟩
  | cons op ops ih =>
    obtain ⟨s1, hstep, h1, hnum⟩ := h.step_inv hw horder.1
    obtain ⟨s2, hrun, h2, hnum2⟩ := ih h1 (horder.2 s1 hstep)
    refine ⟨s2, ?_, h2, ?_⟩
    · rw [run, hstep]
      exact hrun
    · rw [hnum2, hnum, List.map_cons, List.sum_cons, Nat.add_assoc]

/-- The pending events that are not annulled. -/
def scheduled (s : DDRMemory) : List (Nat × Nat) :=
  s.pending.filter fun e => s.schedEvents e.1 ≠ .ANNULLED

/-- While a request waits, one event is scheduled, at the memory cycle `nextSchedCycle`. -/
theorem Inv.scheduled_eq (h : s.Inv cfg) (hwaits : s.ctl.waiting none ≠ []) :
    ∃ ev cycle, s.scheduled = [(ev, cycle)] ∧ s.nextSchedEvent = some ev ∧
      s.nextSchedCycle = some (cfg.sysToMemCycle cycle) := by
  have hqueues : ¬s.ctl.Empty := fun hempty => by
    have hover : s.ctl.overflowQueue = [] := by
      by_contra hne
      exact h.spilled hne hempty
    apply hwaits
    unfold Controller.waiting
    rw [hempty.1, hempty.2, hover]
    rfl
  obtain ⟨ev, cycle, hnext, hmem, hcycle⟩ := h.exists_next hqueues
  refine ⟨ev, cycle, ?_, hnext, hcycle⟩
  have hthis : s.scheduled = s.pending.filter (· = (ev, cycle)) := by
    refine List.filter_congr fun e he => ?_
    rw [decide_eq_decide]
    have hbusy := (h.events.pending e.1).mp (List.mem_map_of_mem he)
    have hrunning := h.events.states e.1
    have hqueued := h.events.queued e.1
    constructor
    · intro hlive
      have hstate : s.schedEvents e.1 = .QUEUED := by
        cases hs : s.schedEvents e.1 <;> simp_all
      have hsame := hqueued.mp hstate
      rw [hnext] at hsame
      exact List.inj_on_of_nodup_map h.events.nodup he hmem (Option.some.inj hsame).symm
    · rintro rfl
      rw [hqueued.mpr hnext]
      decide
  rw [hthis, List.filter_eq, List.count_eq_one_of_mem h.events.nodup.of_map hmem]
  rfl

end DDRMemory

instance (op : Op) (s : DDRMemory) : Decidable (Enabled op s) :=
  match op with
  | .enqueue _ _ sysCycle => inferInstanceAs (Decidable (s.curCycle ≤ sysCycle ∧
      (∀ e ∈ s.pending, sysCycle ≤ e.2) ∧ sysCycle ≤ s.refreshCycle))
  | .fire ev =>
    match h : s.pending.lookup ev with
    | none => isFalse fun ⟨_, hlookup, _⟩ =>
      absurd (hlookup.symm.trans h) (Option.some_ne_none _)
    | some cycle => decidable_of_iff ((∀ e ∈ s.pending, cycle ≤ e.2) ∧ cycle ≤ s.refreshCycle)
      ⟨fun hfirst => ⟨cycle, h, hfirst⟩,
        fun ⟨_, hlookup, hfirst⟩ => Option.some.inj (h.symm.trans hlookup) ▸ hfirst⟩
  | .refresh => inferInstanceAs (Decidable (∀ e ∈ s.pending, s.refreshCycle ≤ e.2))

/-- A controller with room for `queueDepth` requests in each queue. -/
def exampleArgs (queueDepth : UInt32) : Args where
  lineSize := 64
  colSize := 8192
  ranksPerChannel := 4
  banksPerRank := 8
  sysFreqMHz := 2000
  tech := .DDR3_1333_CL10
  addrMapping := [.rank, .col, .bank]
  controllerSysLatency := 10
  queueDepth := queueDepth
  rowHitLimit := 4
  deferredWrites := true
  closedPage := true

/-- While a request waits, one event is scheduled; each access event is held as long as its request
is not answered, and is done once; annulled events do not tick; and the queues drain. -/
theorem requests_served {args : Args} {cfg : Config} (h : args.config = some cfg)
    (hroom : args.Room) (ops : List Op) (horder : Along (step cfg) Enabled ops (.init cfg)) :
    ∃ s, run (step cfg) ops (.init cfg) = some s ∧
      (s.ctl.waiting none ≠ [] → ∃ ev cycle, s.scheduled = [(ev, cycle)] ∧
        s.nextSchedEvent = some ev ∧ s.nextSchedCycle = some (cfg.sysToMemCycle cycle)) ∧
      (∀ ev ∈ s.ctl.held, ∃ r ∈ s.ctl.waiting none, r.ev = some ev) ∧
      (s.ctl.held ++ s.ctl.done.map Prod.fst).Perm (List.range (ops.map Op.requests).sum) ∧
      (∀ ev, s.schedEvents ev = .ANNULLED → Enabled (.fire ev) s → ∃ s',
        step cfg (.fire ev) s = some s' ∧ s'.ctl = s.ctl ∧ s'.nextSchedCycle = s.nextSchedCycle) ∧
      ∀ k, Drains cfg k s := by
  have hw := Args.works h hroom
  obtain ⟨s, hrun, hinv, hnum⟩ := (DDRMemory.init_inv cfg).run_inv hw ops horder
  refine ⟨s, hrun, hinv.scheduled_eq, fun ev => (hinv.ctl.held ev).mp, ?_, ?_,
    fun k => DDRMemory.Inv.drains hw k s hinv⟩
  · have haccount := hinv.ctl.account
    rw [hnum, show (DDRMemory.init cfg).numRequests = 0 from rfl, Nat.zero_add] at haccount
    exact haccount
  · rintro ev hstate ⟨cycle, hlookup, hfirst, -⟩
    obtain ⟨s', hfire, -, hsame, hnext, -⟩ := hinv.fire_annulled hlookup hstate hfirst
    exact ⟨s', hfire, hsame.ctl, hnext⟩

theorem requests_served_run : ∃ cfg s, (exampleArgs 16).config = some cfg ∧
    run (step cfg) [.enqueue 64 false 0, .refresh, .fire 0, .enqueue 128 true 100, .fire 0]
      (.init cfg) = some s ∧ ∀ k, Drains cfg k s := by
  obtain ⟨s, hrun, -, -, -, -, hdrains⟩ := @requests_served (exampleArgs 16) _ rfl
    ⟨by decide, by decide, by decide⟩
    [.enqueue 64 false 0, .refresh, .fire 0, .enqueue 128 true 100, .fire 0] (by decide +kernel)
  exact ⟨_, s, rfl, hrun, hdrains⟩

/-- With a `queueDepth` of 0, a request waits in the `overflowQueue`, and no event comes. -/
theorem no_room : ∃ cfg s, (exampleArgs 0).config = some cfg ∧
    Along (step cfg) Enabled [.enqueue 64 false 0] (.init cfg) ∧
    run (step cfg) [.enqueue 64 false 0] (.init cfg) = some s ∧
    s.ctl.waiting none ≠ [] ∧ s.scheduled = [] :=
  ⟨_, _, rfl, by decide +kernel, rfl, List.cons_ne_nil _ _, rfl⟩

end Doppelganger.Dram
