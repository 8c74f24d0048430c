import Doppelganger.Decoder.Decode
import Doppelganger.Decoder.Cycles

/-! Decoded basic blocks on the out-of-order core: a block takes the addresses that were reported
for it in the order of its loads and stores, one for each memory operand, and its assertions hold
exactly when there are as many. -/

namespace Doppelganger.Core.OooCore

open Lib

variable {μ : Type*} {s s' : OooCore μ} {c : Caches μ} {uop : DynUop}

/-- The addresses of the uops of a type. -/
def addrsOf (type : UopType) (l : List Executed) : List Address :=
  (l.filter fun e => e.uop.type = type).map Executed.addr

theorem addrsOf_cons (type : UopType) (e : Executed) (l : List Executed) :
    addrsOf type (e :: l) = addrsOf type [e] ++ addrsOf type l := by
  simp only [addrsOf, List.filter_cons, List.filter_nil]
  split
  all_goals rfl

/-- A load or store takes the next address, and the other uops take none. -/
theorem access_addrs {disp d m : ℕ} {addr : Address} {e : Executed}
    (h : s.access c e.uop disp = some (s', d, m, addr)) (haddr : e.addr = addr) :
    s.loadAddrs = addrsOf .LOAD [e] ++ s'.loadAddrs ∧
      s.storeAddrs = addrsOf .STORE [e] ++ s'.storeAddrs := by
  subst haddr
  unfold access at h
  split at h
  case h_1 htype | h_4 htype | h_5 htype =>
    simp only [Option.some.injEq, Prod.mk.injEq] at h
    obtain ⟨rfl, -⟩ := h
    simp [addrsOf, htype]
  case h_2 htype =>
    unfold load at h
    split at h
    case h_1 => exact nomatch h
    case h_2 addr rest hlist =>
      simp only [Option.some.injEq, Prod.mk.injEq] at h
      obtain ⟨rfl, -, -, rfl⟩ := h
      obtain ⟨caches, recorded, heq, -, -⟩ := loadData_spec c e.addr (max
        (s.lastStoreAddrCommitCycle + 1) (max s.loadQueue.minAllocCycle.toNat disp)) s
      simp [addrsOf, htype, hlist, heq]
  case h_3 htype =>
    unfold store at h
    split at h
    case h_1 => exact nomatch h
    case h_2 addr rest hlist =>
      simp only [Option.some.injEq, Prod.mk.injEq] at h
      obtain ⟨rfl, -, -, rfl⟩ := h
      simp [addrsOf, htype, hlist]

theorem simulate_addrs {prevDecCycle m : ℕ} (hpos : s.insWindow.curPos < 1024)
    (h : s.simulate c uop prevDecCycle = some (s', m)) :
    ∃ e, s'.executed = e :: s.executed ∧ e.uop = uop ∧ s'.insWindow.curPos < 1024 ∧
      s.loadAddrs = addrsOf .LOAD [e] ++ s'.loadAddrs ∧
      s.storeAddrs = addrsOf .STORE [e] ++ s'.storeAddrs := by
  obtain ⟨e, hexec, hpos', -⟩ := simulate_spec hpos h
  obtain ⟨s1, s2, s3, stalled, cOps, s4, scheduled, s5, dispatchCycle, addr, hdecode, hissue,
    hreads, hdispatch, haccess, rfl⟩ := simulate_stages h
  obtain ⟨f1, -⟩ := decode_spec hpos hdecode
  obtain ⟨f2, -⟩ := issue_spec f1.later.pos hissue
  obtain ⟨f3, -⟩ := readRegs_spec f2.later.pos hreads
  obtain ⟨f4, -⟩ := dispatch_spec f3.later.pos hdispatch
  have hfront := ((f1.trans f2).trans f3).trans f4
  obtain ⟨rfl, -⟩ := List.cons.inj hexec
  have haddrs := access_addrs (e := ⟨uop, addr, s3.decodeCycle, s1.curCycle, stalled, s3.curCycle,
    s3.request cOps, dispatchCycle, m⟩) haccess rfl
  rw [hfront.same] at haddrs
  exact ⟨_, hexec, rfl, hpos', haddrs⟩

/-- The uops take the addresses in their order. -/
theorem simulateAll_addrs {uops : List DynUop} {prevDecCycle m m' : ℕ}
    (hpos : s.insWindow.curPos < 1024)
    (h : simulateAll c uops prevDecCycle m s = some (s', m')) :
    ∃ new, s'.executed = new.reverse ++ s.executed ∧ new.map Executed.uop = uops ∧
      s.loadAddrs = addrsOf .LOAD new ++ s'.loadAddrs ∧
      s.storeAddrs = addrsOf .STORE new ++ s'.storeAddrs := by
  induction uops generalizing prevDecCycle m s with
  | nil =>
    obtain ⟨rfl, -⟩ := Prod.mk.inj (Option.some.inj h)
    exact ⟨[], rfl, rfl, rfl, rfl⟩
  | cons uop uops ih =>
    obtain ⟨⟨s1, m1⟩, h1, hrest⟩ := Option.bind_eq_some_iff.mp h
    obtain ⟨e, hexec, rfl, hpos1, hloads, hstores⟩ := simulate_addrs hpos h1
    obtain ⟨new, hnew, rfl, hloads', hstores'⟩ := ih hpos1 hrest
    refine ⟨e :: new, ?_, rfl, ?_, ?_⟩
    · rw [hnew, hexec, List.reverse_cons, List.append_assoc]
      rfl
    · rw [hloads, hloads', addrsOf_cons _ e new, List.append_assoc]
    · rw [hstores, hstores', addrsOf_cons _ e new, List.append_assoc]

end Doppelganger.Core.OooCore

namespace Doppelganger.Decoder

open Doppelganger.Core Doppelganger.Core.OooCore Lib

/-- The templates handle the memory operands of a block, and fused branches have none. -/
def Covered : List Ins → Prop
  | [] => True
  | [ins] => ins.template.Fits ins.instr
  | ins :: next :: rest =>
    if ins.canFuse then next.instr.numLoads = 0 ∧ next.instr.numStores = 0 ∧ Covered rest
    else ins.template.Fits ins.instr ∧ Covered (next :: rest)

/-- The memory operands that a block reads and writes. -/
def memOps (instrs : List Ins) : ℕ × ℕ :=
  ((instrs.map fun ins => ins.instr.numLoads).sum, (instrs.map fun ins => ins.instr.numStores).sum)

theorem memOps_cons (ins : Ins) (instrs : List Ins) :
    memOps (ins :: instrs) = (ins.instr.numLoads, ins.instr.numStores) + memOps instrs := rfl

theorem accesses_fused {regs : Regs} {REG_RIP : ℕ} (i branch : Instr) :
    accesses (regs.decodeFusedInstrs REG_RIP i branch) = (i.numLoads, i.numStores) := by
  unfold Regs.decodeFusedInstrs
  split
  all_goals exact Regs.accesses_basicOp ..

theorem accesses_decodeAll {regs : Regs} {REG_RIP : ℕ} {instrs : List Ins}
    {uops : List (List DynUop)} (hcovered : Covered instrs)
    (h : regs.decodeAll REG_RIP instrs = some uops) :
    uops.length = instrs.length ∧ accesses uops.flatten = memOps instrs := by
  induction instrs using Regs.decodeAll.induct generalizing uops with
  | case1 =>
    obtain rfl := Option.some.inj h
    exact ⟨rfl, rfl⟩
  | case2 ins =>
    obtain ⟨u, hu, rfl⟩ := Option.map_eq_some_iff.mp h
    refine ⟨rfl, ?_⟩
    rw [List.flatten_singleton, Regs.accesses_decode hcovered hu]
    rfl
  | case3 ins next rest hfuse ih =>
    rw [Regs.decodeAll, if_pos hfuse] at h
    rw [Covered, if_pos hfuse] at hcovered
    obtain ⟨us, hus, rfl⟩ := Option.map_eq_some_iff.mp h
    obtain ⟨hlen, hacc⟩ := ih hcovered.2.2 hus
    refine ⟨by rw [List.length_cons, List.length_cons, hlen]; rfl, ?_⟩
    rw [List.flatten_cons, List.flatten_cons, List.nil_append, accesses_append, hacc,
      accesses_fused, memOps_cons, memOps_cons, hcovered.1, hcovered.2.1]
    exact congrArg _ (zero_add _).symm
  | case4 ins next rest hfuse ih =>
    rw [Regs.decodeAll, if_neg hfuse] at h
    rw [Covered, if_neg hfuse] at hcovered
    obtain ⟨u, hu, h⟩ := Option.bind_eq_some_iff.mp h
    obtain ⟨us, hus, rfl⟩ := Option.map_eq_some_iff.mp h
    obtain ⟨hlen, hacc⟩ := ih hcovered.2 hus
    refine ⟨by rw [List.length_cons, hlen]; rfl, ?_⟩
    rw [List.flatten_cons, accesses_append, hacc, Regs.accesses_decode hcovered.1 hu,
      memOps_cons ins]

theorem accesses_stamp (dcyc : ℕ) (uops : List DynUop) :
    accesses (stamp dcyc uops) = accesses uops :=
  Prod.ext List.countP_map List.countP_map

theorem accesses_stamped (slots : List Slot) (d : Decoders) :
    accesses (((decCycles slots d).zip slots).flatMap fun (dcyc, slot) => stamp dcyc slot.uops) =
      accesses (slots.flatMap Slot.uops) := by
  induction slots generalizing d with
  | nil => rfl
  | cons slot rest ih =>
    rw [decCycles, List.zip_cons_cons, List.flatMap_cons, List.flatMap_cons, accesses_append,
      accesses_append, ih, accesses_stamp]

theorem flatMap_slots {startAddr : ℕ} (instrs : List Ins) {uops : List (List DynUop)}
    (p : Predecoder) (h : uops.length = instrs.length) :
    (slots instrs uops (predecCycles startAddr instrs p)).flatMap Slot.uops = uops.flatten := by
  induction instrs generalizing uops p with
  | nil =>
    obtain rfl := List.eq_nil_of_length_eq_zero h
    rfl
  | cons ins rest ih =>
    cases uops with
    | nil => exact nomatch h
    | cons u uops =>
      rw [predecCycles, slots_cons, List.flatMap_append, ih _ (Nat.succ.inj h), List.flatten_cons]
      split
      case isTrue hnil => rw [List.eq_nil_of_length_eq_zero hnil]; rfl
      case isFalse => rw [List.flatMap_singleton]

/-- A decoded block loads and stores once for each memory operand. -/
theorem accesses_decodeBbl {regs : Regs} {REG_RIP : ℕ} {instrs : List Ins} {bbl : BblInfo}
    (hcovered : Covered instrs) (h : decodeBbl regs REG_RIP instrs = some bbl) :
    accesses bbl.uop = memOps instrs := by
  obtain ⟨_, hslots, rfl⟩ := Option.map_eq_some_iff.mp h
  obtain ⟨uops, huops, rfl⟩ := Option.map_eq_some_iff.mp hslots
  obtain ⟨hlen, hacc⟩ := accesses_decodeAll hcovered huops
  rw [accesses_stamped, flatMap_slots instrs _ hlen, hacc]

theorem length_addrsOf (new : List Executed) :
    ((addrsOf .LOAD new).length, (addrsOf .STORE new).length) =
      accesses (new.map Executed.uop) := by
  simp only [addrsOf, accesses, List.length_map, List.countP_map, ← List.countP_eq_length_filter]
  rfl

/-- While the addresses are as many as the loads and stores of a block, none of these runs out of
them. -/
theorem addrs_left {μ : Type*} {c : Caches μ} {s s' : OooCore μ} {uop : DynUop}
    {before after : List DynUop} {m m' : ℕ} (hpos : s.insWindow.curPos < 1024)
    (hcount : (s.loadAddrs.length, s.storeAddrs.length) = accesses (before ++ uop :: after))
    (hsim : simulateAll c before 0 m s = some (s', m')) :
    (uop.type = .LOAD → s'.loadAddrs ≠ []) ∧ (uop.type = .STORE → s'.storeAddrs ≠ []) := by
  obtain ⟨new, -, rfl, hloads, hstores⟩ := simulateAll_addrs hpos hsim
  have hlen := length_addrsOf new
  rw [accesses_append, ← hlen, hloads, hstores, List.length_append, List.length_append,
    Prod.mk_add_mk, Prod.mk.injEq, Nat.add_left_cancel_iff, Nat.add_left_cancel_iff] at hcount
  obtain ⟨hload, hstore⟩ := hcount
  constructor
  · intro htype hnil
    have hpos : 0 < (accesses (uop :: after)).1 :=
      List.countP_pos_iff.mpr ⟨uop, List.mem_cons_self, decide_eq_true htype⟩
    rw [hnil] at hload
    exact hpos.ne hload
  · intro htype hnil
    have hpos : 0 < (accesses (uop :: after)).2 :=
      List.countP_pos_iff.mpr ⟨uop, List.mem_cons_self, decide_eq_true htype⟩
    rw [hnil] at hstore
    exact hpos.ne hstore

/-- In every run of the core, the simulation of a decoded block passes the assertions on its loads
and stores only if one address was reported for each memory operand that its instructions read and
write; and then no load or store runs out of addresses, and when the uops are simulated, the
assertions pass and the loads and stores have these addresses in their order. -/
theorem bbl_accesses {μ : Type*} (c : Caches μ) (lineSize : ℕ) (caches : μ) (ops : List CoreOp)
    {s : OooCore μ} (hrun : run (coreStep c lineSize) ops (.init caches) = some s) {prev : BblInfo}
    (hprev : s.prevBbl = some prev) {regs : Regs} {REG_RIP : ℕ} {instrs : List Ins}
    (hcovered : Covered instrs) (hdecode : decodeBbl regs REG_RIP instrs = some prev)
    (bblAddr : Address) (bblInfo : BblInfo) :
    ((s.bbl c lineSize bblAddr bblInfo).isSome →
      (s.loadAddrs.length, s.storeAddrs.length) = memOps instrs) ∧
    ((s.loadAddrs.length, s.storeAddrs.length) = memOps instrs →
      (∀ before uop after s' m, prev.uop = before ++ uop :: after →
        simulateAll c before 0 0 { s with prevBbl := some bblInfo } = some (s', m) →
          (uop.type = .LOAD → s'.loadAddrs ≠ []) ∧ (uop.type = .STORE → s'.storeAddrs ≠ [])) ∧
      ∀ s1 lastCommitCycle,
        simulateAll c prev.uop 0 0 { s with prevBbl := some bblInfo } = some (s1, lastCommitCycle) →
          (s.bbl c lineSize bblAddr bblInfo).isSome ∧
          ∃ new, s1.executed = new.reverse ++ s.executed ∧ new.map Executed.uop = prev.uop ∧
            addrsOf .LOAD new = s.loadAddrs ∧ addrsOf .STORE new = s.storeAddrs) := by
  have hpos := (good_of_run hrun).pos
  have hops := accesses_decodeBbl hcovered hdecode
  rw [← hops, bbl, hprev]
  dsimp only
  constructor
  · intro hsome
    obtain ⟨s2, hbbl⟩ := Option.isSome_iff_exists.mp hsome
    obtain ⟨⟨s1, lastCommitCycle⟩, hsim, hfront⟩ := Option.bind_eq_some_iff.mp hbbl
    obtain ⟨⟨hl, hs⟩, -⟩ := Option.ite_none_right_eq_some.mp hfront
    obtain ⟨new, -, huops, hloads, hstores⟩ :=
      simulateAll_addrs (s := { s with prevBbl := some bblInfo }) hpos hsim
    rw [hl, List.append_nil] at hloads
    rw [hs, List.append_nil] at hstores
    rw [← huops, ← length_addrsOf new, ← hloads, ← hstores]
  · intro hcount
    refine ⟨fun before uop after s' m hsplit hsim => ?_, fun s1 lastCommitCycle hsim => ?_⟩
    · rw [hsplit] at hcount
      exact addrs_left (s := { s with prevBbl := some bblInfo }) hpos hcount hsim
    · obtain ⟨new, hnew, huops, hloads, hstores⟩ :=
        simulateAll_addrs (s := { s with prevBbl := some bblInfo }) hpos hsim
      change s.loadAddrs = _ at hloads
      change s.storeAddrs = _ at hstores
      rw [← huops, ← length_addrsOf new, hloads, hstores, List.length_append, List.length_append,
        Prod.mk.injEq, Nat.add_eq_left, Nat.add_eq_left, List.length_eq_zero_iff,
        List.length_eq_zero_iff] at hcount
      obtain ⟨hl, hs⟩ := hcount
      rw [hl, List.append_nil] at hloads
      rw [hs, List.append_nil] at hstores
      refine ⟨?_, new, hnew, huops, hloads.symm, hstores.symm⟩
      rw [hsim, Option.bind_some, if_pos ⟨hl, hs⟩]
      rfl

/-- A block with an addition to memory, and its addresses. -/
theorem bbl_accesses_add : ∃ bbl s, decodeBbl tenRegs 7 [nopIns 0, addIns 1] = some bbl ∧
    run (coreStep flatCaches 64) [.bbl 0x1000 bbl, .load 0x80, .store 0x88] (.init ()) = some s ∧
    (s.bbl flatCaches 64 0x1010 bbl).isSome := by
  obtain ⟨bbl, hdecode, h⟩ := Option.bind_eq_some_iff.mp (show
    ((decodeBbl tenRegs 7 [nopIns 0, addIns 1]).bind fun bbl =>
      (run (coreStep flatCaches 64) [.bbl 0x1000 bbl, .load 0x80, .store 0x88] (.init ())).map
        fun s => (decide (s.prevBbl = some bbl), (s.loadAddrs.length, s.storeAddrs.length),
          (simulateAll flatCaches bbl.uop 0 0 { s with prevBbl := some bbl }).isSome)) =
        some (true, (1, 1), true) by decide +kernel)
  obtain ⟨s, hrun, hs⟩ := Option.map_eq_some_iff.mp h
  simp only [Prod.mk.injEq] at hs
  obtain ⟨hprev, hlen, hsim⟩ := hs
  obtain ⟨⟨s1, lastCommitCycle⟩, hsim⟩ := Option.isSome_iff_exists.mp hsim
  have hcovered : Covered [nopIns 0, addIns 1] := ⟨⟨nofun, rfl, rfl, rfl⟩, trivial⟩
  have hcount := (bbl_accesses flatCaches 64 () _ hrun (of_decide_eq_true hprev) hcovered hdecode
    0x1010 bbl).2 (Prod.ext hlen.1 hlen.2)
  exact ⟨bbl, s, hdecode, hrun, (hcount.2 s1 lastCommitCycle hsim).1⟩

end Doppelganger.Decoder
