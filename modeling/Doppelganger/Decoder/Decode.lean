import Doppelganger.Decoder.Templates

/-! Decoded instructions on the out-of-order core: the results of an instruction wait for its
operands, and the loads and stores of its uops are those of its memory operands. -/

namespace Doppelganger.Decoder

open Doppelganger.Core Doppelganger.Core.OooCore Lib

namespace Regs

variable {regs : Regs} {i : Instr} {t : Template} {x j k : ℕ} {res : Result} {uops : List DynUop}

theorem emit_reaches (hok : i.Ok regs) (h : regs.emit i t = some uops) (ht : t ≠ .none)
    (hchain : t.Chains i j k) (hx : x ∈ i.sources.getD j []) (hres : i.results[k]? = some res) :
    Reaches uops x res := by
  cases t with
  | basicMove lat ports => exact basicMove_chains hok h hchain.1 hchain.2 hx hres
  | basicOp lat ports extraSlots =>
    obtain rfl := Option.some.inj h
    exact basicOp_chains hok hchain.1 hchain.2 hx hres
  | chainedOp first middle last => exact chainedOp_chains hok h hchain.1 hchain.2 hx hres
  | convert2Op lat1 lat2 ports1 ports2 => exact convert2Op_chains hok h hchain hx hres
  | xchg lockPrefix => exact xchg_chains hok h hchain hx hres
  | conditionalMove lat ports => exact conditionalMove_chains hok h hchain hx hres
  | compareAndExchange => exact compareAndExchange_chains hok h hchain hx hres
  | mul => exact mul_chains hok h hchain hx hres
  | div width => exact div_chains hok h hchain hx hres
  | none => exact absurd rfl ht
  | prefetch | stos | lods | movs | cmps | exec uops => exact hchain.elim

theorem not_reaches_nil : ¬ Reaches [] x res := by
  rintro ⟨before, uop, after, hnil, -⟩
  exact absurd hnil (by simp)

/-- The uops of an instruction between its fences. -/
theorem decode_cases {isLocked : Bool} (h : regs.decodeInstr i isLocked t = some uops) :
    ∃ emitted body, regs.emit i t = some emitted ∧
      body = (if emitted = [] then regs.emitBasicOp i 1 PORTS_015 0 else emitted) ∧
      uops = (if isLocked then [emitFence 0] else []) ++ body ++
        (if isLocked then [emitFence 9] else []) ∧ uops.length < 12 := by
  obtain ⟨emitted, hemit, h⟩ := Option.bind_eq_some_iff.mp h
  obtain ⟨hlen, h⟩ := Option.ite_none_right_eq_some.mp h
  have hnil : ((if isLocked then [emitFence 0] else []) ++ emitted).length =
      (if isLocked then 1 else 0) ↔ emitted = [] := by
    cases isLocked
    all_goals simp
  refine ⟨emitted, _, hemit, rfl, ?_, Option.some.inj h ▸ hlen⟩
  rw [← Option.some.inj h]
  by_cases hemitted : emitted = []
  · rw [if_pos (hnil.mpr hemitted), if_pos hemitted, hemitted, List.append_nil]
  · rw [if_neg (mt hnil.mp hemitted), if_neg hemitted]

theorem decode_reaches {isLocked : Bool} (hok : i.Ok regs)
    (h : regs.decodeInstr i isLocked t = some uops) (hchain : t.Chains i j k)
    (hx : x ∈ i.sources.getD j []) (hres : i.results[k]? = some res) : Reaches uops x res := by
  obtain ⟨emitted, body, hemit, rfl, rfl, -⟩ := decode_cases h
  have hfence (lat : ℕ) : ∀ v ∈ (if isLocked then [emitFence lat] else []),
      defs v = [] ∧ v.type ≠ .STORE := by
    cases isLocked
    · exact nofun
    · exact List.forall_mem_singleton.mpr ⟨rfl, nofun⟩
  refine Reaches.append (.prepend ?_ (fun v hv => (hfence 0 v hv).1) fun v hv => (hfence 0 v hv).2)
    fun v hv => (hfence 9 v hv).1
  by_cases ht : t = .none
  · subst ht
    obtain rfl : [] = emitted := Option.some.inj hemit
    rw [if_pos rfl]
    exact basicOp_chains hok hchain.1 hchain.2 hx hres
  · have hreach := emit_reaches hok hemit ht hchain hx hres
    rwa [if_neg fun hnil => not_reaches_nil (hnil ▸ hreach)]

/-- How many sources an operation takes. -/
def taken : Template → Option ℕ
  | .basicOp .. => some 2
  | .chainedOp _ middle _ => some (middle.length + 2)
  | _ => none

/-- The exec uops of an operation: what they take to its results, and what they write. -/
theorem exec_flows (hok : i.Ok regs) {n : ℕ} (ht : taken t = some n)
    (h : regs.emit i t = some uops) :
    ∃ E, uops = regs.emitLoads i ++ E ++ regs.emitStores i ∧
      (∀ uop ∈ E, ∀ r ∈ defs uop, r = regs.REG_EXEC_TEMP ∨
        ∃ k < 2, r = (regs.dstRegs i).getD k 0) ∧
      ∀ s r, s ≠ regs.REG_EXEC_TEMP → (∃ k < 2, r = (regs.dstRegs i).getD k 0) → r ≠ 0 →
        Flows E s r → ∃ j < n, s = (regs.srcRegs i).getD j 0 ∧ s ≠ 0 := by
  have hdst {k r : ℕ} (hk : k < 2) (hr : r = (regs.dstRegs i).getD k 0) :
      r = (regs.dstRegs i).getD 0 0 ∨ r = (regs.dstRegs i).getD 1 0 :=
    hr ▸ of_lt_two ((regs.dstRegs i).getD · 0) hk
  cases t with
  | basicOp lat ports extraSlots =>
    obtain rfl := Option.some.inj h
    obtain rfl := Option.some.inj ht
    refine ⟨_, rfl, List.forall_mem_singleton.mpr fun r hr => .inr ?_, ?_⟩
    · obtain ⟨rfl | rfl, -⟩ := mem_defs_exec.mp hr
      · exact ⟨0, Nat.two_pos, rfl⟩
      · exact ⟨1, Nat.one_lt_two, rfl⟩
    · rintro s r - ⟨k, hk, hr⟩ hr0 hflow
      obtain ⟨hread, -⟩ | ⟨-, hkeep⟩ := flows_singleton.mp hflow
      · obtain ⟨rfl | rfl, hs⟩ := mem_uses_exec.mp hread
        · exact ⟨0, Nat.two_pos, rfl, hs⟩
        · exact ⟨1, Nat.one_lt_two, rfl, hs⟩
      · exact absurd (mem_defs_exec.mpr ⟨hdst hk hr, hr0⟩) hkeep
  | chainedOp first middle last =>
    obtain ⟨-, h⟩ := Option.ite_none_right_eq_some.mp h
    obtain rfl := Option.some.inj h
    obtain rfl := Option.some.inj ht
    have htemp : ∀ uop ∈ emitExecUop ((regs.srcRegs i).getD 0 0) ((regs.srcRegs i).getD 1 0)
        regs.REG_EXEC_TEMP 0 first.1 first.2 0 :: regs.chainMiddle (regs.srcRegs i) 1 middle,
        ∀ r ∈ defs uop, r = regs.REG_EXEC_TEMP := by
      refine List.forall_mem_cons.mpr ⟨fun r hr => ?_, writes_chain _ 1 middle⟩
      obtain ⟨hr, hne⟩ := mem_defs_exec.mp hr
      exact hr.resolve_right hne
    refine ⟨_, rfl, fun uop huop r hr => ?_, ?_⟩
    · rcases List.mem_append.mp (List.cons_append ▸ huop) with huop | huop
      · exact .inl (htemp uop huop r hr)
      · obtain rfl := List.mem_singleton.mp huop
        obtain ⟨rfl | rfl, -⟩ := mem_defs_exec.mp hr
        · exact .inr ⟨0, Nat.two_pos, rfl⟩
        · exact .inr ⟨1, Nat.one_lt_two, rfl⟩
    · rintro s r hs ⟨k, hk, hr⟩ hr0 hflow
      obtain ⟨-, q, hq, hflow⟩ | ⟨hkeep, -⟩ :=
        flows_concat (l := _ :: regs.chainMiddle _ 1 middle).mp hflow
      · obtain ⟨rfl | rfl, hq0⟩ := mem_uses_exec.mp hq
        · exact (flows_chain _ first middle hs).mp hflow
        · -- the last uop takes the source that the uop before it has taken
          obtain rfl := (flows_unwritten fun uop huop hw =>
            (src_lt hok _).ne (htemp uop huop _ hw)).mp hflow
          exact ⟨_, by omega, rfl, hq0⟩
      · exact absurd (mem_defs_exec.mpr ⟨hdst hk hr, hr0⟩) hkeep
  | basicMove | convert2Op | xchg | conditionalMove | compareAndExchange | mul | div | prefetch
  | stos | lods | movs | cmps | exec | none => exact nomatch ht

theorem temp_free : regs.Free regs.REG_EXEC_TEMP where
  ne := temp_ne
  loads := .inr (Nat.le_add_right (regs.REG_LOAD_TEMP + 4) 8)
  stores := .inr le_rfl

/-- A real destination register is that of a result. -/
theorem result_of_dst (hok : i.Ok regs) (hr : regs.Real ((regs.dstRegs i).getD k 0)) :
    i.results[k]? = some (.reg ((regs.dstRegs i).getD k 0)) := by
  cases hres : i.results[k]? with
  | none =>
    refine absurd ?_ hr.1
    have hlen : i.numStores + i.outRegs.length ≤ k := by
      have := List.getElem?_eq_none_iff.mp hres
      rwa [results_length] at this
    rw [dstRegs, List.getD_eq_getElem?_getD, List.getElem?_append_right (by simpa using hlen)]
    rcases k - _ with _ | _ | n
    all_goals rfl
  | some res =>
    obtain ⟨-, -, hdst⟩ | ⟨r, rfl, hdst, -⟩ := dst_cases hok hres
    · obtain ⟨-, hle⟩ := hr
      rw [hdst] at hle
      unfold REG_STORE_TEMP REG_LOAD_TEMP at hle
      omega
    · rw [hdst]

/-- An operation makes those of its first two results that are registers of its first sources and
of nothing else, and it leaves all other registers alone. -/
theorem op_exact (hok : i.Ok regs) {n : ℕ} (ht : taken t = some n)
    (h : regs.emit i t = some uops) {x r : ℕ} (hx : regs.Real x) (hr : regs.Real r) :
    (∀ k < 2, i.results[k]? = some (.reg r) →
      (Reaches uops x (.reg r) ↔ ∃ j < n, x ∈ i.sources.getD j [])) ∧
    ((∀ k < 2, i.results[k]? ≠ some (.reg r)) → ∀ uop ∈ uops, r ∉ defs uop) := by
  obtain ⟨E, rfl, hwrites, hflows⟩ := exec_flows hok ht h
  constructor
  · intro k hk hres
    have hdst : (regs.dstRegs i).getD k 0 = r := by
      obtain ⟨-, hres', -⟩ | ⟨r', hres', hdst, -⟩ := dst_cases hok hres
      · exact nomatch hres'
      · exact hdst.trans (Result.reg.inj hres').symm
    constructor
    · intro hreach
      obtain ⟨r', hflow, hstores⟩ := flows_append.mp hreach.flows
      obtain rfl := (flows_stores_free hok.stores hr.free).mp hstores
      obtain ⟨s, hload, hflow⟩ := flows_append.mp hflow
      have hs : s ≠ regs.REG_EXEC_TEMP := by
        rintro rfl
        obtain rfl := (flows_loads_free hok.loads temp_free).mp hload
        exact absurd hx.2 (by
          unfold REG_EXEC_TEMP REG_STORE_ADDR_TEMP REG_STORE_TEMP REG_LOAD_TEMP
          omega)
      obtain ⟨j, hj, rfl, hs0⟩ := hflows s r' hs ⟨k, hk, hdst.symm⟩ hr.1 hflow
      exact ⟨j, hj, (reads_loads hok).mpr ⟨hs0, hload⟩⟩
    · rintro ⟨j, hj, hxj⟩
      refine emit_reaches hok h ?_ ?_ hxj hres
      · rintro rfl
        exact nomatch ht
      · cases t with
        | basicOp lat ports extraSlots =>
          obtain rfl := Option.some.inj ht
          exact ⟨hj, hk⟩
        | chainedOp first middle last =>
          obtain rfl := Option.some.inj ht
          exact ⟨hj, hk⟩
        | basicMove | convert2Op | xchg | conditionalMove | compareAndExchange | mul | div
        | prefetch | stos | lods | movs | cmps | exec | none => exact nomatch ht
  · intro hnone uop huop hw
    have hle := hr.2
    rcases List.mem_append.mp huop with huop | huop
    · rcases List.mem_append.mp huop with huop | huop
      · have hlow := (writes_load huop hw).1
        unfold REG_LOAD_TEMP at hlow
        omega
      · obtain rfl | ⟨k, hk, rfl⟩ := hwrites uop huop r hw
        · unfold REG_EXEC_TEMP REG_STORE_ADDR_TEMP REG_STORE_TEMP REG_LOAD_TEMP at hle
          omega
        · exact hnone k hk (result_of_dst hok hr)
    · have hlow := (writes_store huop hw).1
      unfold REG_STORE_ADDR_TEMP REG_STORE_TEMP REG_LOAD_TEMP at hlow
      omega

end Regs

/-- `ADC` of two registers, which also reads and writes the flags in register 3. -/
def addWithCarry : List Operand := [.reg 1 true true, .reg 2 true false, .reg 3 true true]

/-- An addition with carry does not wait for the carry. -/
theorem op_exact_carry : ∃ uops,
    tenRegs.emit (.ofOperands tenRegs addWithCarry) (.chainedOp (1, PORTS_015) [] (1, PORTS_015)) =
      some uops ∧ ¬ Reaches uops 3 (.reg 1) := by
  have hok : (Instr.ofOperands tenRegs addWithCarry).Ok tenRegs :=
    Instr.ofOperands_ok (by decide) (by decide)
  refine ⟨_, rfl, fun h => ?_⟩
  obtain ⟨j, hj, hx⟩ := ((Regs.op_exact hok (n := 2)
    (t := .chainedOp (1, PORTS_015) [] (1, PORTS_015)) rfl rfl (x := 3) (r := 1) (by decide)
      (by decide)).1 0 (by decide) (by decide)).mp h
  exact absurd hx (by revert j; decide)

/-! ### On the core -/

/-- The uop `e` makes a result of the instruction whose uops are `block`, the last one first. -/
def Makes (block : List Executed) (e : Executed) (res : Result) : Prop :=
  ∃ after before, block = after ++ e :: before ∧
    res.MadeBy (before.map Executed.emitted).reverse e.emitted (after.map Executed.emitted).reverse

theorem each_append {P : Executed → List Executed → Prop} {l l' : List Executed}
    (h : Each P (l ++ l')) : Each P l' := by
  induction l with
  | nil => exact h
  | cons e l ih => exact ih h.2

/-- In every run of the core whose short distances fit their 32 bits, the result of an instruction
is ready only after the last writer of each register that its template chains with the result, and
by the latency of the uop that makes it. -/
theorem results_wait {μ : Type*} (c : Caches μ) (lineSize : ℕ) (caches : μ) (ops : List CoreOp)
    {s : OooCore μ} (hrun : run (coreStep c lineSize) ops (.init caches) = some s)
    (hnear : ∀ e ∈ s.executed, e.Near) {regs : Regs} {i : Instr} (hok : i.Ok regs) {t : Template}
    {isLocked : Bool} {uops : List DynUop} (hdecode : regs.decodeInstr i isLocked t = some uops)
    {later block earlier : List Executed} (hexec : s.executed = later ++ block ++ earlier)
    (hblock : block.map Executed.emitted = uops.reverse) {j k x : ℕ} {res : Result}
    (hchain : t.Chains i j k) (hx : x ∈ i.sources.getD j []) (hres : i.results[k]? = some res)
    {p : Executed} (hp : lastWriter x earlier = some p) :
    ∃ e, Makes block e res ∧ p.commit + e.minLat ≤ e.commit := by
  have htimed : Each Executed.Waits s.executed := ((good_of_run hrun).inv hnear).timed
  obtain ⟨before, uop, after, rfl, hmade, r, hr, hflow⟩ :=
    Regs.decode_reaches hok hdecode hchain hx hres
  rw [List.reverse_append, List.reverse_cons, List.append_assoc, List.singleton_append] at hblock
  obtain ⟨a, rest, rfl, ha, hrest⟩ := List.map_eq_append_iff.mp hblock
  obtain ⟨e, b, rfl, rfl, hb⟩ := List.map_eq_cons_iff.mp hrest
  rw [hexec, List.append_assoc, List.append_assoc] at htimed
  obtain ⟨hwaits, hbefore⟩ := each_append (each_append htimed)
  obtain ⟨hreads, hne⟩ := DynUop.mem_uses.mp hr
  obtain ⟨e', he', hready⟩ := flows_wait hbefore hne
    (by rw [hb, List.reverse_reverse]; exact hflow) hp
  refine ⟨e, ⟨a, b, rfl, ?_⟩, ?_⟩
  · rwa [ha, hb, List.reverse_reverse, List.reverse_reverse]
  · have hdisp : e'.commit ≤ e.dispatch := hwaits.operands r hne hreads e' he'
    have hlat : e.dispatch + e.minLat ≤ e.commit := hwaits.ordered.latency
    obtain rfl | hready := hready
    all_goals omega

/-- An addition of register 2 to the word that register 1 points to. -/
def addToMemory : Instr :=
  .ofOperands tenRegs [.memory ⟨1, 0⟩ true true, .reg 2 true false, .reg 3 false true]

/-- The addition, after a uop of 23 cycles that writes its register. -/
def addBbl (uops : List DynUop) : BblInfo :=
  ⟨2, 8, 0,
    ⟨0, 0, 2, 0, 23, 0, .GENERAL, 0x01, 0⟩ :: uops.map fun uop => { uop with decCycle := 1 }⟩

theorem results_wait_store : ∃ uops s p e,
    tenRegs.decodeInstr addToMemory false (.basicOp 1 PORTS_015 0) = some uops ∧
    run (coreStep flatCaches 64) (simulated (addBbl uops) [.load 0x80, .store 0x80]) (.init ()) =
      some s ∧ lastWriter 2 (s.executed.drop 4) = some p ∧
    Makes (s.executed.take 4) e (.store 0) ∧ p.commit + 4 ≤ e.commit := by
  obtain ⟨uops, hdecode, hsim⟩ := Option.bind_eq_some_iff.mp (show
    ((tenRegs.decodeInstr addToMemory false (.basicOp 1 PORTS_015 0)).bind fun uops =>
      (run (coreStep flatCaches 64) (simulated (addBbl uops) [.load 0x80, .store 0x80])
        (.init ())).map fun s => (decide (∀ e ∈ s.executed, e.Near),
          decide ((s.executed.take 4).map Executed.emitted = uops.reverse),
          (lastWriter 2 (s.executed.drop 4)).isSome)) = some (true, true, true) by
      decide +kernel)
  obtain ⟨s, hrun, hs⟩ := Option.map_eq_some_iff.mp hsim
  simp only [Prod.mk.injEq] at hs
  obtain ⟨hnear, hblock, hp⟩ := hs
  obtain ⟨p, hp⟩ := Option.isSome_iff_exists.mp hp
  have hok : addToMemory.Ok tenRegs := Instr.ofOperands_ok (by decide) (by decide)
  have hexec : s.executed = [] ++ s.executed.take 4 ++ s.executed.drop 4 :=
    (List.take_append_drop 4 s.executed).symm
  have hchain : (Template.basicOp 1 PORTS_015 0).Chains addToMemory 1 0 :=
    ⟨by decide, by decide⟩
  have hres : addToMemory.results[0]? = some (.store 0) := by decide
  obtain ⟨e, hmakes, hle⟩ := results_wait flatCaches 64 () _ hrun (of_decide_eq_true hnear) hok
    hdecode hexec (of_decide_eq_true hblock) hchain (by decide) hres hp
  refine ⟨uops, s, p, e, hdecode, hrun, hp, hmakes, ?_⟩
  obtain ⟨after, before, -, htype, -⟩ := hmakes
  have htype : e.uop.type = .STORE := htype
  rw [Executed.minLat, htype] at hle
  exact hle

/-! ### Loads and stores -/

/-- The number of loads and of stores among some uops. -/
def accesses (l : List DynUop) : ℕ × ℕ :=
  (l.countP fun uop => uop.type = .LOAD, l.countP fun uop => uop.type = .STORE)

/-- The operands in memory are those that the template handles: all of them, or the fixed ones of
the string operations. -/
def Template.Fits (i : Instr) : Template → Prop
  | .basicMove .. => i.numLoads ≤ 1 ∧ i.numStores ≤ 1
  | .xchg _ => i.numLoads = i.numStores
  | .prefetch => i.numStores = 0
  | .stos => i.numLoads = 0 ∧ i.numStores = 1
  | .lods => i.numLoads = 1 ∧ i.numStores = 0
  | .movs => i.numLoads = 1 ∧ i.numStores = 1
  | .cmps => i.numLoads = 2 ∧ i.numStores = 0
  | .exec uops => uops ≠ [] ∧ i.numLoads = 0 ∧ i.numStores = 0 ∧ accesses uops = (0, 0)
  | _ => True

@[simp] theorem accesses_nil : accesses [] = (0, 0) := rfl

@[simp] theorem accesses_append (l l' : List DynUop) :
    accesses (l ++ l') = accesses l + accesses l' :=
  Prod.ext List.countP_append List.countP_append

/-- Uops that are no loads and stores do not count. -/
theorem accesses_general {l : List DynUop} (h : ∀ uop ∈ l, uop.type = .GENERAL ∨
    uop.type = .FENCE) : accesses l = (0, 0) := by
  refine Prod.ext (List.countP_eq_zero.mpr fun uop huop htype => ?_)
    (List.countP_eq_zero.mpr fun uop huop htype => ?_)
  all_goals
    have htype := of_decide_eq_true htype
    obtain hgen | hfence := h uop huop
    · exact nomatch hgen.symm.trans htype
    · exact nomatch hfence.symm.trans htype

namespace Regs

variable {regs : Regs} {i : Instr} {t : Template} {uops : List DynUop}

theorem accesses_storeUops (idx srcReg : ℕ) (op : MemOp) :
    accesses (regs.storeUops idx op srcReg) = (0, 1) := rfl

theorem accesses_emitLoads : accesses (regs.emitLoads i) = (i.numLoads, 0) := by
  have hall : ∀ uop ∈ regs.emitLoads i, uop.type = .LOAD := fun uop huop =>
    type_of_mem_emitLoads huop
  refine Prod.ext ?_ (List.countP_eq_zero.mpr fun uop huop htype => ?_)
  · refine (List.countP_eq_length.mpr fun uop huop => decide_eq_true (hall uop huop)).trans ?_
    rw [emitLoads, List.length_map, List.length_zipIdx]
    rfl
  · exact nomatch (hall uop huop).symm.trans (of_decide_eq_true htype)

theorem accesses_emitStores : accesses (regs.emitStores i) = (0, i.numStores) := by
  have hfrom (ops : List MemOp) (n : ℕ) : accesses ((ops.zipIdx n).flatMap fun p =>
      regs.storeUops p.2 p.1 (regs.REG_STORE_TEMP + p.2)) = (0, ops.length) := by
    induction ops generalizing n with
    | nil => rfl
    | cons op ops ih =>
      rw [List.zipIdx_cons, List.flatMap_cons, accesses_append, ih (n + 1), accesses_storeUops,
        List.length_cons, Nat.add_comm ops.length]
      rfl
  exact hfrom i.storeOps 0

/-- The shape of the emit functions that load all operands first and store them last. -/
theorem accesses_between {E : List DynUop} (hE : ∀ uop ∈ E, uop.type = .GENERAL) :
    accesses (regs.emitLoads i ++ E ++ regs.emitStores i) = (i.numLoads, i.numStores) := by
  rw [accesses_append, accesses_append, accesses_emitLoads, accesses_emitStores,
    accesses_general fun uop huop => .inl (hE uop huop)]
  exact Prod.ext rfl (Nat.zero_add _)

theorem accesses_basicOp (lat : ℕ) (ports : BitVec 8) (extraSlots : ℕ) :
    accesses (regs.emitBasicOp i lat ports extraSlots) = (i.numLoads, i.numStores) :=
  accesses_between (List.forall_mem_singleton.mpr rfl)

theorem accesses_emitLoad {idx destReg : ℕ} {l : List DynUop}
    (h : regs.emitLoad i idx destReg = some l) : accesses l = (1, 0) := by
  obtain ⟨op, -, rfl⟩ := Option.map_eq_some_iff.mp h
  rfl

theorem accesses_emitStore {idx srcReg : ℕ} {l : List DynUop}
    (h : regs.emitStore i idx srcReg = some l) : accesses l = (0, 1) := by
  obtain ⟨op, -, rfl⟩ := Option.map_eq_some_iff.mp h
  rfl

theorem accesses_basicMove {lat : ℕ} {ports : BitVec 8} (hfits : i.numLoads ≤ 1 ∧ i.numStores ≤ 1)
    (h : regs.emitBasicMove i lat ports = some uops) :
    accesses uops = (i.numLoads, i.numStores) := by
  unfold emitBasicMove at h
  dsimp only at h
  split at h
  case h_1 hloads hstores =>
    obtain ⟨out, -, rfl⟩ := Option.map_eq_some_iff.mp h
    rw [hloads, hstores]
    rfl
  case h_2 n hloads hstores =>
    obtain ⟨out, -, h⟩ := Option.bind_eq_some_iff.mp h
    rw [accesses_emitLoad h, hstores]
    exact Prod.ext (by omega) rfl
  case h_3 n hloads hstores =>
    rw [accesses_emitStore h, hloads]
    exact Prod.ext rfl (by omega)
  case h_4 n m hloads hstores =>
    obtain ⟨load, hload, h⟩ := Option.bind_eq_some_iff.mp h
    obtain ⟨store, hstore, rfl⟩ := Option.map_eq_some_iff.mp h
    rw [accesses_append, accesses_emitLoad hload, accesses_emitStore hstore]
    rw [hloads, hstores] at hfits ⊢
    obtain ⟨rfl, rfl⟩ : n = 0 ∧ m = 0 := by omega
    rfl

theorem accesses_xchg {lockPrefix : Bool} (hfits : i.numLoads = i.numStores)
    (h : regs.emitXchg i lockPrefix = some uops) : accesses uops = (i.numLoads, i.numStores) := by
  unfold emitXchg at h
  dsimp only at h
  split at h
  case h_1 a a' _ _ =>
    obtain ⟨⟨hload, hstore, -⟩, h⟩ := Option.ite_none_right_eq_some.mp h
    obtain ⟨load, hl, h⟩ := Option.bind_eq_some_iff.mp h
    obtain ⟨store, hs, rfl⟩ := Option.map_eq_some_iff.mp h
    rw [accesses_append, accesses_append, accesses_append, accesses_emitLoad hl,
      accesses_emitStore hs, hload, hstore]
    cases lockPrefix
    all_goals rfl
  case h_2 a b a' b' _ _ =>
    obtain ⟨⟨hload, -⟩, h⟩ := Option.ite_none_right_eq_some.mp h
    obtain rfl := Option.some.inj h
    rw [← hfits, hload]
    rfl
  case h_3 => cases h

theorem accesses_conditionalMove {lat : ℕ} {ports : BitVec 8}
    (h : regs.emitConditionalMove i lat ports = some uops) :
    accesses uops = (i.numLoads, i.numStores) := by
  obtain ⟨hstores, h⟩ := Option.ite_none_left_eq_some.mp h
  rw [of_not_not hstores]
  split at h
  case h_1 hloads _ =>
    obtain rfl := Option.some.inj h
    rw [Instr.numLoads, hloads]
    rfl
  case h_2 hloads _ =>
    obtain rfl := Option.some.inj h
    rw [Instr.numLoads, hloads]
    rfl
  case h_3 => cases h

theorem accesses_emit (hfits : t.Fits i) (h : regs.emit i t = some uops) (hne : uops ≠ []) :
    accesses uops = (i.numLoads, i.numStores) := by
  cases t with
  | basicMove lat ports => exact accesses_basicMove hfits h
  | basicOp lat ports extraSlots =>
    obtain rfl := Option.some.inj h
    exact accesses_basicOp ..
  | chainedOp first middle last =>
    obtain ⟨-, h⟩ := Option.ite_none_right_eq_some.mp h
    obtain rfl := Option.some.inj h
    refine accesses_between (List.forall_mem_cons.mpr ⟨rfl, fun uop huop => ?_⟩)
    rcases List.mem_append.mp huop with huop | huop
    · exact type_of_mem_chain _ _ _ uop huop
    · exact List.mem_singleton.mp huop ▸ rfl
  | convert2Op lat1 lat2 ports1 ports2 =>
    change regs.emitConvert2Op i lat1 lat2 ports1 ports2 = some uops at h
    unfold emitConvert2Op at h
    split at h
    case isTrue => exact absurd (Option.some.inj h).symm hne
    case isFalse hshape =>
      obtain ⟨dst, -, rfl⟩ := Option.map_eq_some_iff.mp h
      rw [accesses_append, accesses_emitLoads, show i.numStores = 0 by omega]
      rfl
  | xchg lockPrefix => exact accesses_xchg hfits h
  | conditionalMove lat ports => exact accesses_conditionalMove h
  | compareAndExchange =>
    change regs.emitCompareAndExchange i = some uops at h
    unfold emitCompareAndExchange at h
    split at h
    case h_2 => cases h
    case h_1 =>
      obtain ⟨-, h⟩ := Option.ite_none_right_eq_some.mp h
      obtain rfl := Option.some.inj h
      refine accesses_between ?_
      split
      all_goals simp [emitExecUop]
  | mul =>
    change regs.emitMul i = some uops at h
    unfold emitMul at h
    split at h
    case isFalse =>
      obtain rfl := Option.some.inj h
      exact accesses_basicOp ..
    case isTrue =>
      obtain ⟨-, h⟩ := Option.ite_none_right_eq_some.mp h
      obtain rfl := Option.some.inj h
      exact accesses_between (by simp [emitExecUop])
  | div width =>
    obtain ⟨-, h⟩ := Option.ite_none_right_eq_some.mp h
    obtain ⟨lat, -, h⟩ := Option.map_eq_some_iff.mp h
    split at h
    case isTrue => exact h ▸ accesses_between (by simp [emitExecUop])
    case isFalse =>
      split at h
      case isTrue => exact h ▸ accesses_basicOp ..
      case isFalse => exact absurd h.symm hne
  | prefetch =>
    obtain rfl := Option.some.inj h
    rw [accesses_emitLoads, hfits]
  | stos =>
    obtain ⟨store, hs, rfl⟩ := Option.map_eq_some_iff.mp h
    rw [accesses_append, accesses_emitStore hs, hfits.1, hfits.2]
    rfl
  | lods =>
    obtain ⟨load, hl, rfl⟩ := Option.map_eq_some_iff.mp h
    rw [accesses_append, accesses_emitLoad hl, hfits.1, hfits.2]
    rfl
  | movs =>
    obtain ⟨load, hl, h⟩ := Option.bind_eq_some_iff.mp h
    obtain ⟨store, hs, rfl⟩ := Option.map_eq_some_iff.mp h
    rw [accesses_append, accesses_append, accesses_emitLoad hl, accesses_emitStore hs, hfits.1,
      hfits.2]
    rfl
  | cmps =>
    obtain ⟨load0, hl0, h⟩ := Option.bind_eq_some_iff.mp h
    obtain ⟨load1, hl1, rfl⟩ := Option.map_eq_some_iff.mp h
    rw [accesses_append, accesses_append, accesses_emitLoad hl0, accesses_emitLoad hl1, hfits.1,
      hfits.2]
    rfl
  | exec l =>
    obtain rfl := Option.some.inj h
    obtain ⟨-, hloads, hstores, hacc⟩ := hfits
    rw [hacc, hloads, hstores]
  | none => exact absurd (Option.some.inj h).symm hne

/-- An instruction loads and stores once for each memory operand that it reads and writes. -/
theorem accesses_decode {isLocked : Bool} (hfits : t.Fits i)
    (h : regs.decodeInstr i isLocked t = some uops) :
    accesses uops = (i.numLoads, i.numStores) := by
  obtain ⟨emitted, body, hemit, rfl, rfl, -⟩ := decode_cases h
  have hfence (lat : ℕ) : accesses (if isLocked then [emitFence lat] else []) = (0, 0) := by
    cases isLocked
    all_goals rfl
  have hbody : accesses (if emitted = [] then regs.emitBasicOp i 1 PORTS_015 0 else emitted) =
      (i.numLoads, i.numStores) := by
    split
    case isTrue => exact accesses_basicOp ..
    case isFalse hne => exact accesses_emit hfits hemit hne
  rw [accesses_append, accesses_append, hfence, hfence, hbody]
  exact Prod.ext (Nat.zero_add _) (Nat.zero_add _)

end Regs

end Doppelganger.Decoder
