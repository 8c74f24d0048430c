import Doppelganger.Decoder.Dataflow

/-! The emit functions, one by one: which sources of an instruction each of them chains with which
of its results. -/

namespace Doppelganger.Decoder

open Doppelganger.Core Lib

/-- Whether the uops of a template take source `j` of the instruction to its result `k`.  Some
templates have a bound on the sources or results that they look at, and a conditional move from
memory leaves its result out. -/
def Template.Chains (i : Instr) (j k : ℕ) : Template → Prop
  | .basicMove .. => i.srcs ≤ 1 ∧ i.dsts = 1
  | .basicOp .. | .none => j < 2 ∧ k < 2
  | .chainedOp _ middle _ => j < middle.length + 2 ∧ k < 2
  | .convert2Op .. => i.numStores = 0 ∧ i.numOutRegs = 1 ∧ i.srcs = 1
  | .xchg _ => j ≠ k ∧ i.numLoads = i.numStores
  | .conditionalMove .. => i.numLoads = 0
  | .compareAndExchange =>
    -- the register that is compared is the last source, and the flags are the last result
    (k = 0 ∨ j ≠ 1) ∧ i.numLoads = i.numStores ∧ ∀ r ∈ i.inRegs, i.results[2]? ≠ some (.reg r)
  | .mul => i.dsts = 3 ∨ j < 2 ∧ k < 2
  | .div _ => i.srcs = 3 ∧ i.dsts = 3 ∨ i.srcs ≤ 2 ∧ i.dsts ≤ 2
  | _ => False

section Exec

variable {E : List DynUop} {a b c d d0 d1 d2 s r t lat lat' : ℕ} {ports ports' : BitVec 8}
  {slots slots' : ℕ}

@[simp] theorem mem_uses_exec : r ∈ uses (emitExecUop a b d0 d1 lat ports slots) ↔
    (r = a ∨ r = b) ∧ r ≠ 0 :=
  DynUop.mem_uses

@[simp] theorem mem_defs_exec : r ∈ defs (emitExecUop a b d0 d1 lat ports slots) ↔
    (r = d0 ∨ r = d1) ∧ r ≠ 0 :=
  DynUop.mem_defs

theorem load_ne_store {op : MemOp} : (loadUop op r).type ≠ .STORE := by
  intro h
  cases h

theorem exec_ne_store : (emitExecUop a b d0 d1 lat ports slots).type ≠ .STORE := by
  intro h
  cases h

/-- The last uop makes a result of what its operands are made from. -/
theorem reaches_concat {uop : DynUop} (hd : d ∈ defs uop) (hr : r ∈ uses uop)
    (h : Flows E s r) : Reaches (E ++ [uop]) s (.reg d) :=
  ⟨E, uop, [], rfl, ⟨hd, nofun⟩, r, hr, h⟩

/-- A uop passes on the value of a register that it reads. -/
theorem flows_self {uop : DynUop} (h : s ∈ uses uop) : Flows [uop] s s :=
  flows_singleton.mpr <| or_iff_not_imp_right.mpr fun hkeep => by
    refine ⟨h, ?_⟩
    simpa using hkeep

/-- A uop that does not write the result changes nothing. -/
theorem Reaches.concat {uop : DynUop} (h : Reaches E s (.reg d)) (hd : d ∉ defs uop) :
    Reaches (E ++ [uop]) s (.reg d) :=
  h.append_reg (List.forall_mem_singleton.mpr hd)

end Exec

namespace Regs

variable {regs : Regs} {i : Instr} {x s r j k : ℕ} {res : Result}

/-- A source register is none, that of a load, or one of the instruction. -/
theorem src_cases (hok : i.Ok regs) (j : ℕ) : (regs.srcRegs i).getD j 0 = 0 ∨
    (regs.REG_LOAD_TEMP ≤ (regs.srcRegs i).getD j 0 ∧
      (regs.srcRegs i).getD j 0 < regs.REG_STORE_TEMP) ∨
    (regs.srcRegs i).getD j 0 ∈ i.inRegs ∧ regs.Real ((regs.srcRegs i).getD j 0) := by
  rw [List.getD_eq_getElem?_getD]
  cases h : (regs.srcRegs i)[j]? with
  | none => exact .inl rfl
  | some r =>
    have hmem := List.mem_of_getElem? h
    simp only [srcRegs, List.mem_append, List.mem_map, List.mem_range, List.mem_cons,
      List.not_mem_nil, or_false] at hmem
    rw [Option.getD_some]
    rcases hmem with (⟨n, hn, rfl⟩ | hin) | rfl | rfl
    · have hloads := hok.loads
      unfold REG_STORE_TEMP
      omega
    · exact .inr (.inr ⟨hin, hok.sources [r]
        (List.mem_append_right _ (List.mem_map_of_mem hin)) r (List.mem_singleton_self r)⟩)
    all_goals exact .inl rfl

theorem src_lt (hok : i.Ok regs) (j : ℕ) : (regs.srcRegs i).getD j 0 < regs.REG_EXEC_TEMP := by
  unfold REG_EXEC_TEMP REG_STORE_ADDR_TEMP
  obtain hs | ⟨-, hs⟩ | ⟨-, -, hs⟩ := src_cases hok j
  · omega
  · omega
  · unfold REG_STORE_TEMP REG_LOAD_TEMP
    omega

theorem dst_lt (hok : i.Ok regs) (k : ℕ) : (regs.dstRegs i).getD k 0 < regs.REG_EXEC_TEMP := by
  rw [List.getD_eq_getElem?_getD]
  cases h : (regs.dstRegs i)[k]? with
  | none => exact Nat.succ_pos _
  | some r =>
    have hmem := List.mem_of_getElem? h
    simp only [dstRegs, List.mem_append, List.mem_map, List.mem_range, List.mem_cons,
      List.not_mem_nil, or_false] at hmem
    have hstores := hok.stores
    change r < _
    unfold REG_EXEC_TEMP REG_STORE_ADDR_TEMP
    rcases hmem with (⟨n, hn, rfl⟩ | hout) | rfl | rfl
    · omega
    · have := (hok.outRegs r hout).2
      unfold REG_STORE_TEMP REG_LOAD_TEMP
      omega
    all_goals omega

theorem dst_ne (hok : i.Ok regs) (hres : i.results[k]? = some res) :
    (regs.dstRegs i).getD k 0 ≠ 0 := by
  obtain ⟨hk, -, hdst⟩ | ⟨r, -, hdst, hne, -⟩ := dst_cases hok hres
  · rw [hdst]
    unfold REG_STORE_TEMP REG_LOAD_TEMP
    omega
  · rwa [hdst]

/-- The exec uops between the loads and the stores take a source to a result. -/
theorem reaches_between (hok : i.Ok regs) {E : List DynUop} (hE : ∀ uop ∈ E, uop.type ≠ .STORE)
    (hx : x ∈ i.sources.getD j []) (hres : i.results[k]? = some res)
    (h : (regs.srcRegs i).getD j 0 ≠ 0 →
      Reaches E ((regs.srcRegs i).getD j 0) (.reg ((regs.dstRegs i).getD k 0))) :
    Reaches (regs.emitLoads i ++ E ++ regs.emitStores i) x res := by
  obtain ⟨hne, hload⟩ := (reads_loads hok).mp hx
  exact reaches_result hok hE hres hload (h hne)

theorem mem_uses_src (hj : j < 2) (hs : (regs.srcRegs i).getD j 0 ≠ 0) {d0 d1 lat slots : ℕ}
    {ports : BitVec 8} : (regs.srcRegs i).getD j 0 ∈ uses (emitExecUop
      ((regs.srcRegs i).getD 0 0) ((regs.srcRegs i).getD 1 0) d0 d1 lat ports slots) := by
  refine mem_uses_exec.mpr ⟨?_, hs⟩
  have hj' : j = 0 ∨ j = 1 := by omega
  exact hj'.imp (fun h => by rw [h]) fun h => by rw [h]

theorem mem_defs_dst (hok : i.Ok regs) (hres : i.results[k]? = some res) (hk : k < 2)
    {a b lat slots : ℕ} {ports : BitVec 8} : (regs.dstRegs i).getD k 0 ∈ defs (emitExecUop a b
      ((regs.dstRegs i).getD 0 0) ((regs.dstRegs i).getD 1 0) lat ports slots) := by
  refine mem_defs_exec.mpr ⟨?_, dst_ne hok hres⟩
  have hk' : k = 0 ∨ k = 1 := by omega
  exact hk'.imp (fun h => by rw [h]) fun h => by rw [h]

/-! ### One exec uop, and chains of them -/

theorem basicOp_chains (hok : i.Ok regs) {lat : ℕ} {ports : BitVec 8} {extraSlots : ℕ}
    (hj : j < 2) (hk : k < 2) (hx : x ∈ i.sources.getD j []) (hres : i.results[k]? = some res) :
    Reaches (regs.emitBasicOp i lat ports extraSlots) x res := by
  refine reaches_between hok (List.forall_mem_singleton.mpr exec_ne_store) hx hres fun hs => ?_
  exact reaches_concat (E := []) (mem_defs_dst hok hres hk) (mem_uses_src hj hs) rfl

theorem temp_ne : regs.REG_EXEC_TEMP ≠ 0 := Nat.succ_ne_zero _

/-- The middle of a chain keeps what has come into it and adds a source for each uop. -/
theorem flows_chainMiddle (src : List ℕ) (n : ℕ) (middle : List (ℕ × BitVec 8)) :
    Flows (regs.chainMiddle src n middle) s regs.REG_EXEC_TEMP ↔ s = regs.REG_EXEC_TEMP ∨
      ∃ j < middle.length, s = src.getD (n + 1 + j) 0 ∧ s ≠ 0 := by
  induction middle generalizing s n with
  | nil =>
    refine ⟨.inl, ?_⟩
    rintro (rfl | ⟨j, hj, -⟩)
    · rfl
    · exact absurd hj (Nat.not_lt_zero j)
  | cons op middle ih =>
    rw [chainMiddle, flows_cons, ih (n + 1), mem_uses_exec, mem_defs_exec]
    constructor
    · rintro (⟨⟨rfl | rfl, hs⟩, -⟩ | ⟨-, rfl | ⟨j, hj, rfl, hs⟩⟩)
      · exact .inl rfl
      · exact .inr ⟨0, Nat.succ_pos _, rfl, hs⟩
      · exact .inl rfl
      · refine .inr ⟨j + 1, Nat.succ_lt_succ hj, ?_, hs⟩
        rw [Nat.add_right_comm, Nat.add_assoc _ j]
    · have hlast : ∃ w, w ∈ defs (emitExecUop regs.REG_EXEC_TEMP (src.getD (n + 1) 0)
          regs.REG_EXEC_TEMP 0 op.1 op.2 0) ∧
            Flows (regs.chainMiddle src (n + 1) middle) w regs.REG_EXEC_TEMP :=
        ⟨_, mem_defs_exec.mpr ⟨.inl rfl, temp_ne⟩, (ih (n + 1)).mpr (.inl rfl)⟩
      rintro (rfl | ⟨j, hj, rfl, hs⟩)
      · exact .inl ⟨⟨.inl rfl, temp_ne⟩, hlast⟩
      · cases j with
        | zero => exact .inl ⟨⟨.inr rfl, hs⟩, hlast⟩
        | succ j =>
          by_cases heq : src.getD (n + 1 + (j + 1)) 0 = regs.REG_EXEC_TEMP
          · exact .inl ⟨⟨.inl heq, hs⟩, hlast⟩
          · refine .inr ⟨fun h => h.1.elim heq hs, .inr ⟨j, Nat.lt_of_succ_lt_succ hj, ?_, hs⟩⟩
            rw [Nat.add_right_comm _ 1 j, Nat.add_assoc _ j]

/-- The chain up to its last uop takes the sources before the last one. -/
theorem flows_chain (src : List ℕ) (first : ℕ × BitVec 8) (middle : List (ℕ × BitVec 8))
    (hs : s ≠ regs.REG_EXEC_TEMP) : Flows (emitExecUop (src.getD 0 0) (src.getD 1 0)
      regs.REG_EXEC_TEMP 0 first.1 first.2 0 :: regs.chainMiddle src 1 middle) s
        regs.REG_EXEC_TEMP ↔ ∃ j < middle.length + 2, s = src.getD j 0 ∧ s ≠ 0 := by
  have hkeep : s ∉ defs (emitExecUop (src.getD 0 0) (src.getD 1 0) regs.REG_EXEC_TEMP 0 first.1
      first.2 0) := fun h => (mem_defs_exec.mp h).1.elim hs (mem_defs_exec.mp h).2
  rw [flows_cons, flows_chainMiddle]
  constructor
  · rintro (⟨hread, -⟩ | ⟨-, hmid⟩)
    · obtain ⟨rfl | rfl, hne⟩ := mem_uses_exec.mp hread
      · exact ⟨0, Nat.succ_pos _, rfl, hne⟩
      · exact ⟨1, Nat.succ_lt_succ (Nat.succ_pos _), rfl, hne⟩
    · obtain ⟨j, hj, heq, hne⟩ := hmid.resolve_left hs
      exact ⟨1 + 1 + j, by omega, heq, hne⟩
  · have hfirst : ∃ w ∈ defs (emitExecUop (src.getD 0 0) (src.getD 1 0) regs.REG_EXEC_TEMP 0
        first.1 first.2 0), Flows (regs.chainMiddle src 1 middle) w regs.REG_EXEC_TEMP :=
      ⟨_, mem_defs_exec.mpr ⟨.inl rfl, temp_ne⟩, (flows_chainMiddle ..).mpr (.inl rfl)⟩
    rintro ⟨j, hj, heq, hne⟩
    match j with
    | 0 => exact .inl ⟨mem_uses_exec.mpr ⟨.inl heq, hne⟩, hfirst⟩
    | 1 => exact .inl ⟨mem_uses_exec.mpr ⟨.inr heq, hne⟩, hfirst⟩
    | j + 2 => exact .inr ⟨hkeep, .inr ⟨j, by omega, by rw [heq, Nat.add_comm j 2], hne⟩⟩

/-- No uop of a chain stores. -/
theorem type_of_mem_chain (src : List ℕ) (n : ℕ) (middle : List (ℕ × BitVec 8)) :
    ∀ uop ∈ regs.chainMiddle src n middle, uop.type = .GENERAL := by
  induction middle generalizing n with
  | nil => exact nofun
  | cons op middle ih => exact List.forall_mem_cons.mpr ⟨rfl, ih (n + 1)⟩

theorem writes_chain (src : List ℕ) (n : ℕ) (middle : List (ℕ × BitVec 8)) :
    ∀ uop ∈ regs.chainMiddle src n middle, ∀ r ∈ defs uop, r = regs.REG_EXEC_TEMP := by
  induction middle generalizing n with
  | nil => exact nofun
  | cons op middle ih =>
    refine List.forall_mem_cons.mpr ⟨fun r hr => ?_, ih (n + 1)⟩
    obtain ⟨hr, hne⟩ := mem_defs_exec.mp hr
    exact hr.resolve_right hne

theorem chainedOp_chains (hok : i.Ok regs) {first last : ℕ × BitVec 8}
    {middle : List (ℕ × BitVec 8)} {uops : List DynUop}
    (h : regs.emitChainedOp i first middle last = some uops) (hj : j < middle.length + 2)
    (hk : k < 2) (hx : x ∈ i.sources.getD j []) (hres : i.results[k]? = some res) :
    Reaches uops x res := by
  obtain ⟨-, h⟩ := Option.ite_none_right_eq_some.mp h
  obtain rfl := Option.some.inj h
  have htype : ∀ uop ∈ emitExecUop ((regs.srcRegs i).getD 0 0) ((regs.srcRegs i).getD 1 0)
      regs.REG_EXEC_TEMP 0 first.1 first.2 0 :: (regs.chainMiddle (regs.srcRegs i) 1 middle ++
        [emitExecUop regs.REG_EXEC_TEMP ((regs.srcRegs i).getD (middle.length + 2 - 1) 0)
          ((regs.dstRegs i).getD 0 0) ((regs.dstRegs i).getD 1 0) last.1 last.2 0]),
      uop.type ≠ .STORE := by
    refine List.forall_mem_cons.mpr ⟨exec_ne_store, fun uop huop => ?_⟩
    rcases List.mem_append.mp huop with huop | huop
    · rw [type_of_mem_chain _ _ _ uop huop]
      exact nofun
    · obtain rfl := List.mem_singleton.mp huop
      exact nofun
  refine reaches_between hok htype hx hres fun hs => ?_
  exact reaches_concat (E := _ :: regs.chainMiddle (regs.srcRegs i) 1 middle)
    (mem_defs_dst hok hres hk) (mem_uses_exec.mpr ⟨.inl rfl, temp_ne⟩)
    ((flows_chain _ first middle (src_lt hok j).ne).mpr ⟨j, hj, rfl, hs⟩)

/-! ### Moves and conversions -/

theorem sources_length : i.sources.length = i.srcs := by
  simp [Instr.sources, Instr.srcs, Instr.numLoads, Instr.numInRegs]

theorem results_length : i.results.length = i.dsts := by
  simp [Instr.results, Instr.dsts, Instr.numStores, Instr.numOutRegs]

theorem lt_srcs (hx : x ∈ i.sources.getD j []) : j < i.srcs := by
  by_contra hge
  rw [List.getD_eq_getElem?_getD, List.getElem?_eq_none (by rw [sources_length]; omega)] at hx
  exact absurd hx List.not_mem_nil

theorem lt_dsts (hres : i.results[k]? = some res) : k < i.dsts :=
  results_length ▸ (List.getElem?_eq_some_iff.mp hres).1

theorem emitStores_nil (h : i.numStores = 0) : regs.emitStores i = [] := by
  unfold emitStores
  rw [List.eq_nil_of_length_eq_zero h]
  rfl

theorem singleton_cases {α β : Type*} (l : List α) (l' : List β) (h : l.length + l'.length = 1) :
    l = [] ∧ (∃ a, l' = [a]) ∨ (∃ a, l = [a]) ∧ l' = [] := by
  cases l with
  | nil => exact .inl ⟨rfl, List.length_eq_one_iff.mp (by simpa using h)⟩
  | cons a l =>
    have hnil : l.length = 0 ∧ l'.length = 0 := by
      rw [List.length_cons] at h
      omega
    exact .inr ⟨⟨a, by rw [List.eq_nil_of_length_eq_zero hnil.1]⟩,
      List.eq_nil_of_length_eq_zero hnil.2⟩

/-- The only source of an instruction. -/
theorem src_zero (h : i.srcs = 1) : (regs.srcRegs i).getD 0 0 =
    if i.numLoads ≠ 0 then regs.REG_LOAD_TEMP else i.inRegs.headD 0 := by
  obtain ⟨loads, ins, outs, stores⟩ := i
  obtain ⟨rfl, a, rfl⟩ | ⟨⟨op, rfl⟩, rfl⟩ := singleton_cases loads ins h
  all_goals rfl

theorem convert2Op_chains (hok : i.Ok regs) {lat1 lat2 : ℕ} {ports1 ports2 : BitVec 8}
    {uops : List DynUop} (h : regs.emitConvert2Op i lat1 lat2 ports1 ports2 = some uops)
    (hshape : i.numStores = 0 ∧ i.numOutRegs = 1 ∧ i.srcs = 1)
    (hx : x ∈ i.sources.getD j []) (hres : i.results[k]? = some res) : Reaches uops x res := by
  obtain ⟨hstores, houts, hsrcs⟩ := hshape
  have hdsts : i.dsts = 1 := by rw [Instr.dsts, hstores, houts]
  obtain rfl : j = 0 := by have := lt_srcs hx; omega
  obtain rfl : k = 0 := by have := lt_dsts hres; omega
  unfold emitConvert2Op at h
  rw [if_neg (by change i.numLoads + i.numInRegs = 1 at hsrcs; omega), ← src_zero hsrcs] at h
  obtain ⟨dst, hdst, rfl⟩ := Option.map_eq_some_iff.mp h
  have hout : (regs.dstRegs i).getD 0 0 = dst := by
    obtain ⟨outs, houts'⟩ := List.head?_eq_some_iff.mp hdst
    rw [dstRegs, hstores, houts']
    rfl
  have htype : ∀ uop ∈ [emitExecUop ((regs.srcRegs i).getD 0 0) 0 regs.REG_EXEC_TEMP 0 lat1
      ports1 0, emitExecUop regs.REG_EXEC_TEMP 0 dst 0 lat2 ports2 0], uop.type ≠ .STORE :=
    List.forall_mem_cons.mpr ⟨exec_ne_store, List.forall_mem_singleton.mpr exec_ne_store⟩
  have hreach := reaches_between hok htype hx hres fun hs => by
    rw [hout]
    refine reaches_concat (E := [emitExecUop _ 0 regs.REG_EXEC_TEMP 0 lat1 ports1 0])
      (r := regs.REG_EXEC_TEMP) (mem_defs_exec.mpr ⟨.inl rfl, hout ▸ dst_ne hok hres⟩)
      (mem_uses_exec.mpr ⟨.inl rfl, temp_ne⟩) (flows_singleton.mpr (.inl ?_))
    exact ⟨mem_uses_exec.mpr ⟨.inl rfl, hs⟩, mem_defs_exec.mpr ⟨.inl rfl, temp_ne⟩⟩
  rwa [emitStores_nil hstores, List.append_nil] at hreach

/-- The first store takes the value of its register. -/
theorem reaches_store {E : List DynUop} (hE : ∀ uop ∈ E, uop.type ≠ .STORE) (h : Flows E x r)
    (hr : r ≠ 0) (hne : r ≠ regs.REG_STORE_ADDR_TEMP) (op : MemOp) :
    Reaches (E ++ regs.storeUops 0 op r) x (.store 0) := by
  refine ⟨E ++ [regs.storeAddrUop 0 op], regs.storeUop 0 r, [], by simp [storeUops], ⟨rfl, ?_⟩, r,
    DynUop.mem_uses.mpr ⟨.inr rfl, hr⟩, flows_concat.mpr (.inr ⟨fun hw => ?_, h⟩)⟩
  · refine List.countP_eq_zero.mpr fun uop huop htype => ?_
    rcases List.mem_append.mp huop with huop | huop
    · exact hE uop huop (of_decide_eq_true htype)
    · obtain rfl := List.mem_singleton.mp huop
      cases of_decide_eq_true htype
  · exact (DynUop.mem_defs.mp hw).1.elim hne hr

theorem basicMove_chains (hok : i.Ok regs) {lat : ℕ} {ports : BitVec 8} {uops : List DynUop}
    (h : regs.emitBasicMove i lat ports = some uops) (hsrcs : i.srcs ≤ 1) (hdsts : i.dsts = 1)
    (hx : x ∈ i.sources.getD j []) (hres : i.results[k]? = some res) : Reaches uops x res := by
  have hj := lt_srcs hx
  obtain rfl : j = 0 := by omega
  obtain rfl : k = 0 := by have := lt_dsts hres; omega
  have hs := (reads_loads hok).mp hx
  have hreal := hok.sources
  have hout := hok.outRegs
  obtain ⟨loads, ins, outs, stores⟩ := i
  obtain ⟨rfl, a, rfl⟩ | ⟨⟨op, rfl⟩, rfl⟩ := singleton_cases loads ins (by
    change loads.length + ins.length ≤ 1 at hsrcs
    change 0 < loads.length + ins.length at hj
    omega)
  all_goals obtain ⟨rfl, o, rfl⟩ | ⟨⟨op', rfl⟩, rfl⟩ := singleton_cases stores outs hdsts
  · obtain rfl := Option.some.inj h
    obtain rfl := Option.some.inj hres
    obtain ⟨hne, rfl⟩ : a ≠ 0 ∧ x = a := hs
    exact reaches_concat (E := []) (mem_defs_exec.mpr ⟨.inl rfl, (hout o (by simp)).1⟩)
      (mem_uses_exec.mpr ⟨.inl rfl, hne⟩) rfl
  · obtain rfl := Option.some.inj h
    obtain rfl := Option.some.inj hres
    obtain ⟨hne, rfl⟩ : a ≠ 0 ∧ x = a := hs
    have hle : x ≤ regs.REG_LAST := (hreal [x] (by simp [Instr.sources]) x (by simp)).2
    change Reaches (regs.storeUops 0 op' (if x = 0 then _ else x)) x _
    rw [if_neg hne]
    refine reaches_store (E := []) (List.forall_mem_nil _) rfl hne ?_ op'
    unfold REG_STORE_ADDR_TEMP REG_STORE_TEMP REG_LOAD_TEMP
    omega
  · obtain rfl := Option.some.inj h
    obtain rfl := Option.some.inj hres
    have ho : o ≠ 0 := (hout o (by simp)).1
    change Reaches [loadUop op (if o = 0 then _ else o)] x _
    rw [if_neg ho]
    exact reaches_concat (E := []) (DynUop.mem_defs.mpr ⟨.inl rfl, ho⟩) hx rfl
  · obtain rfl := Option.some.inj h
    obtain rfl := Option.some.inj hres
    refine reaches_store (E := [loadUop op regs.REG_LOAD_TEMP]) (r := regs.REG_LOAD_TEMP)
      (List.forall_mem_singleton.mpr load_ne_store) hs.2 (Nat.succ_ne_zero _) ?_ op'
    unfold REG_STORE_ADDR_TEMP REG_STORE_TEMP
    omega

/-! ### Multiplications and divisions -/

section Uops

variable {a b c d d0 d1 d2 t lat lat0 lat1 lat2 : ℕ} {ports ports' : BitVec 8} {slots : ℕ}

/-- Two products of the same sources, whose other halves are combined. -/
theorem mul_reaches (hs : s = a ∨ s = b) (hs0 : s ≠ 0) (hd : d = d0 ∨ d = d1 ∨ d = d2)
    (hd0 : d ≠ 0) (ht : t ≠ 0) (hdt : d < t) (hd1 : d1 < t) :
    Reaches [emitExecUop a b d0 t lat0 ports slots, emitExecUop a b d1 (t + 1) lat1 ports slots,
      emitExecUop t (t + 1) d2 0 lat2 ports' slots] s (.reg d) := by
  have hread (d0 d1 lat : ℕ) : s ∈ uses (emitExecUop a b d0 d1 lat ports slots) :=
    mem_uses_exec.mpr ⟨hs, hs0⟩
  by_cases h2 : d = d2
  · refine reaches_concat (E := [_, _]) (r := t) (mem_defs_exec.mpr ⟨.inl h2, hd0⟩)
      (mem_uses_exec.mpr ⟨.inl rfl, ht⟩) (flows_cons.mpr (.inl ⟨hread .., t, ?_, ?_⟩))
    · exact mem_defs_exec.mpr ⟨.inr rfl, ht⟩
    · exact flows_singleton.mpr (.inr ⟨rfl, by rw [mem_defs_exec]; omega⟩)
  · refine Reaches.concat (E := [_, _]) ?_ (by rw [mem_defs_exec]; omega)
    by_cases h1 : d = d1
    · exact reaches_concat (E := [_]) (mem_defs_exec.mpr ⟨.inl h1, hd0⟩) (hread ..)
        (flows_self (hread ..))
    · refine Reaches.concat (E := [_]) ?_ (by rw [mem_defs_exec]; omega)
      exact reaches_concat (E := []) (mem_defs_exec.mpr ⟨.inl (by omega), hd0⟩) (hread ..) rfl

/-- Two steps of a division, whose results are combined. -/
theorem div_reaches (hs : s = a ∨ s = b ∨ s = c) (hs0 : s ≠ 0) (hd : d = d0 ∨ d = d1 ∨ d = d2)
    (hd0 : d ≠ 0) (ht : t ≠ 0) (hst : s < t) (hd0t : d0 < t) (hd1t : d1 < t) :
    Reaches [emitExecUop a b t 0 lat0 ports slots, emitExecUop a c (t + 1) 0 lat0 ports slots,
      emitExecUop t (t + 1) d0 d1 lat1 ports 0, emitExecUop t (t + 1) d2 0 lat1 ports 0] s
        (.reg d) := by
  obtain ⟨r, hr, hflow⟩ : ∃ r, (r = t ∨ r = t + 1) ∧ Flows [emitExecUop a b t 0 lat0 ports slots,
      emitExecUop a c (t + 1) 0 lat0 ports slots] s r := by
    by_cases hc : s = a ∨ s = b
    · refine ⟨t, .inl rfl, flows_cons.mpr (.inl ⟨mem_uses_exec.mpr ⟨hc, hs0⟩, t,
        mem_defs_exec.mpr ⟨.inl rfl, ht⟩, flows_singleton.mpr (.inr ⟨rfl, ?_⟩)⟩)⟩
      rw [mem_defs_exec]
      omega
    · refine ⟨t + 1, .inr rfl, flows_cons.mpr (.inr ⟨?_, flows_singleton.mpr (.inl ⟨?_, ?_⟩)⟩)⟩
      · rw [mem_defs_exec]
        omega
      · exact mem_uses_exec.mpr ⟨.inr (by omega), hs0⟩
      · exact mem_defs_exec.mpr ⟨.inl rfl, by omega⟩
  have hread (d0 d1 : ℕ) : r ∈ uses (emitExecUop t (t + 1) d0 d1 lat1 ports 0) :=
    mem_uses_exec.mpr ⟨hr, by omega⟩
  by_cases h2 : d = d2
  · refine reaches_concat (E := [_, _, _]) (mem_defs_exec.mpr ⟨.inl h2, hd0⟩) (hread ..)
      (flows_concat (l := [_, _]).mpr (.inr ⟨?_, hflow⟩))
    rw [mem_defs_exec]
    omega
  · refine Reaches.concat (E := [_, _, _]) ?_ (by rw [mem_defs_exec]; omega)
    exact reaches_concat (E := [_, _]) (mem_defs_exec.mpr ⟨by omega, hd0⟩) (hread ..) hflow

/-- The comparison with `rax`, on which the store and `rax` depend. -/
theorem cmpxchg_mem_reaches {src0 src1 rax rflags dst0 : ℕ}
    (hs : s = src0 ∨ s = rax ∨ s = src1 ∧ d = dst0) (hs0 : s ≠ 0)
    (hd : d = dst0 ∨ d = rax ∨ d = rflags) (hd0 : d ≠ 0) (ht : t ≠ 0) (hst : s < t)
    (hdt : dst0 < t) (hflags : src1 ≠ rflags) (hflags0 : rflags ≠ 0) (hne : dst0 ≠ rax) :
    Reaches [emitExecUop src0 rax t rflags lat ports slots,
      emitExecUop src1 rflags dst0 0 lat ports slots, emitExecUop rax t rax 0 lat ports slots] s
        (.reg d) := by
  have hcmp : s = src0 ∨ s = rax →
      s ∈ uses (emitExecUop src0 rax t rflags lat ports slots) := fun h =>
    mem_uses_exec.mpr ⟨h, hs0⟩
  by_cases hrax : d = rax
  · have hs' : s = src0 ∨ s = rax := by omega
    refine reaches_concat (E := [_, _]) (r := t) (mem_defs_exec.mpr ⟨.inl hrax, hd0⟩)
      (mem_uses_exec.mpr ⟨.inr rfl, ht⟩) (flows_cons.mpr (.inl ⟨hcmp hs', t, ?_, ?_⟩))
    · exact mem_defs_exec.mpr ⟨.inl rfl, ht⟩
    · exact flows_singleton.mpr (.inr ⟨rfl, by rw [mem_defs_exec]; omega⟩)
  · refine Reaches.concat (E := [_, _]) ?_ (by rw [mem_defs_exec]; omega)
    by_cases h0 : d = dst0
    · by_cases hs' : s = src0 ∨ s = rax
      · exact reaches_concat (E := [_]) (r := rflags) (mem_defs_exec.mpr ⟨.inl h0, hd0⟩)
          (mem_uses_exec.mpr ⟨.inr rfl, hflags0⟩)
          (flows_singleton.mpr (.inl ⟨hcmp hs', mem_defs_exec.mpr ⟨.inr rfl, hflags0⟩⟩))
      · refine reaches_concat (E := [_]) (r := s) (mem_defs_exec.mpr ⟨.inl h0, hd0⟩)
          (mem_uses_exec.mpr ⟨.inl (by omega), hs0⟩) (flows_singleton.mpr (.inr ⟨rfl, ?_⟩))
        rw [mem_defs_exec]
        omega
    · refine Reaches.concat (E := [_]) ?_ (by rw [mem_defs_exec]; omega)
      exact reaches_concat (E := []) (mem_defs_exec.mpr ⟨.inr (by omega), hd0⟩)
        (hcmp (by omega)) rfl

/-- The comparison with `rax`, and the two swaps. -/
theorem cmpxchg_reg_reaches {src0 src1 rax rflags dst0 : ℕ}
    (hs : s = src0 ∨ s = rax ∨ s = src1 ∧ d = dst0) (hs0 : s ≠ 0)
    (hd : d = dst0 ∨ d = rax ∨ d = rflags) (hd0 : d ≠ 0) (hst : s < t)
    (hdt : dst0 < t) (hft : rflags < t) (hflags : src1 ≠ rflags) (hflags0 : rflags ≠ 0) :
    Reaches [emitExecUop src0 rax t rflags lat0 ports slots,
      emitExecUop src1 rflags (t + 1) 0 lat ports slots,
      emitExecUop rax rflags (t + 2) 0 lat ports slots,
      emitExecUop t (t + 1) dst0 0 lat ports slots,
      emitExecUop (t + 1) (t + 2) rax 0 lat ports slots] s (.reg d) := by
  have hcmp : s = src0 ∨ s = rax →
      s ∈ uses (emitExecUop src0 rax t rflags lat0 ports slots) := fun h =>
    mem_uses_exec.mpr ⟨h, hs0⟩
  -- the second uop has all of the sources
  have hflow : Flows [emitExecUop src0 rax t rflags lat0 ports slots,
      emitExecUop src1 rflags (t + 1) 0 lat ports slots,
      emitExecUop rax rflags (t + 2) 0 lat ports slots] s (t + 1) := by
    refine flows_concat (l := [_, _]).mpr (.inr ⟨by rw [mem_defs_exec]; omega, ?_⟩)
    refine flows_concat (l := [_]).mpr (.inl ⟨mem_defs_exec.mpr ⟨.inl rfl, by omega⟩, ?_⟩)
    by_cases hs' : s = src0 ∨ s = rax
    · exact ⟨rflags, mem_uses_exec.mpr ⟨.inr rfl, hflags0⟩,
        flows_singleton.mpr (.inl ⟨hcmp hs', mem_defs_exec.mpr ⟨.inr rfl, hflags0⟩⟩)⟩
    · refine ⟨s, mem_uses_exec.mpr ⟨.inl (by omega), hs0⟩, flows_singleton.mpr (.inr ⟨rfl, ?_⟩)⟩
      rw [mem_defs_exec]
      omega
  by_cases hrax : d = rax
  · refine reaches_concat (E := [_, _, _, _]) (r := t + 1) (mem_defs_exec.mpr ⟨.inl hrax, hd0⟩)
      (mem_uses_exec.mpr ⟨.inl rfl, by omega⟩)
      (flows_concat (l := [_, _, _]).mpr (.inr ⟨?_, hflow⟩))
    rw [mem_defs_exec]
    omega
  · refine Reaches.concat (E := [_, _, _, _]) ?_ (by rw [mem_defs_exec]; omega)
    by_cases h0 : d = dst0
    · exact reaches_concat (E := [_, _, _]) (r := t + 1) (mem_defs_exec.mpr ⟨.inl h0, hd0⟩)
        (mem_uses_exec.mpr ⟨.inr rfl, by omega⟩) hflow
    · refine Reaches.concat (E := [_, _, _]) ?_ (by rw [mem_defs_exec]; omega)
      refine Reaches.concat (E := [_, _]) ?_ (by rw [mem_defs_exec]; omega)
      refine Reaches.concat (E := [_]) ?_ (by rw [mem_defs_exec]; omega)
      exact reaches_concat (E := []) (mem_defs_exec.mpr ⟨.inr (by omega), hd0⟩)
        (hcmp (by omega)) rfl

end Uops

theorem of_lt_two {n : ℕ} (f : ℕ → ℕ) (h : n < 2) : f n = f 0 ∨ f n = f 1 := by
  have : n = 0 ∨ n = 1 := by omega
  exact this.imp (congrArg f) (congrArg f)

theorem of_lt_three {n : ℕ} (f : ℕ → ℕ) (h : n < 3) : f n = f 0 ∨ f n = f 1 ∨ f n = f 2 := by
  have : n = 0 ∨ n = 1 ∨ n = 2 := by omega
  exact this.imp (congrArg f) (.imp (congrArg f) (congrArg f))

theorem mul_chains (hok : i.Ok regs) {uops : List DynUop} (h : regs.emitMul i = some uops)
    (hshape : i.dsts = 3 ∨ j < 2 ∧ k < 2) (hx : x ∈ i.sources.getD j [])
    (hres : i.results[k]? = some res) : Reaches uops x res := by
  unfold emitMul at h
  split at h
  case isFalse h3 =>
    obtain rfl := Option.some.inj h
    obtain ⟨hj, hk⟩ := hshape.resolve_left h3
    exact basicOp_chains hok hj hk hx hres
  case isTrue h3 =>
    obtain ⟨hsrcs, h⟩ := Option.ite_none_right_eq_some.mp h
    obtain rfl := Option.some.inj h
    refine reaches_between hok ?_ hx hres fun hs => mul_reaches
      (of_lt_two ((regs.srcRegs i).getD · 0) ((lt_srcs hx).trans_le hsrcs)) hs
      (of_lt_three ((regs.dstRegs i).getD · 0) (h3 ▸ lt_dsts hres)) (dst_ne hok hres)
      temp_ne (dst_lt hok k) (dst_lt hok 1)
    exact List.forall_mem_cons.mpr ⟨exec_ne_store, List.forall_mem_cons.mpr ⟨exec_ne_store,
      List.forall_mem_singleton.mpr exec_ne_store⟩⟩

theorem div_chains (hok : i.Ok regs) {width : ℕ} {uops : List DynUop}
    (h : regs.emitDiv i width = some uops)
    (hshape : i.srcs = 3 ∧ i.dsts = 3 ∨ i.srcs ≤ 2 ∧ i.dsts ≤ 2) (hx : x ∈ i.sources.getD j [])
    (hres : i.results[k]? = some res) : Reaches uops x res := by
  obtain ⟨-, h⟩ := Option.ite_none_right_eq_some.mp h
  obtain ⟨lat, -, h⟩ := Option.map_eq_some_iff.mp h
  have hj := lt_srcs hx
  have hk := lt_dsts hres
  by_cases h3 : i.srcs = 3 ∧ i.dsts = 3
  · rw [if_pos h3] at h
    obtain rfl := h
    refine reaches_between hok ?_ hx hres fun hs => div_reaches
      (of_lt_three ((regs.srcRegs i).getD · 0) (h3.1 ▸ hj)) hs
      (of_lt_three ((regs.dstRegs i).getD · 0) (h3.2 ▸ hk)) (dst_ne hok hres) temp_ne
      (src_lt hok j) (dst_lt hok 0) (dst_lt hok 1)
    exact List.forall_mem_cons.mpr ⟨exec_ne_store, List.forall_mem_cons.mpr ⟨exec_ne_store,
      List.forall_mem_cons.mpr ⟨exec_ne_store, List.forall_mem_singleton.mpr exec_ne_store⟩⟩⟩
  · obtain h2 := hshape.resolve_left h3
    rw [if_neg h3, if_pos h2] at h
    obtain rfl := h
    exact basicOp_chains hok (hj.trans_le h2.1) (hk.trans_le h2.2) hx hres

/-! ### The rest -/

/-- The flags are no source. -/
theorem flags_ne_src (hok : i.Ok regs) (hflags : ∀ r ∈ i.inRegs, i.results[k]? ≠ some (.reg r))
    (hres : i.results[k]? = some res) : (regs.srcRegs i).getD j 0 ≠ (regs.dstRegs i).getD k 0 := by
  intro heq
  have hsrc := src_cases hok j
  have hne := dst_ne hok hres
  rw [← heq] at hne
  obtain ⟨-, -, hdst⟩ | ⟨r, rfl, hdst, -, hle⟩ := dst_cases hok hres
  all_goals rw [← heq] at hdst
  · obtain h0 | ⟨-, hlt⟩ | ⟨-, -, hle⟩ := hsrc
    · exact hne h0
    · omega
    · unfold REG_STORE_TEMP REG_LOAD_TEMP at hdst
      omega
  · obtain h0 | ⟨hlow, -⟩ | ⟨hin, -⟩ := hsrc
    · exact hne h0
    · unfold REG_LOAD_TEMP at hlow
      omega
    · exact hflags r (hdst ▸ hin) hres

/-- The register of a store is none of the instruction. -/
theorem store_ne_dst (hok : i.Ok regs) (hstore : i.numStores ≠ 0)
    (hres : i.results[k]? = some res) (hk : k ≠ 0) :
    (regs.dstRegs i).getD 0 0 ≠ (regs.dstRegs i).getD k 0 := by
  have h0 : i.results[0]? = some (.store 0) := by
    rw [Instr.results, List.getElem?_append_left (by simpa using Nat.pos_of_ne_zero hstore)]
    simp [List.getElem?_range (Nat.pos_of_ne_zero hstore)]
  obtain ⟨-, -, hdst⟩ | ⟨r, hr, -⟩ := dst_cases hok h0
  · rw [hdst]
    obtain ⟨-, -, hdst⟩ | ⟨r, -, hdst, -, hle⟩ := dst_cases hok hres
    · omega
    · unfold REG_STORE_TEMP REG_LOAD_TEMP
      omega
  · cases hr

theorem compareAndExchange_chains (hok : i.Ok regs) {uops : List DynUop}
    (h : regs.emitCompareAndExchange i = some uops)
    (hshape : (k = 0 ∨ j ≠ 1) ∧ i.numLoads = i.numStores ∧
      ∀ r ∈ i.inRegs, i.results[2]? ≠ some (.reg r))
    (hx : x ∈ i.sources.getD j []) (hres : i.results[k]? = some res) : Reaches uops x res := by
  obtain ⟨hjk, hmem, hflags⟩ := hshape
  have hj := lt_srcs hx
  have hk := lt_dsts hres
  unfold emitCompareAndExchange at h
  split at h
  case h_2 => cases h
  case h_1 src0 src1 src2 _ _ dst0 rax rflags _ _ hsrc hdst =>
    obtain ⟨rfl, h⟩ := Option.ite_none_right_eq_some.mp h
    obtain rfl := Option.some.inj h
    have hsrcs : i.srcs = 3 := by
      have := congrArg List.length hsrc
      simp [srcRegs] at this
      unfold Instr.srcs Instr.numInRegs
      omega
    have hdsts : i.dsts = 3 := by
      have := congrArg List.length hdst
      simp [dstRegs] at this
      unfold Instr.dsts Instr.numOutRegs
      omega
    obtain ⟨res2, hres2⟩ : ∃ res, i.results[2]? = some res :=
      ⟨_, List.getElem?_eq_getElem (by rw [results_length, hdsts]; omega)⟩
    obtain ⟨res1, hres1⟩ : ∃ res, i.results[1]? = some res :=
      ⟨_, List.getElem?_eq_getElem (by rw [results_length, hdsts]; omega)⟩
    have hflags0 : rflags ≠ 0 := by simpa [hdst] using dst_ne hok hres2
    have hft : rflags < regs.REG_EXEC_TEMP := by simpa [hdst] using dst_lt hok 2
    have hdt : dst0 < regs.REG_EXEC_TEMP := by simpa [hdst] using dst_lt hok 0
    have hne : src1 ≠ rflags := by simpa [hsrc, hdst] using flags_ne_src (j := 1) hok hflags hres2
    have hd0 := dst_ne hok hres
    have hst := src_lt hok j
    have hd := of_lt_three ((regs.dstRegs i).getD · 0) (hdsts ▸ hk)
    have hs : (regs.srcRegs i).getD j 0 = src0 ∨ (regs.srcRegs i).getD j 0 = src2 ∨
        (regs.srcRegs i).getD j 0 = src1 ∧ (regs.dstRegs i).getD k 0 = dst0 := by
      have hj3 : j = 0 ∨ j = 2 ∨ j = 1 ∧ k = 0 := by omega
      rw [hsrc, hdst]
      obtain rfl | rfl | ⟨rfl, rfl⟩ := hj3
      · exact .inl rfl
      · exact .inr (.inl rfl)
      · exact .inr (.inr ⟨rfl, rfl⟩)
    have hd' : (regs.dstRegs i).getD k 0 = dst0 ∨ (regs.dstRegs i).getD k 0 = src2 ∨
        (regs.dstRegs i).getD k 0 = rflags := by simpa [hdst] using hd
    by_cases hload : i.numLoads = 0
    · rw [if_pos hload]
      refine reaches_between hok ?_ hx hres fun hs0 =>
        cmpxchg_reg_reaches hs hs0 hd' hd0 hst hdt hft hne hflags0
      exact List.forall_mem_cons.mpr ⟨exec_ne_store, List.forall_mem_cons.mpr ⟨exec_ne_store,
        List.forall_mem_cons.mpr ⟨exec_ne_store, List.forall_mem_cons.mpr ⟨exec_ne_store,
          List.forall_mem_singleton.mpr exec_ne_store⟩⟩⟩⟩
    · have hstore : dst0 ≠ src2 := by
        simpa [hdst] using store_ne_dst hok (hmem ▸ hload) hres1 one_ne_zero
      rw [if_neg hload]
      refine reaches_between hok ?_ hx hres fun hs0 =>
        cmpxchg_mem_reaches hs hs0 hd' hd0 temp_ne hst hdt hne hflags0 hstore
      exact List.forall_mem_cons.mpr ⟨exec_ne_store, List.forall_mem_cons.mpr ⟨exec_ne_store,
        List.forall_mem_singleton.mpr exec_ne_store⟩⟩

theorem conditionalMove_chains (hok : i.Ok regs) {lat : ℕ} {ports : BitVec 8} {uops : List DynUop}
    (h : regs.emitConditionalMove i lat ports = some uops) (hload : i.numLoads = 0)
    (hx : x ∈ i.sources.getD j []) (hres : i.results[k]? = some res) : Reaches uops x res := by
  obtain ⟨hstores, h⟩ := Option.ite_none_left_eq_some.mp h
  have hj := lt_srcs hx
  have hk := lt_dsts hres
  obtain ⟨hs0, hs⟩ := (reads_loads hok).mp hx
  have hd0 := dst_ne hok hres
  have hst := src_lt hok j
  obtain ⟨loads, ins, outs, stores⟩ := i
  obtain rfl := List.eq_nil_of_length_eq_zero (of_not_not hstores)
  obtain rfl := List.eq_nil_of_length_eq_zero hload
  dsimp only at h
  split at h
  case h_1 heq _ => cases heq
  case h_2 out a flagsReg _ _ =>
    obtain rfl := Option.some.inj h
    obtain rfl : k = 0 := Nat.lt_one_iff.mp hk
    obtain rfl := Option.some.inj hres
    obtain rfl : x = _ := hs
    have hs' := of_lt_two ((regs.srcRegs ⟨[], [a, flagsReg], [out], []⟩).getD · 0) hj
    exact reaches_concat (E := [_]) (r := regs.REG_EXEC_TEMP) (mem_defs_exec.mpr ⟨.inl rfl, hd0⟩)
      (mem_uses_exec.mpr ⟨.inr rfl, temp_ne⟩) (flows_singleton.mpr (.inl
        ⟨mem_uses_exec.mpr ⟨hs'.symm, hs0⟩, mem_defs_exec.mpr ⟨.inl rfl, temp_ne⟩⟩))
  case h_3 => cases h

/-- Two registers are exchanged through a temporary one. -/
theorem xchg_reaches {a b t s d lat : ℕ} {ports : BitVec 8} (ht : t ≠ 0) (ha : a ≠ 0) (hb : b ≠ 0)
    (hat : a < t) (hbt : b < t) (hsd : s = a ∧ d = b ∨ s = b ∧ d = a) :
    Reaches [emitExecUop a 0 t 0 lat ports 0, emitExecUop b 0 a 0 lat ports 0,
      emitExecUop t 0 b 0 lat ports 0] s (.reg d) := by
  by_cases hd : d = b
  · obtain rfl : s = a := by omega
    refine reaches_concat (E := [_, _]) (r := t) (mem_defs_exec.mpr ⟨.inl hd, hd ▸ hb⟩)
      (mem_uses_exec.mpr ⟨.inl rfl, ht⟩) (flows_cons.mpr (.inl ⟨?_, t, ?_, ?_⟩))
    · exact mem_uses_exec.mpr ⟨.inl rfl, ha⟩
    · exact mem_defs_exec.mpr ⟨.inl rfl, ht⟩
    · exact flows_singleton.mpr (.inr ⟨rfl, by rw [mem_defs_exec]; omega⟩)
  · obtain ⟨rfl, rfl⟩ : s = b ∧ d = a := by omega
    refine Reaches.concat (E := [_, _]) ?_ (by rw [mem_defs_exec]; omega)
    refine reaches_concat (E := [_]) (r := s) (mem_defs_exec.mpr ⟨.inl rfl, ha⟩)
      (mem_uses_exec.mpr ⟨.inl rfl, hb⟩) (flows_singleton.mpr (.inr ⟨rfl, ?_⟩))
    rw [mem_defs_exec]
    omega

theorem xchg_chains (hok : i.Ok regs) {lockPrefix : Bool} {uops : List DynUop}
    (h : regs.emitXchg i lockPrefix = some uops) (hshape : j ≠ k ∧ i.numLoads = i.numStores)
    (hx : x ∈ i.sources.getD j []) (hres : i.results[k]? = some res) : Reaches uops x res := by
  obtain ⟨hjk, hmem⟩ := hshape
  have hj := lt_srcs hx
  have hk := lt_dsts hres
  obtain ⟨hs0, hs⟩ := (reads_loads hok).mp hx
  have hout := hok.outRegs
  obtain ⟨loads, ins, outs, stores⟩ := i
  unfold emitXchg at h
  dsimp only at h
  split at h
  case h_1 a a' =>
    obtain ⟨⟨hload, hstore, rfl⟩, h'⟩ := Option.ite_none_right_eq_some.mp h
    obtain ⟨op, rfl⟩ := List.length_eq_one_iff.mp hload
    obtain ⟨op', rfl⟩ := List.length_eq_one_iff.mp hstore
    obtain rfl := Option.some.inj h'
    have hreal : regs.Real a := hout a (by simp)
    obtain ⟨hne, hle⟩ := hreal
    have hload_ne : regs.REG_LOAD_TEMP ≠ 0 := Nat.succ_ne_zero _
    have hlow : a < regs.REG_LOAD_TEMP := Nat.lt_succ_of_le hle
    have haddr : regs.REG_STORE_ADDR_TEMP = regs.REG_LOAD_TEMP + 8 := rfl
    have hexec : regs.REG_EXEC_TEMP = regs.REG_LOAD_TEMP + 12 := rfl
    change Reaches ([loadUop op regs.REG_LOAD_TEMP,
      emitExecUop a 0 regs.REG_EXEC_TEMP 0 1 PORTS_015 0,
      emitExecUop regs.REG_LOAD_TEMP 0 a 0 1 PORTS_015 0] ++ regs.storeUops 0 op'
        (if regs.REG_EXEC_TEMP = 0 then _ else regs.REG_EXEC_TEMP) ++
          if lockPrefix then [] else [emitFence 14]) x res
    rw [if_neg temp_ne]
    refine Reaches.append ?_ (by cases lockPrefix <;> simp [defs, emitFence])
    obtain ⟨rfl, rfl⟩ | ⟨rfl, rfl⟩ : j = 0 ∧ k = 1 ∨ j = 1 ∧ k = 0 := by
      change j < 2 at hj
      change k < 2 at hk
      omega
    all_goals obtain rfl := Option.some.inj hres
    · refine Reaches.append_reg (reaches_concat (E := [_, _]) (r := regs.REG_LOAD_TEMP)
        (mem_defs_exec.mpr ⟨.inl rfl, hne⟩) (mem_uses_exec.mpr ⟨.inl rfl, hload_ne⟩)
        (flows_cons.mpr (.inl ⟨hx, _, DynUop.mem_defs.mpr ⟨.inl rfl, hload_ne⟩,
          flows_singleton.mpr (.inr ⟨rfl, ?_⟩)⟩))) fun uop huop hw => ?_
      · rw [mem_defs_exec]
        omega
      · have := writes_storeUops huop hw
        omega
    · obtain rfl := (flows_loads_free hok.loads (Real.free ⟨hne, hle⟩)).mp hs
      refine reaches_store (E := [_, _, _]) ?_ (flows_cons.mpr (.inr ⟨?_, flows_cons.mpr (.inl
        ⟨mem_uses_exec.mpr ⟨.inl rfl, hs0⟩, _, mem_defs_exec.mpr ⟨.inl rfl, temp_ne⟩,
          flows_singleton.mpr (.inr ⟨rfl, ?_⟩)⟩)⟩)) temp_ne (by omega) op'
      · exact List.forall_mem_cons.mpr ⟨load_ne_store, List.forall_mem_cons.mpr ⟨exec_ne_store,
          List.forall_mem_singleton.mpr exec_ne_store⟩⟩
      · intro hw
        have := (DynUop.mem_defs.mp hw).1
        change x = regs.REG_LOAD_TEMP ∨ x = 0 at this
        omega
      · rw [mem_defs_exec]
        omega
  case h_2 a b a' b' =>
    obtain ⟨⟨hload, rfl, rfl⟩, h'⟩ := Option.ite_none_right_eq_some.mp h
    obtain rfl := Option.some.inj h'
    obtain rfl := List.eq_nil_of_length_eq_zero hload
    obtain rfl := List.eq_nil_of_length_eq_zero hmem.symm
    obtain rfl : x = _ := hs
    have ha := hout a (by simp)
    have hb := hout b (by simp)
    have hat : a < regs.REG_EXEC_TEMP := dst_lt hok 0
    have hbt : b < regs.REG_EXEC_TEMP := dst_lt hok 1
    obtain ⟨rfl, rfl⟩ | ⟨rfl, rfl⟩ : j = 0 ∧ k = 1 ∨ j = 1 ∧ k = 0 := by
      change j < 2 at hj
      change k < 2 at hk
      omega
    all_goals obtain rfl := Option.some.inj hres
    · exact xchg_reaches temp_ne ha.1 hb.1 hat hbt (.inl ⟨rfl, rfl⟩)
    · exact xchg_reaches temp_ne ha.1 hb.1 hat hbt (.inr ⟨rfl, rfl⟩)
  case h_3 => cases h

end Regs

end Doppelganger.Decoder
