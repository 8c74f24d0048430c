import Doppelganger.Approx.Map
import Mathlib.Data.List.Infix

/-! The approximate regions of `zsim.cpp` and the test of `Cache::isApprox`.  A line is approximate
exactly when all of its bytes are in one live region. -/

namespace Doppelganger.Approx

open Lib

/-- `strstr` returns a pointer that is not null. -/
def strstr (haystack needle : String) : Bool := decide (needle.toList <:+: haystack.toList)

/-- The `approx_type` that `RegisterApproxRegion` takes from the name of the data type; its
assertion fails when the name tells none. -/
def approxTypeOf (dataType : String) : Option ApproxType :=
  if strstr dataType "float" || strstr dataType "fptype" then some .approxFp
  else if strstr dataType "int" then some .approxUint
  else none

section

-- `zinfo->lineSize` has 32 bits, so its logarithm is below 32.
variable (lineBits : Fin 32)

/-- `zinfo->lineSize`, of which `lineBits` is the logarithm. -/
def lineSize : UInt64 := 1 <<< UInt64.ofNat lineBits

/-- The record that `RegisterApproxRegion` fills in, with the bounds of the whole lines inside. -/
def makeRegion (baseAddr : Address) (range : UInt32) (approxType : ApproxType) : ApproxRegion where
  addr := baseAddr
  range := range
  addrStart := ((baseAddr - 1) >>> UInt64.ofNat lineBits) * lineSize lineBits + lineSize lineBits
  addrEnd := ((baseAddr + range.toUInt64) >>> UInt64.ofNat lineBits) * lineSize lineBits
  approxType := approxType

def registerApproxRegion (baseAddr : Address) (range : UInt32) (dataType : String) (t : Tree) :
    Option Tree :=
  (approxTypeOf dataType).bind fun approxType =>
    (insert (makeRegion lineBits baseAddr range approxType) t).map Prod.snd

def deregisterApproxRegion (baseAddr : Address) (t : Tree) : Option Tree :=
  (delete baseAddr t).map Prod.snd

/-- The first byte of a line. -/
def lineStart (lineAddr : Address) : Address := lineAddr <<< UInt64.ofNat lineBits

/-- `Cache::isApprox`. -/
def isApprox (lineAddr : Address) (t : Tree) : Option Bool :=
  let addr := lineStart lineBits lineAddr
  (find addr t).map fun
    | some region =>
      decide (region.addrStart ≤ addr) && decide (addr < region.addrEnd) &&
        region.approxType != .noApprox
    | none => false

end

/-- A registered region: its first byte and the number of its bytes. -/
structure Region where
  base : Address
  range : UInt32
deriving DecidableEq, Repr

/-- The end of a region, or of a line. -/
def Region.stop (r : Region) : Nat := r.base.toNat + r.range.toNat

def Region.Disjoint (r s : Region) : Prop := r.stop ≤ s.base.toNat ∨ s.stop ≤ r.base.toNat

inductive RegionOp
  | register (baseAddr : Address) (range : UInt32) (dataType : String)
  | deregister (baseAddr : Address)

/-- The tree, and the regions registered and not deregistered since. -/
structure Regions where
  tree : Tree
  live : List Region

namespace Regions

def start : Regions := ⟨alloc, []⟩

def step (lineBits : Fin 32) : RegionOp → Regions → Option Regions
  | .register baseAddr range dataType, s =>
    (registerApproxRegion lineBits baseAddr range dataType s.tree).map fun t =>
      ⟨t, ⟨baseAddr, range⟩ :: s.live⟩
  | .deregister baseAddr, s => (deregisterApproxRegion baseAddr s.tree).map fun t =>
      ⟨t, s.live.filter fun r => r.base != baseAddr⟩

/-- A region that is registered has a known type and a base that is not null, is not empty, ends at
an address that does not wrap, and is disjoint from the live ones. -/
def Proper : RegionOp → Regions → Prop
  | .register baseAddr range dataType, s => (approxTypeOf dataType).isSome ∧ baseAddr ≠ 0 ∧
      range ≠ 0 ∧ baseAddr.toNat + range.toNat < 2 ^ 64 ∧
      ∀ r ∈ s.live, r.Disjoint ⟨baseAddr, range⟩
  | .deregister _, _ => True

/-- The items of the tree are the records of the live regions. -/
structure Inv (lineBits : Fin 32) (s : Regions) : Prop where
  stores : Stores s.tree s.tree.items
  record : ∀ x ∈ s.tree.items, ∃ approxType, x = makeRegion lineBits x.addr x.range approxType ∧
    approxType ≠ .noApprox
  live : ∀ b n, ⟨b, n⟩ ∈ s.live ↔ ∃ x ∈ s.tree.items, x.addr = b ∧ x.range = n
  bounded : ∀ r ∈ s.live, r.base ≠ 0 ∧ r.range ≠ 0 ∧ r.stop < 2 ^ 64
  disjoint : ∀ r ∈ s.live, ∀ r' ∈ s.live, r.base ≠ r'.base → r.Disjoint r'

end Regions

section

variable {lineBits : Fin 32} {t : Tree} {s : Regions} {x : ApproxRegion} {lineAddr b : Address}
  {n : UInt32} {approxType : ApproxType} {dataType : String}

theorem approxTypeOf_ne (h : approxTypeOf dataType = some approxType) :
    approxType ≠ .noApprox := by
  unfold approxTypeOf at h
  split_ifs at h <;> simp at h <;> simp [← h]

/-! ### Lines as numbers -/

theorem toNat_lineBits : (UInt64.ofNat lineBits).toNat % 64 = lineBits := by
  have := lineBits.isLt
  rw [UInt64.toNat_ofNat']
  omega

theorem toNat_lineSize : (lineSize lineBits).toNat = 2 ^ (lineBits : Nat) := by
  have hlt : 2 ^ (lineBits : Nat) < 2 ^ 64 := Nat.pow_lt_pow_right (by omega) (by omega)
  rw [lineSize, UInt64.toNat_shiftLeft, toNat_lineBits, Nat.shiftLeft_eq]
  simpa using Nat.mod_eq_of_lt hlt

theorem toNat_shiftRight_line (a : Address) :
    (a >>> UInt64.ofNat lineBits).toNat = a.toNat / 2 ^ (lineBits : Nat) := by
  rw [UInt64.toNat_shiftRight, toNat_lineBits, Nat.shiftRight_eq_div_pow]

/-- A line starts at a multiple of the line size, and ends inside the address space. -/
theorem lineStart_eq (lineBits : Fin 32) (lineAddr : Address) :
    ∃ m, (lineStart lineBits lineAddr).toNat = m * 2 ^ (lineBits : Nat) ∧
      (m + 1) * 2 ^ (lineBits : Nat) ≤ 2 ^ 64 := by
  have hsplit : 2 ^ 64 = 2 ^ (64 - (lineBits : Nat)) * 2 ^ (lineBits : Nat) := by
    rw [← Nat.pow_add]
    congr 1
    omega
  have hstart : (lineStart lineBits lineAddr).toNat =
      lineAddr.toNat % 2 ^ (64 - (lineBits : Nat)) * 2 ^ (lineBits : Nat) := by
    rw [lineStart, UInt64.toNat_shiftLeft, toNat_lineBits, Nat.shiftLeft_eq, hsplit,
      Nat.mul_mod_mul_right]
  refine ⟨_, hstart, ?_⟩
  rw [hsplit]
  exact Nat.mul_le_mul_right _ (Nat.mod_lt _ (Nat.two_pow_pos _))

/-- A line that starts in a region is inside when its start is below `addr_end`. -/
theorem lt_addrEnd {m : Nat} (hstop : b.toNat + n.toNat < 2 ^ 64) {a : Address}
    (ha : a.toNat = m * 2 ^ (lineBits : Nat)) :
    a < (makeRegion lineBits b n approxType).addrEnd ↔
      (m + 1) * 2 ^ (lineBits : Nat) ≤ b.toNat + n.toNat := by
  have hpos := Nat.two_pow_pos (lineBits : Nat)
  have hsum : (b + n.toUInt64).toNat = b.toNat + n.toNat := by
    rw [UInt64.toNat_add, UInt32.toNat_toUInt64]
    exact Nat.mod_eq_of_lt hstop
  have hend : (makeRegion lineBits b n approxType).addrEnd.toNat =
      (b.toNat + n.toNat) / 2 ^ (lineBits : Nat) * 2 ^ (lineBits : Nat) := by
    rw [makeRegion, UInt64.toNat_mul, toNat_shiftRight_line, toNat_lineSize, hsum]
    exact Nat.mod_eq_of_lt (lt_of_le_of_lt (Nat.div_mul_le_self _ _) hstop)
  rw [UInt64.lt_iff_toNat_lt, ha, hend, Nat.mul_lt_mul_right hpos, ← Nat.succ_le_iff,
    Nat.le_div_iff_mul_le hpos]

/-- A line that does not start before a region does not start before `addr_start`. -/
theorem addrStart_le {m : Nat} (hb : b ≠ 0) {a : Address}
    (ha : a.toNat = m * 2 ^ (lineBits : Nat)) (hba : b.toNat ≤ a.toNat) :
    (makeRegion lineBits b n approxType).addrStart ≤ a := by
  have hpos := Nat.two_pow_pos (lineBits : Nat)
  have hb0 := toNat_pos hb
  have hsub : (b - 1).toNat = b.toNat - 1 := by
    rw [UInt64.toNat_sub_of_le _ _ hb0]
    rfl
  have hle : (b.toNat - 1) / 2 ^ (lineBits : Nat) + 1 ≤ m := by
    rw [Nat.succ_le_iff, Nat.div_lt_iff_lt_mul hpos]
    omega
  have hup : ((b.toNat - 1) / 2 ^ (lineBits : Nat) + 1) * 2 ^ (lineBits : Nat) ≤ a.toNat :=
    ha ▸ Nat.mul_le_mul_right _ hle
  rw [Nat.add_mul, Nat.one_mul] at hup
  have hlt := a.toNat_lt
  have hstart : (makeRegion lineBits b n approxType).addrStart.toNat =
      (b.toNat - 1) / 2 ^ (lineBits : Nat) * 2 ^ (lineBits : Nat) + 2 ^ (lineBits : Nat) := by
    rw [makeRegion, UInt64.toNat_add, UInt64.toNat_mul, toNat_shiftRight_line, toNat_lineSize, hsub,
      Nat.mod_eq_of_lt (by omega), Nat.mod_eq_of_lt (by omega)]
  rw [UInt64.le_iff_toNat_le, hstart]
  exact hup

/-! ### Histories -/

namespace Regions

theorem start_inv : Inv lineBits start :=
  ⟨alloc_stores, by simp [start, alloc, Tree.items, Node.items, LeafNode.items],
    by simp [start, alloc, Tree.items, Node.items, LeafNode.items], by simp [start],
    by simp [start]⟩

/-- A region that is disjoint from the live ones has a base of its own. -/
theorem Inv.fresh (hi : Inv lineBits s) (hn : n ≠ 0)
    (hdisj : ∀ r ∈ s.live, r.Disjoint ⟨b, n⟩) : ∀ x ∈ s.tree.items, x.addr ≠ b := by
  rintro x hx rfl
  have hlive : ⟨x.addr, x.range⟩ ∈ s.live := (hi.live _ _).mpr ⟨x, hx, rfl, rfl⟩
  have hr : x.range ≠ 0 := (hi.bounded _ hlive).2.1
  have hpos : ∀ m : UInt32, m ≠ 0 → 0 < m.toNat := fun m hm =>
    Nat.pos_of_ne_zero fun h => hm (UInt32.toNat_inj.mp h)
  have hr := hpos _ hr
  have hn := hpos _ hn
  rcases hdisj _ hlive with h | h <;> simp only [Region.stop] at h <;> omega

theorem step_inv (op : RegionOp) (s : Regions) (hi : Inv lineBits s) (hop : Proper op s) :
    ∃ s', step lineBits op s = some s' ∧ Inv lineBits s' := by
  cases op with
  | register baseAddr range dataType =>
    obtain ⟨htype, hbase, hrange, hstop, hdisj⟩ := hop
    obtain ⟨approxType, htype⟩ := Option.isSome_iff_exists.mp htype
    have hfresh := hi.fresh hrange hdisj
    obtain ⟨found, t', hins, hT', ⟨-, -, x, hx, hxb⟩ | ⟨-, -, hmem⟩⟩ :=
      hi.stores.insert_mem
        (show (makeRegion lineBits baseAddr range approxType).addr ≠ 0 from hbase)
    · exact absurd hxb (hfresh x hx)
    · refine ⟨⟨t', ⟨baseAddr, range⟩ :: s.live⟩, by simp [step, registerApproxRegion, htype, hins],
        hT', ?_, ?_, ?_, ?_⟩
      · intro x hx
        rcases (hmem x).mp hx with rfl | hx
        · exact ⟨approxType, rfl, approxTypeOf_ne htype⟩
        · exact hi.record x hx
      · intro b n
        simp only [hmem, List.mem_cons, hi.live, Region.mk.injEq]
        constructor
        · rintro (⟨rfl, rfl⟩ | ⟨x, hx, h⟩)
          · exact ⟨_, .inl rfl, rfl, rfl⟩
          · exact ⟨x, .inr hx, h⟩
        · rintro ⟨x, rfl | hx, rfl, rfl⟩
          · exact .inl ⟨rfl, rfl⟩
          · exact .inr ⟨x, hx, rfl, rfl⟩
      · intro r hr
        rcases List.mem_cons.mp hr with rfl | hr
        · exact ⟨hbase, hrange, hstop⟩
        · exact hi.bounded r hr
      · intro r hr r' hr' hne
        rcases List.mem_cons.mp hr with rfl | hr <;> rcases List.mem_cons.mp hr' with rfl | hr'
        · exact absurd rfl hne
        · exact (hdisj r' hr').symm
        · exact hdisj r hr
        · exact hi.disjoint r hr r' hr' hne
  | deregister baseAddr =>
    obtain ⟨r, t', hdel, hT', -, hmem, -⟩ := hi.stores.delete_mem baseAddr
    refine ⟨⟨t', s.live.filter fun r => r.base != baseAddr⟩,
      by simp [step, deregisterApproxRegion, hdel], hT', ?_, ?_, ?_, ?_⟩
    · exact fun x hx => hi.record x ((hmem x).mp hx).1
    · intro b n
      simp only [hmem, List.mem_filter, hi.live, bne_iff_ne]
      constructor
      · rintro ⟨⟨x, hx, rfl, rfl⟩, hne⟩
        exact ⟨x, ⟨hx, hne⟩, rfl, rfl⟩
      · rintro ⟨x, ⟨hx, hne⟩, rfl, rfl⟩
        exact ⟨⟨x, hx, rfl, rfl⟩, hne⟩
    · exact fun r hr => hi.bounded r (List.mem_filter.mp hr).1
    · exact fun r hr r' hr' => hi.disjoint r (List.mem_filter.mp hr).1 r' (List.mem_filter.mp hr').1

/-- The answer for a line: whether a live region holds all of its bytes. -/
theorem Inv.isApprox (hi : Inv lineBits s) (lineAddr : Address) :
    ∃ answer, Approx.isApprox lineBits lineAddr s.tree = some answer ∧
      (answer = true ↔ ∃ r ∈ s.live, r.base.toNat ≤ (lineStart lineBits lineAddr).toNat ∧
        (lineStart lineBits lineAddr).toNat + 2 ^ (lineBits : Nat) ≤ r.stop) := by
  obtain ⟨m, hm, -⟩ := lineStart_eq lineBits lineAddr
  have hpos := Nat.two_pow_pos (lineBits : Nat)
  obtain ⟨floor, hf, hfloor⟩ := hi.stores.find (lineStart lineBits lineAddr)
  have hmem : ∀ x ∈ s.tree.items, ⟨x.addr, x.range⟩ ∈ s.live := fun x hx =>
    (hi.live _ _).mpr ⟨x, hx, rfl, rfl⟩
  have hdisj : ∀ y ∈ s.tree.items, ∀ z ∈ s.tree.items, key y < key z →
      key y + y.range.toNat ≤ key z := by
    intro y hy z hz hyz
    have hne : y.addr ≠ z.addr := fun e => absurd (congrArg UInt64.toNat e) (ne_of_lt hyz)
    rcases hi.disjoint _ (hmem y hy) _ (hmem z hz) hne with h | h
    · exact h
    · have h : key z + z.range.toNat ≤ key y := h
      omega
  -- A region that holds the start of the line is the floor, since the regions are disjoint.
  have hfound : ∀ x ∈ s.tree.items, key x ≤ (lineStart lineBits lineAddr).toNat →
      (lineStart lineBits lineAddr).toNat < key x + x.range.toNat → floor = some x := fun x hx =>
    hfloor.interval hi.stores.ascending hdisj hx
  refine ⟨_, by rw [Approx.isApprox, hf]; rfl, ?_⟩
  constructor
  · intro htrue
    cases floor with
    | none => simp at htrue
    | some x =>
      obtain ⟨hx, hxq, -⟩ := hfloor.found x rfl
      obtain ⟨approxType, hrec, -⟩ := hi.record x hx
      simp only [Bool.and_eq_true, decide_eq_true_eq] at htrue
      have hend := htrue.1.2
      rw [hrec, lt_addrEnd (hi.bounded _ (hmem x hx)).2.2 hm, Nat.add_mul, Nat.one_mul] at hend
      exact ⟨_, hmem x hx, hxq, by rw [hm]; exact hend⟩
  · rintro ⟨⟨b, n⟩, hr, hbase, hstop⟩
    obtain ⟨x, hx, rfl, rfl⟩ := (hi.live b n).mp hr
    obtain ⟨hb, -, hlt⟩ := hi.bounded _ hr
    obtain ⟨approxType, hrec, htype⟩ := hi.record x hx
    have hstop' : (lineStart lineBits lineAddr).toNat < key x + x.range.toNat := by
      have h : (lineStart lineBits lineAddr).toNat + 2 ^ (lineBits : Nat) ≤
        key x + x.range.toNat := hstop
      omega
    have hend : lineStart lineBits lineAddr < x.addrEnd := by
      rw [hrec, lt_addrEnd hlt hm, Nat.add_mul, Nat.one_mul, ← hm]
      exact hstop
    have hstart : x.addrStart ≤ lineStart lineBits lineAddr := by
      rw [hrec]
      exact addrStart_le hb hm hbase
    have hty : x.approxType ≠ .noApprox := by
      rw [hrec]
      exact htype
    simp [hfound x hx hbase hstop', hend, hstart, hty]

end Regions

/-- In every history of proper registrations and of deregistrations, a line is approximate exactly
when all of its bytes are in one live region. -/
theorem isApprox_exact (lineBits : Fin 32) (ops : List RegionOp)
    (hops : Along (Regions.step lineBits) Regions.Proper ops Regions.start) :
    ∃ s, run (Regions.step lineBits) ops Regions.start = some s ∧ ∀ lineAddr, ∃ answer,
      isApprox lineBits lineAddr s.tree = some answer ∧
      (answer = true ↔ ∃ r ∈ s.live, r.base.toNat ≤ (lineStart lineBits lineAddr).toNat ∧
        (lineStart lineBits lineAddr).toNat + 2 ^ (lineBits : Nat) ≤ r.stop) := by
  obtain ⟨s, hrun, hi⟩ := run_keeps Regions.step_inv ops Regions.start_inv hops
  exact ⟨s, hrun, hi.isApprox⟩

theorem isApprox_exact_sample :
    ∃ s, run (Regions.step 6) [.register 4100 256 "float", .deregister 64] Regions.start = some s ∧
      ∀ lineAddr, ∃ answer, isApprox 6 lineAddr s.tree = some answer ∧
        (answer = true ↔ ∃ r ∈ s.live, r.base.toNat ≤ (lineStart 6 lineAddr).toNat ∧
          (lineStart 6 lineAddr).toNat + 2 ^ ((6 : Fin 32) : Nat) ≤ r.stop) :=
  isApprox_exact 6 _ ⟨⟨by decide, by decide, by decide, by decide, by simp [Regions.start]⟩,
    fun _ _ => ⟨trivial, fun _ _ => trivial⟩⟩

end

end Doppelganger.Approx
