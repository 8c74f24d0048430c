import Doppelganger.Approx.Regions
import Mathlib.Data.Multiset.AddSub

/-! The records of the approximate regions on the heap.  `RegisterApproxRegion` allocates one and
ignores what `tree23_insert` returns, so a record whose base is registered already is lost. -/

namespace Doppelganger.Approx

open Lib

/-- The tree, and the records that are allocated and not freed. -/
structure Records where
  tree : Tree
  allocated : Multiset ApproxRegion

namespace Records

def start : Records := ⟨alloc, 0⟩

variable (lineBits : Fin 32)

def step : RegionOp → Records → Option Records
  | .register baseAddr range dataType, s =>
    (approxTypeOf dataType).bind fun approxType =>
      let approxRegion := makeRegion lineBits baseAddr range approxType
      (insert approxRegion s.tree).map fun (_, t) => ⟨t, approxRegion ::ₘ s.allocated⟩
  | .deregister baseAddr, s =>
    (delete baseAddr s.tree).map fun (approxRegion, t) =>
      ⟨t, approxRegion.elim s.allocated s.allocated.erase⟩

/-- The records that nothing points to. -/
def lost (s : Records) : Multiset ApproxRegion := s.allocated - s.tree.items

/-- A registration whose assertion holds, with a base that is not null. -/
def Valid : RegionOp → Prop
  | .register baseAddr _ dataType => baseAddr ≠ 0 ∧ (approxTypeOf dataType).isSome
  | .deregister _ => True

instance : DecidablePred Valid
  | .register baseAddr _ dataType =>
    inferInstanceAs (Decidable (baseAddr ≠ 0 ∧ (approxTypeOf dataType).isSome))
  | .deregister _ => inferInstanceAs (Decidable True)

/-- After the registration, the region in force for the base is the new one, and no record is lost;
the deregistration that follows removes it and leaves the other regions. -/
def Registers (baseAddr : Address) (range : UInt32) (dataType : String) (s : Records) : Prop :=
  ∃ approxType s' s'', approxTypeOf dataType = some approxType ∧
    step lineBits (.register baseAddr range dataType) s = some s' ∧
    find baseAddr s'.tree = some (some (makeRegion lineBits baseAddr range approxType)) ∧
    s'.lost = s.lost ∧
    step lineBits (.deregister baseAddr) s' = some s'' ∧ s''.lost = s.lost ∧
    ∀ x, x ∈ s''.tree.items ↔ x ∈ s.tree.items ∧ x.addr ≠ baseAddr

structure Inv (s : Records) : Prop where
  stores : Stores s.tree s.tree.items
  allocated : (s.tree.items : Multiset ApproxRegion) ≤ s.allocated

end Records

open Records

section

variable {lineBits : Fin 32} {s : Records} {t : Tree} {x : ApproxRegion} {b : Address}

theorem Stores.nodup (hT : Stores t t.items) : t.items.Nodup :=
  hT.ascending.imp fun hlt => by
    rintro rfl
    exact absurd hlt (lt_irrefl _)

/-- The items after an insertion. -/
theorem Stores.cons_eq {t' : Tree} (hT : Stores t t.items) (hT' : Stores t' t'.items)
    (hx : x ∉ t.items) (hmem : ∀ y, y ∈ t'.items ↔ y = x ∨ y ∈ t.items) :
    (t'.items : Multiset ApproxRegion) = x ::ₘ t.items := by
  rw [Multiset.cons_coe, Multiset.coe_eq_coe]
  apply (List.perm_ext_iff_of_nodup hT'.nodup (List.nodup_cons.mpr ⟨hx, hT.nodup⟩)).mpr
  intro y
  rw [hmem, List.mem_cons]

theorem Stores.find_mem (hT : Stores t t.items) (hx : x ∈ t.items) :
    Approx.find x.addr t = some (some x) := by
  obtain ⟨floor, hf, hfloor⟩ := hT.find x.addr
  rw [hf]
  cases floor with
  | none => exact absurd (le_refl _) (not_le_of_gt (hfloor.missing rfl x hx))
  | some y =>
    obtain ⟨hy, hle, hmax⟩ := hfloor.found y rfl
    have hkey : key y = key x := le_antisymm hle (hmax x hx (le_refl _))
    rw [hT.distinct hy hx (UInt64.toNat_inj.mp hkey)]

namespace Records

/-- One record more on the heap and in the tree. -/
theorem lost_cons (hle : (s.tree.items : Multiset ApproxRegion) ≤ s.allocated)
    (hitems : (t.items : Multiset ApproxRegion) = x ::ₘ s.tree.items) :
    lost ⟨t, x ::ₘ s.allocated⟩ = s.lost ∧
      (t.items : Multiset ApproxRegion) ≤ x ::ₘ s.allocated := by
  rw [lost, lost, hitems]
  refine ⟨?_, Multiset.cons_le_cons x hle⟩
  rw [Multiset.sub_cons, Multiset.erase_cons_head]

theorem register_fresh (hi : Inv s) (hb : b ≠ 0) (hfresh : ∀ y ∈ s.tree.items, y.addr ≠ b)
    {range : UInt32} {dataType : String} {approxType : ApproxType}
    (htype : approxTypeOf dataType = some approxType) :
    ∃ s', step lineBits (.register b range dataType) s = some s' ∧ Inv s' ∧ s'.lost = s.lost ∧
      ∀ y, y ∈ s'.tree.items ↔
        y = makeRegion lineBits b range approxType ∨ y ∈ s.tree.items := by
  obtain ⟨found, t', hins, hT', ⟨-, -, y, hy, hyb⟩ | ⟨-, -, hmem⟩⟩ := hi.stores.insert_mem
    (show (makeRegion lineBits b range approxType).addr ≠ 0 from hb)
  · exact absurd hyb (hfresh y hy)
  · have hnew : makeRegion lineBits b range approxType ∉ s.tree.items :=
      fun hin => hfresh _ hin rfl
    have hlost := lost_cons hi.allocated (hi.stores.cons_eq hT' hnew hmem)
    exact ⟨_, by simp [step, htype, hins], ⟨hT', hlost.2⟩, hlost.1, hmem⟩

/-- A record whose base is registered already is lost. -/
theorem register_again (hi : Inv s) (hb : b ≠ 0) (hold : ¬∀ y ∈ s.tree.items, y.addr ≠ b)
    {range : UInt32} {dataType : String} {approxType : ApproxType}
    (htype : approxTypeOf dataType = some approxType) :
    ∃ s', step lineBits (.register b range dataType) s = some s' ∧ Inv s' ∧
      s'.lost = makeRegion lineBits b range approxType ::ₘ s.lost := by
  obtain ⟨found, t', hins, hT', ⟨-, rfl, -⟩ | ⟨-, hno, -⟩⟩ := hi.stores.insert_mem
    (show (makeRegion lineBits b range approxType).addr ≠ 0 from hb)
  · refine ⟨⟨s.tree, makeRegion lineBits b range approxType ::ₘ s.allocated⟩,
      by simp [step, htype, hins], ⟨hT', hi.allocated.trans (Multiset.le_cons_self _ _)⟩, ?_⟩
    rw [lost, lost]
    exact (Multiset.cons_sub_of_le _ hi.allocated)
  · exact absurd hno hold

theorem deregister_spec (hi : Inv s) (b : Address) :
    ∃ s', step lineBits (.deregister b) s = some s' ∧ Inv s' ∧ s'.lost = s.lost ∧
      ∀ y, y ∈ s'.tree.items ↔ y ∈ s.tree.items ∧ y.addr ≠ b := by
  obtain ⟨r, t', hdel, hT', hr, hmem, hnone⟩ := hi.stores.delete_mem b
  cases r with
  | none =>
    obtain rfl := hnone rfl
    exact ⟨s, by simp [step, hdel], hi, rfl, hmem⟩
  | some x =>
    obtain ⟨hx, hxb⟩ := (hr x).mp rfl
    have hout : x ∉ t'.items := fun hin => ((hmem x).mp hin).2 hxb
    have hmem' : ∀ y, y ∈ s.tree.items ↔ y = x ∨ y ∈ t'.items := by
      intro y
      rw [hmem]
      constructor
      · intro hy
        by_cases hyb : y.addr = b
        · exact .inl (hi.stores.distinct hy hx (hyb.trans hxb.symm))
        · exact .inr ⟨hy, hyb⟩
      · rintro (rfl | ⟨hy, -⟩)
        · exact hx
        · exact hy
    have hitems := hT'.cons_eq hi.stores hout hmem'
    have hle := hi.allocated
    rw [hitems] at hle
    refine ⟨⟨t', s.allocated.erase x⟩, by simp [step, hdel], ⟨hT', ?_⟩, ?_, hmem⟩
    · rw [← Multiset.erase_cons_head x (t'.items : Multiset ApproxRegion)]
      exact Multiset.erase_le_erase x hle
    · rw [lost, lost, hitems, Multiset.sub_cons]

theorem step_inv (op : RegionOp) (s : Records) (hi : Inv s) (hop : Valid op) :
    ∃ s', step lineBits op s = some s' ∧ Inv s' := by
  cases op with
  | register baseAddr range dataType =>
    obtain ⟨hbase, htype⟩ := hop
    obtain ⟨approxType, htype⟩ := Option.isSome_iff_exists.mp htype
    by_cases hfresh : ∀ y ∈ s.tree.items, y.addr ≠ baseAddr
    · obtain ⟨s', hs', hi', -⟩ := register_fresh hi hbase hfresh htype
      exact ⟨s', hs', hi'⟩
    · obtain ⟨s', hs', hi', -⟩ := register_again hi hbase hfresh htype
      exact ⟨s', hs', hi'⟩
  | deregister baseAddr =>
    obtain ⟨s', hs', hi', -⟩ := deregister_spec hi baseAddr
    exact ⟨s', hs', hi'⟩

end Records

/-- In every history of registrations and deregistrations, a registration does what it is to do
exactly when its data type is known and its base is not registered. -/
theorem registers_iff (lineBits : Fin 32) (ops : List RegionOp) (hops : ∀ op ∈ ops, Valid op) :
    ∃ s, run (Records.step lineBits) ops Records.start = some s ∧
      ∀ baseAddr range dataType, baseAddr ≠ 0 →
        (Registers lineBits baseAddr range dataType s ↔
          (approxTypeOf dataType).isSome ∧ ∀ x ∈ s.tree.items, x.addr ≠ baseAddr) := by
  have hstart : Records.Inv Records.start := ⟨alloc_stores, le_refl _⟩
  obtain ⟨s, hrun, hi⟩ := run_keeps Records.step_inv ops hstart (along_of_mem hops _)
  refine ⟨s, hrun, fun baseAddr range dataType hbase => ?_⟩
  constructor
  · rintro ⟨approxType, s', -, htype, hs', -, hlost, -⟩
    refine ⟨by rw [htype]; rfl, ?_⟩
    by_contra hold
    obtain ⟨s2, hs2, -, hlost2⟩ := register_again hi hbase hold htype
    obtain rfl := Option.some.inj (hs'.symm.trans hs2)
    exact absurd (hlost2.symm.trans hlost) (Multiset.lt_cons_self _ _).ne'
  · rintro ⟨htype, hfresh⟩
    obtain ⟨approxType, htype⟩ := Option.isSome_iff_exists.mp htype
    obtain ⟨s', hs', hi', hlost, hmem⟩ := register_fresh hi hbase hfresh htype
    obtain ⟨s'', hs'', -, hlost', hmem'⟩ := deregister_spec hi' baseAddr
    refine ⟨approxType, s', s'', htype, hs', hi'.stores.find_mem ((hmem _).mpr (.inl rfl)), hlost,
      hs'', hlost'.trans hlost, fun x => ?_⟩
    rw [hmem', hmem]
    constructor
    · rintro ⟨rfl | hx, hne⟩
      · exact absurd rfl hne
      · exact ⟨hx, hne⟩
    · rintro ⟨hx, hne⟩
      exact ⟨.inr hx, hne⟩

theorem registers_iff_sample :
    ∃ s, run (Records.step 6) [.register 4096 64 "float"] Records.start = some s ∧
      ∀ baseAddr range dataType, baseAddr ≠ 0 →
        (Registers 6 baseAddr range dataType s ↔
          (approxTypeOf dataType).isSome ∧ ∀ x ∈ s.tree.items, x.addr ≠ baseAddr) :=
  registers_iff 6 _ (by decide)

/-- A buffer of 64 bytes is registered, and then one of 128 bytes at the same address.  The region
in force still has 64 bytes, and the new record is lost. -/
theorem registers_stale :
    ∃ s, run (Records.step 6) [.register 4096 64 "float"] Records.start = some s ∧
      (Records.step 6 (.register 4096 128 "float") s).bind (fun s' => find 4096 s'.tree) =
        some (some (makeRegion 6 4096 64 .approxFp)) ∧
      (Records.step 6 (.register 4096 128 "float") s).map lost =
        some {makeRegion 6 4096 128 .approxFp} ∧
      ¬Registers 6 4096 128 "float" s := by
  refine ⟨_, rfl, rfl, rfl, ?_⟩
  rintro ⟨approxType, s', s'', -, hstep, hfind, -⟩
  obtain rfl := Option.some.inj hstep
  have hrange : (64 : UInt32) = 128 :=
    congrArg ApproxRegion.range (Option.some.inj (Option.some.inj hfind))
  exact absurd hrange (by decide)

end

end Doppelganger.Approx
