import Doppelganger.L1.FilterCache

/-! Runs of a filter cache.  An entry that `replace` filled stands for a line of the L1, so that
each access of the fast path would have been a hit there. -/

namespace Doppelganger.L1

open Function MESIState Lib

namespace Config

variable {cfg : Config} {a b : Address} {array : Nat → Address} {lineId victim : Nat}

/-! ### Addresses and lines -/

theorem setMask_toNat_lt : cfg.setMask.toNat < 2 ^ 32 := by
  have hpos := isPow2_pos cfg.pow2
  have hlt := cfg.numSets_lt
  have hsub : cfg.setMask.toNat = (2 ^ 64 - 1 + cfg.numSets) % 2 ^ 64 := by
    simp [setMask, UInt64.toNat_sub]
  omega

/-- Processes differ only in bits above those of the index. -/
theorem index_or (procIdx : Nat) (vLineAddr : Address) :
    cfg.index (cfg.procMask procIdx ||| vLineAddr) = cfg.index vLineAddr := by
  refine congrArg UInt64.toNat (UInt64.eq_of_toBitVec_eq (BitVec.eq_of_getLsbD_eq fun i hi => ?_))
  have hpos := cfg.lineBits_pos
  have hshift : ((64 - cfg.lineBits.val).toUInt64.toBitVec % 64).toNat = 64 - cfg.lineBits.val := by
    simp [BitVec.toNat_umod]
    omega
  simp only [procMask, UInt64.toBitVec_and, UInt64.toBitVec_or, UInt64.toBitVec_shiftLeft,
    BitVec.getLsbD_and, BitVec.getLsbD_or, BitVec.shiftLeft_eq', hshift, BitVec.getLsbD_shiftLeft]
  rcases Nat.lt_or_ge i 32 with hlow | hhigh
  · have hbelow : i < 64 - cfg.lineBits.val := by omega
    simp [hbelow]
  · have hbit : cfg.setMask.toBitVec.getLsbD i = false := Nat.testBit_lt_two_pow
      (Nat.lt_of_lt_of_le cfg.setMask_toNat_lt (Nat.pow_le_pow_right (by decide) hhigh))
    simp [hbit]

theorem vLineAddr_ne (vAddr : Address) : cfg.vLineAddr vAddr ≠ -1 := by
  intro heq
  have hpos := cfg.lineBits_pos
  have hlt := vAddr.toNat_lt
  have hle : vAddr.toNat / 2 ^ cfg.lineBits.val ≤ vAddr.toNat / 2 ^ 1 :=
    Nat.div_le_div_left (Nat.pow_le_pow_right (by decide) hpos) (by decide)
  have hshift : cfg.lineBits.val.toUInt64.toNat % 64 = cfg.lineBits.val := by
    simp only [Nat.toUInt64_eq, UInt64.toNat_ofNat']
    omega
  have hnat : (cfg.vLineAddr vAddr).toNat = 2 ^ 64 - 1 := by rw [heq]; rfl
  rw [vLineAddr, UInt64.toNat_shiftRight, hshift, Nat.shiftRight_eq_div_pow] at hnat
  omega

theorem lookup_some (h : cfg.lookup a array = some lineId) :
    lineId ∈ cfg.lines a ∧ array lineId = a :=
  ⟨List.mem_of_find?_eq_some h, by simpa using List.find?_some h⟩

/-- Lines of two sets are different. -/
theorem index_eq (ha : lineId ∈ cfg.lines a) (hb : lineId ∈ cfg.lines b) :
    cfg.index a = cfg.index b := by
  have hdiv : ∀ {c}, lineId ∈ cfg.lines c → lineId / cfg.assoc = cfg.index c := by
    intro c hc
    obtain ⟨hle, hlt⟩ := List.mem_range'_1.mp hc
    rw [Nat.div_eq_iff (by omega)]
    omega
  rw [← hdiv ha, ← hdiv hb]

theorem lookup_inserted (hmiss : cfg.lookup a array = none) (hvictim : victim ∈ cfg.lines a) :
    cfg.lookup a (update array victim a) = some victim := by
  refine Llc.find_only (by simp) hvictim fun id hid hat => ?_
  by_contra hne
  rw [update_of_ne hne] at hat
  exact absurd hat (by simpa using List.find?_eq_none.mp hmiss id hid)

theorem lookup_kept (hmiss : cfg.lookup a array = none) (hb : cfg.lookup b array = some lineId)
    (hne : lineId ≠ victim) : cfg.lookup b (update array victim a) = some lineId := by
  have hab : b ≠ a := by
    rintro rfl
    exact absurd (hmiss.symm.trans hb) nofun
  refine Llc.find_mono (fun id hid => ?_) (by simp [update_of_ne hne, (lookup_some hb).2]) hb
  rcases eq_or_ne id victim with rfl | hid'
  · exact absurd (by simpa using hid) hab.symm
  · rwa [update_of_ne hid'] at hid

/-! ### What an entry stands for -/

/-- The L1 has the line of the entry in a state for what the entry allows. -/
def Backed (cfg : Config) (s : FilterCache) (idx filler : Nat) : Prop :=
  ∃ lineId, cfg.lookup (cfg.procMask filler ||| (s.filterArray idx).rdAddr) s.array = some lineId ∧
    s.state lineId ≠ I ∧
    ((s.filterArray idx).wrAddr = (s.filterArray idx).rdAddr → s.state lineId = M)

/-- The process that filled an entry is on the core, and the entry is backed unless an access is
about to replace it. -/
structure Filled (cfg : Config) (s : FilterCache) (idx filler : Nat) : Prop where
  proc : s.proc = some filler
  index : cfg.index (s.filterArray idx).rdAddr = idx
  write : (s.filterArray idx).wrAddr = (s.filterArray idx).rdAddr ∨ (s.filterArray idx).wrAddr = -1
  backed : (∀ r ∈ s.replacing, cfg.index r.vLineAddr ≠ idx) → cfg.Backed s idx filler

structure Waiting (cfg : Config) (s : FilterCache) (r : Replace) : Prop where
  proc : ∃ procIdx ∈ s.proc, r.lineAddr = cfg.procMask procIdx ||| r.vLineAddr
  valid : r.vLineAddr ≠ -1
  missed : r.evicting = true →
    cfg.lookup r.lineAddr s.array = none ∧ r.lineId ∈ cfg.lines r.lineAddr
  found : r.evicting = false → cfg.lookup r.lineAddr s.array = some r.lineId

structure Inv (cfg : Config) (s : FilterCache) : Prop where
  filled : ∀ idx, ∀ filler ∈ s.filledBy idx, cfg.Filled s idx filler
  empty : ∀ idx, s.filledBy idx = none → s.filterArray idx = .clear ∨ s.filterArray idx = ⟨-1, -1⟩
  waiting : ∀ r ∈ s.replacing, cfg.Waiting s r

variable {s s' : FilterCache} {r : Replace} {idx filler procIdx : Nat} {vAddr : Address}
  {isLoad : Bool}

/-- The line of the entry is in the set of the entry. -/
theorem Filled.line_index (h : cfg.Filled s idx filler) :
    cfg.index (cfg.procMask filler ||| (s.filterArray idx).rdAddr) = idx := by
  rw [index_or, h.index]

theorem Waiting.line_index (h : cfg.Waiting s r) :
    cfg.index r.lineAddr = cfg.index r.vLineAddr := by
  obtain ⟨procIdx, -, heq⟩ := h.proc
  rw [heq, index_or]

/-- A change of a line in another set leaves an entry backed. -/
theorem Backed.congr (h : cfg.Backed s idx filler)
    (hfilter : s'.filterArray idx = s.filterArray idx)
    (hline : ∀ lineId, cfg.lookup (cfg.procMask filler ||| (s.filterArray idx).rdAddr) s.array =
      some lineId → cfg.lookup (cfg.procMask filler ||| (s.filterArray idx).rdAddr) s'.array =
      some lineId ∧ s'.state lineId = s.state lineId) : cfg.Backed s' idx filler := by
  obtain ⟨lineId, hlookup, hvalid, hwrite⟩ := h
  obtain ⟨hlookup', hstate⟩ := hline lineId hlookup
  exact ⟨lineId, by rwa [hfilter], by rwa [hstate], by rwa [hfilter, hstate]⟩

/-! ### Steps -/

theorem init_inv : cfg.Inv init where
  filled _ _ hfiller := absurd hfiller nofun
  empty _ _ := .inl rfl
  waiting _ hr := absurd hr nofun

theorem Inv.access (h : cfg.Inv s) (hproc : procIdx ∈ s.proc) (hidle : s.replacing = none)
    (hvictim : victim ∈ cfg.lines (cfg.procMask procIdx ||| cfg.vLineAddr vAddr)) :
    ∃ s', cfg.access isLoad vAddr victim s = some s' ∧ cfg.Inv s' := by
  rw [Config.access, Option.mem_def.mp hproc, Option.bind_some, if_pos hidle]
  split
  · exact ⟨s, rfl, h⟩
  · refine ⟨_, rfl, fun idx filler hfiller => ?_, h.empty, fun r hr => ?_⟩
    · obtain ⟨hp, hindex, hwrite, hbacked⟩ := h.filled idx filler hfiller
      exact ⟨hp, hindex, hwrite, fun _ => hbacked (by simp [hidle])⟩
    · obtain rfl := Option.some.inj hr
      cases hlookup : cfg.lookup (cfg.procMask procIdx ||| cfg.vLineAddr vAddr) s.array with
      | none =>
        exact ⟨⟨procIdx, hproc, rfl⟩, vLineAddr_ne vAddr, fun _ => ⟨hlookup, hvictim⟩, nofun⟩
      | some lineId => exact ⟨⟨procIdx, hproc, rfl⟩, vLineAddr_ne vAddr, nofun, fun _ => hlookup⟩

/-- The victim is in the set of the entry that will be replaced. -/
theorem Inv.evicted (h : cfg.Inv s) (hr : r ∈ s.replacing) (hevicting : r.evicting = true) :
    ∃ s', evicted s = some s' ∧ cfg.Inv s' := by
  have hwait := h.waiting r hr
  obtain ⟨hmissed, hvictim⟩ := hwait.missed hevicting
  rw [Config.evicted, Option.mem_def.mp hr, Option.bind_some, if_pos hevicting]
  refine ⟨_, rfl, fun idx filler hfiller => ?_, h.empty, fun r' hr' => ?_⟩
  · have hfilled := h.filled idx filler hfiller
    refine ⟨hfilled.proc, hfilled.index, hfilled.write, fun hkeep => ?_⟩
    have hne : cfg.index r.vLineAddr ≠ idx := hkeep { r with evicting := false } rfl
    have hold : cfg.Backed s idx filler := hfilled.backed fun r' hr' => by
      obtain rfl := Option.some.inj (hr.symm.trans hr')
      exact hne
    refine hold.congr rfl fun lineId hlookup => ?_
    have hline : lineId ≠ r.lineId := by
      rintro rfl
      have hsame := index_eq (lookup_some hlookup).1 hvictim
      rw [hfilled.line_index, hwait.line_index] at hsame
      exact hne hsame.symm
    exact ⟨lookup_kept hmissed hlookup hline, update_of_ne hline ..⟩
  · obtain rfl := Option.some.inj hr'
    exact ⟨hwait.proc, hwait.valid, nofun, fun _ => lookup_inserted hmissed hvictim⟩

/-- What `processAccess` leaves. -/
theorem bccProcessAccess_eq {grant : MESIState} (state : MESIState)
    (hgrant : if r.isLoad then grant = .S ∨ grant = .E else grant = .M) :
    ∃ new, Mesi.bccProcessAccess r.type [] (.terminal state)
        (fun node => some ([], node.setState grant)) = some ([], .terminal new) ∧
      new ≠ I ∧ (r.isLoad = false → new = M) := by
  rw [Replace.type]
  cases hload : r.isLoad with
  | true =>
    rw [hload] at hgrant
    rcases hgrant with rfl | rfl <;> cases state <;>
      simp [Mesi.bccProcessAccess, Mesi.Node.state, Mesi.Node.setState]
  | false =>
    rw [hload] at hgrant
    obtain rfl : grant = .M := hgrant
    cases state <;> simp [Mesi.bccProcessAccess, Mesi.Node.state, Mesi.Node.setState]

theorem Inv.granted {grant : MESIState} (h : cfg.Inv s) (hr : r ∈ s.replacing)
    (hevicted : r.evicting = false)
    (hgrant : if r.isLoad then grant = .S ∨ grant = .E else grant = .M) :
    ∃ s', cfg.granted grant s = some s' ∧ cfg.Inv s' := by
  have hwait := h.waiting r hr
  have hfound := hwait.found hevicted
  obtain ⟨filler, hfiller, hline⟩ := hwait.proc
  obtain ⟨new, hnew, hvalid, hwrite⟩ := bccProcessAccess_eq (s.state r.lineId) hgrant
  rw [Config.granted, Option.mem_def.mp hr, Option.bind_some, if_neg (by simp [hevicted]), hnew]
  have hindex := hwait.line_index
  refine ⟨_, rfl, fun idx filler' hfiller' => ?_, fun idx hnone => ?_, nofun⟩
  · rcases eq_or_ne idx (cfg.index r.vLineAddr) with rfl | hne
    · have hsame : s.proc = some filler' := by simpa using hfiller'
      obtain rfl := Option.some.inj (hfiller.symm.trans hsame)
      refine ⟨hsame, by simp, ?_, fun _ => ⟨r.lineId, ?_, ?_, fun hwr => ?_⟩⟩
      · cases r.isLoad <;> simp
      · simpa [hline] using hfound
      · simpa [Mesi.Node.state] using hvalid
      · cases hload : r.isLoad with
        | true =>
          have hwr : (-1 : Address) = r.vLineAddr := by simpa [hload] using hwr
          exact absurd hwr.symm hwait.valid
        | false => simpa [Mesi.Node.state] using hwrite hload
    · have hfilled := h.filled idx filler' (by simpa [hne] using hfiller')
      refine ⟨hfilled.proc, by simpa [hne] using hfilled.index, by simpa [hne] using hfilled.write,
        fun _ => ?_⟩
      have hold : cfg.Backed s idx filler' := hfilled.backed fun r' hr' => by
        obtain rfl := Option.some.inj (hr.symm.trans hr')
        exact hne.symm
      refine hold.congr (update_of_ne hne ..) fun lineId hlookup => ⟨hlookup, update_of_ne ?_ ..⟩
      rintro rfl
      have hsame := index_eq (lookup_some hlookup).1 (lookup_some hfound).1
      rw [hfilled.line_index, hindex] at hsame
      exact hne hsame
  · rcases eq_or_ne idx (cfg.index r.vLineAddr) with rfl | hne
    · have hnone' : s.proc = none := by simpa using hnone
      exact absurd (hfiller.symm.trans hnone') nofun
    · simpa [hne] using h.empty idx (by simpa [hne] using hnone)

/-- The state that a message leaves, when the assertion of `processInval` holds. -/
theorem bccProcessInval_eq {type : InvType} {state : MESIState}
    (haccepts : Mesi.accepts type state = true) :
    ∃ wb, Mesi.bccProcessInval type state false = some (Mesi.after type, wb) := by
  cases type <;> cases state <;> simp_all [Mesi.bccProcessInval, Mesi.accepts, Mesi.after]

/-- The filter forgets an entry. -/
theorem Inv.forget (h : cfg.Inv s) (idx : Nat) :
    cfg.Inv { s with
      filterArray := update s.filterArray idx ⟨-1, -1⟩
      filledBy := update s.filledBy idx none } where
  filled idx' filler hfiller := by
    rcases eq_or_ne idx' idx with rfl | hne
    · exact absurd hfiller (by simp)
    · have hfilled := h.filled idx' filler (by simpa [hne] using hfiller)
      have hsame : update s.filterArray idx ⟨-1, -1⟩ idx' = s.filterArray idx' :=
        update_of_ne hne ..
      exact ⟨hfilled.proc, by simpa only [hsame] using hfilled.index,
        by simpa only [hsame] using hfilled.write,
        fun hkeep => (hfilled.backed hkeep).congr hsame fun _ hlookup => ⟨hlookup, rfl⟩⟩
  empty idx' hnone := by
    rcases eq_or_ne idx' idx with rfl | hne
    · exact .inr (by simp)
    · simpa [hne] using h.empty idx' (by simpa [hne] using hnone)
  waiting r hr := ⟨(h.waiting r hr).proc, (h.waiting r hr).valid, (h.waiting r hr).missed,
    (h.waiting r hr).found⟩

/-- The L1 changes the state of a line as the entry of the line allows. -/
theorem Inv.setState (h : cfg.Inv s) {state : MESIState}
    (hfound : cfg.lookup a s.array = some lineId)
    (hallows : ∀ filler ∈ s.filledBy (cfg.index a),
      cfg.procMask filler ||| (s.filterArray (cfg.index a)).rdAddr = a →
        (∀ r ∈ s.replacing, cfg.index r.vLineAddr ≠ cfg.index a) → state ≠ I ∧
          ((s.filterArray (cfg.index a)).wrAddr = (s.filterArray (cfg.index a)).rdAddr →
            state = M)) :
    cfg.Inv { s with state := update s.state lineId state } where
  filled idx filler hfiller := by
    have hfilled := h.filled idx filler hfiller
    refine ⟨hfilled.proc, hfilled.index, hfilled.write, fun hkeep => ?_⟩
    by_cases hline : cfg.procMask filler ||| (s.filterArray idx).rdAddr = a
    · obtain rfl : cfg.index a = idx := by rw [← hline, hfilled.line_index]
      obtain ⟨hvalid, hwrite⟩ := hallows filler hfiller hline hkeep
      exact ⟨lineId, by rwa [hline], by simpa using hvalid, by simpa using hwrite⟩
    · refine (hfilled.backed hkeep).congr rfl fun lineId' hlookup => ⟨hlookup, update_of_ne ?_ ..⟩
      rintro rfl
      exact hline ((lookup_some hlookup).2.symm.trans (lookup_some hfound).2)
  empty := h.empty
  waiting r hr := ⟨(h.waiting r hr).proc, (h.waiting r hr).valid, (h.waiting r hr).missed,
    (h.waiting r hr).found⟩

theorem Inv.invalidate {type : InvType} (h : cfg.Inv s)
    (hfound : cfg.lookup a s.array = some lineId)
    (haccepts : Mesi.accepts type (s.state lineId) = true)
    (hsees : cfg.Sees (.invalidate type a procIdx) s) :
    ∃ s', cfg.invalidate type a procIdx s = some s' ∧ cfg.Inv s' := by
  obtain ⟨wb, hinval⟩ := bccProcessInval_eq haccepts
  rw [Config.invalidate]
  split
  next hmatch =>
    simp only [hfound, Option.bind_some, hinval, Option.map_some]
    exact ⟨_, rfl, (h.forget (cfg.index a)).setState hfound fun filler hfiller =>
      absurd hfiller (by simp)⟩
  next hmatch =>
    simp only [hfound, Option.bind_some, hinval, Option.map_some]
    refine ⟨_, rfl, h.setState hfound fun filler hfiller hline hkeep => ?_⟩
    -- the entry stays, so the message takes nothing away that it allows
    have hleaves : ¬(type = .INV ∨ type = .INVX ∧
        (s.filterArray (cfg.index a)).wrAddr = (s.filterArray (cfg.index a)).rdAddr) :=
      fun htakes => hmatch (hsees ⟨filler, hfiller, hline⟩ hkeep htakes)
    cases type with
    | INV => exact absurd (.inl rfl) hleaves
    | INVX => exact ⟨nofun, fun hwr => absurd (.inr ⟨rfl, hwr⟩) hleaves⟩
    | FWD =>
      refine ⟨nofun, fun hwr => ?_⟩
      obtain ⟨lineId', hlookup, -, hwrite⟩ := (h.filled _ filler hfiller).backed hkeep
      rw [hline] at hlookup
      obtain rfl := Option.some.inj (hfound.symm.trans hlookup)
      rw [hwrite hwr] at haccepts
      exact absurd haccepts (by decide)

theorem deschedule_inv (hidle : s.replacing = none) (hproc : s.proc ≠ none) :
    ∃ s', deschedule s = some s' ∧ cfg.Inv s' :=
  ⟨_, if_pos ⟨hproc, hidle⟩, nofun, fun _ _ => .inl rfl, fun _ hr =>
    absurd (hidle.symm.trans hr) nofun⟩

theorem Inv.schedule (h : cfg.Inv s) (hproc : s.proc = none) :
    ∃ s', schedule procIdx s = some s' ∧ cfg.Inv s' := by
  refine ⟨_, if_pos hproc, fun idx filler hfiller => ?_, h.empty, fun r hr => ?_⟩
  · exact absurd (hproc.symm.trans (h.filled idx filler hfiller).proc) nofun
  · obtain ⟨procIdx, hp, -⟩ := (h.waiting r hr).proc
    exact absurd (hproc.symm.trans hp) nofun

/-- An operation that is allowed succeeds. -/
theorem Inv.step {op : Op} (h : cfg.Inv s) (hok : cfg.Allowed op s) (hsees : cfg.Sees op s) :
    ∃ s', cfg.step op s = some s' ∧ cfg.Inv s' := by
  cases op with
  | load vAddr victim =>
    obtain ⟨hidle, procIdx, hproc, hvictim⟩ := hok
    exact h.access hproc hidle hvictim
  | store vAddr victim =>
    obtain ⟨hidle, procIdx, hproc, hvictim⟩ := hok
    exact h.access hproc hidle hvictim
  | evicted =>
    obtain ⟨r, hr, hevicting⟩ := hok
    exact h.evicted hr hevicting
  | granted grant =>
    obtain ⟨r, hr, hevicted, hgrant⟩ := hok
    exact h.granted hr hevicted hgrant
  | invalidate type lineAddr procIdx =>
    obtain ⟨lineId, hfound, haccepts⟩ := hok
    exact h.invalidate hfound haccepts hsees
  | deschedule => exact deschedule_inv hok.1 hok.2
  | schedule procIdx => exact h.schedule hok

/-- An access of the fast path meets an entry that was filled for its process. -/
theorem Inv.hit (h : cfg.Inv s) (hidle : s.replacing = none) (hproc : s.proc = some procIdx)
    (hhit : cfg.Hits isLoad vAddr s)
    (hsees : cfg.vLineAddr vAddr = 0 → s.filledBy (cfg.index 0) = none →
      s.filterArray (cfg.index 0) ≠ .clear) :
    s.filledBy (cfg.index (cfg.vLineAddr vAddr)) = some procIdx ∧
      ∃ lineId, cfg.lookup (cfg.procMask procIdx ||| cfg.vLineAddr vAddr) s.array = some lineId ∧
        s.state lineId ≠ I ∧ (isLoad = false → s.state lineId = M) := by
  have hne := cfg.vLineAddr_ne vAddr
  rw [Hits, filterAddr] at hhit
  cases hfilled : s.filledBy (cfg.index (cfg.vLineAddr vAddr)) with
  | none =>
    rcases h.empty _ hfilled with hclear | hgone
    · have hzero : cfg.vLineAddr vAddr = 0 := by
        simpa [hclear, FilterEntry.clear] using hhit
      rw [hzero] at hfilled hclear
      exact absurd hclear (hsees hzero hfilled)
    · exact absurd (by simpa [hgone] using hhit) hne
  | some filler =>
    obtain ⟨hfproc, hindex, hwrite, hbacked⟩ := h.filled _ filler hfilled
    obtain rfl := Option.some.inj (hproc.symm.trans hfproc)
    obtain ⟨lineId, hlookup, hvalid, hM⟩ := hbacked (by simp [hidle])
    cases isLoad with
    | true =>
      have hrd : cfg.vLineAddr vAddr =
          (s.filterArray (cfg.index (cfg.vLineAddr vAddr))).rdAddr := by simpa using hhit
      rw [← hrd] at hlookup
      exact ⟨rfl, lineId, hlookup, hvalid, nofun⟩
    | false =>
      have hwr : cfg.vLineAddr vAddr =
          (s.filterArray (cfg.index (cfg.vLineAddr vAddr))).wrAddr := by simpa using hhit
      have hsame := hwrite.resolve_right fun hgone => hne (hwr.trans hgone)
      rw [← hsame, ← hwr] at hlookup
      exact ⟨rfl, lineId, hlookup, hvalid, fun _ => hM hsame⟩

/-- In a run whose operations all meet `Sees`, each access of the fast path would be a hit in the
L1, in a line of the process on the core. -/
theorem hits_backed (ops : List Op)
    (h : Along cfg.step (fun op s => cfg.Allowed op s ∧ cfg.Sees op s) ops init) :
    ∃ s, run cfg.step ops init = some s ∧ ∀ procIdx ∈ s.proc, s.replacing = none →
      ∀ vAddr victim,
        (cfg.Sees (.load vAddr victim) s → cfg.Hits true vAddr s →
          s.filledBy (cfg.index (cfg.vLineAddr vAddr)) = some procIdx ∧
          ∃ lineId, cfg.lookup (cfg.procMask procIdx ||| cfg.vLineAddr vAddr) s.array =
            some lineId ∧ s.state lineId ≠ I) ∧
        (cfg.Sees (.store vAddr victim) s → cfg.Hits false vAddr s →
          s.filledBy (cfg.index (cfg.vLineAddr vAddr)) = some procIdx ∧
          ∃ lineId, cfg.lookup (cfg.procMask procIdx ||| cfg.vLineAddr vAddr) s.array =
            some lineId ∧ s.state lineId = M) := by
  obtain ⟨s, hrun, hinv⟩ := run_keeps (fun op s hs hok => hs.step hok.1 hok.2) ops init_inv h
  refine ⟨s, hrun, fun procIdx hproc hidle vAddr victim => ⟨fun hsees hhit => ?_,
    fun hsees hhit => ?_⟩⟩
  · obtain ⟨hfilled, lineId, hlookup, hvalid, -⟩ := hinv.hit hidle hproc hhit hsees
    exact ⟨hfilled, lineId, hlookup, hvalid⟩
  · obtain ⟨hfilled, lineId, hlookup, -, hM⟩ := hinv.hit hidle hproc hhit hsees
    exact ⟨hfilled, lineId, hlookup, hM rfl⟩

/-- Lines of 64 bytes, four sets of two ways. -/
def sample : Config where
  lineBits := ⟨6, by decide⟩
  numSets := 4
  assoc := 2
  lineBits_pos := by decide
  pow2 := by decide
  numSets_lt := by decide

/-- A load and a store of the process 1, which process 2 leaves where they are. -/
def sampleOps : List Op :=
  [.schedule 1, .load 4160 2, .evicted, .granted .E, .load 4168 2, .store 4160 2, .granted .M,
    .invalidate .INV (sample.procMask 1 ||| 65) 1, .store 4160 2, .granted .M, .deschedule,
    .schedule 2, .load 4160 3, .evicted, .granted .S, .invalidate .INV (sample.procMask 1 ||| 65) 2,
    .deschedule, .schedule 1, .store 4160 2, .granted .M]

theorem hits_backed_sample :
    ∃ s lineId, run sample.step sampleOps init = some s ∧ sample.Hits false 4176 s ∧
      sample.lookup (sample.procMask 1 ||| 65) s.array = some lineId ∧ s.state lineId = M := by
  obtain ⟨s, hrun, hhits⟩ := hits_backed sampleOps (by decide +kernel : Along sample.step
    (fun op s => sample.Allowed op s ∧ sample.Sees op s) sampleOps init)
  have hlast : (run sample.step sampleOps init).map (fun s => (s.proc, s.replacing,
      decide (sample.Sees (.store 4176 0) s), decide (sample.Hits false 4176 s))) =
      some (some 1, none, true, true) := by decide +kernel
  rw [hrun] at hlast
  obtain ⟨hproc, hidle, hsees, hhit⟩ := by
    simpa only [Option.map_some, Option.some.injEq, Prod.mk.injEq, decide_eq_true_eq] using hlast
  obtain ⟨-, lineId, hlookup, hM⟩ := (hhits 1 hproc hidle 4176 0).2 hsees hhit
  exact ⟨s, lineId, hrun, hhit, hlookup, hM⟩

/-- A thread of process 2 invalidates the line of an entry, and the entry stays.  And before any
access the line 0 is in the filter. -/
theorem stale_hits :
    let ops := [.schedule 1, .load 4160 2, .evicted, .granted .E,
      .invalidate .INV (sample.procMask 1 ||| 65) 2]
    (Along sample.step sample.Allowed ops init ∧
      ∃ s, run sample.step ops init = some s ∧ s.proc = some 1 ∧ s.replacing = none ∧
        sample.Hits true 4160 s ∧
        sample.lookup (sample.procMask 1 ||| sample.vLineAddr 4160) s.array = some 2 ∧
        s.state 2 = I) ∧
    ∃ s, run sample.step [.schedule 1] init = some s ∧ sample.Hits false 0 s ∧
      sample.lookup (sample.procMask 1 ||| sample.vLineAddr 0) s.array = none := by
  intro ops
  have hlast : (run sample.step ops init).map (fun s => (s.proc, s.replacing,
      decide (sample.Hits true 4160 s),
      sample.lookup (sample.procMask 1 ||| sample.vLineAddr 4160) s.array, s.state 2)) =
      some (some 1, none, true, some 2, I) := by decide +kernel
  have hzero : (run sample.step [.schedule 1] init).map (fun s => (decide (sample.Hits false 0 s),
      sample.lookup (sample.procMask 1 ||| sample.vLineAddr 0) s.array)) =
      some (true, none) := by decide +kernel
  obtain ⟨s, hrun, hs⟩ := Option.map_eq_some_iff.mp hlast
  obtain ⟨s0, hrun0, hs0⟩ := Option.map_eq_some_iff.mp hzero
  simp only [Prod.mk.injEq, decide_eq_true_eq] at hs hs0
  exact ⟨⟨by decide +kernel, s, hrun, hs⟩, s0, hrun0, hs0⟩

end Config

end Doppelganger.L1
