import Doppelganger.Llc.Routing

/-! Runs of the last-level cache: no line is in both arrays, and a line that the cache holds is
found by each request for it. -/

namespace Doppelganger.Llc

open Function Dpg Approx Lib

section

variable {cfg : Config} {exact : CacheArray cfg.numLines} {lineBits : Fin 32}
  {s s' : Cache exact} {a : Address} {id t : Nat} {req : Request exact}

/-- A lookup in the Doppelganger array that re-maps nothing changes nothing. -/
theorem Inv.lookup_sent (h : Inv lineBits s) {map : Int32} (hmap : SameMap lineBits a map s)
    (happrox : isApprox lineBits a s.approxTree = some true) (rank : RankCands cfg.assoc) :
    lookup cfg rank a map s.arrayDpg =
      some ((findTag cfg a s.arrayDpg).map (· + cfg.numLines), s.arrayDpg) := by
  cases hf : findTag cfg a s.arrayDpg with
  | none => exact lookup_miss h.wf hf
  | some t =>
    obtain ⟨-, -, d, hd⟩ := findTag_some hf
    exact lookup_same h.wf hf hd (hmap happrox t d hf hd)

/-- What a PUTS or PUTX needs of the line id that the lookup finds. -/
def PutsHeld (req : Request exact) (s : Cache exact) (id : Nat) : Prop :=
  (req.type = .PUTS → s.state id ≠ .I) ∧
    (req.type = .PUTX → s.state id = .M ∨ s.state id = .E)

theorem putsHeld_of_get (htype : req.type = .GETS ∨ req.type = .GETX) (s : Cache exact)
    (id : Nat) : PutsHeld req s id := by
  rcases htype with h | h <;> simp [PutsHeld, h]

theorem shouldAllocate_get {type : AccessType} (htype : type = .GETS ∨ type = .GETX) :
    shouldAllocate type = some () := by
  rcases htype with rfl | rfl <;> rfl

theorem accessExact_inv (h : Inv lineBits s)
    (happrox : isApprox lineBits req.lineAddr s.approxTree = some false)
    (hfound : ∀ id, exact.lookup req.lineAddr s.array = some id → PutsHeld req s id)
    (hmissed : exact.lookup req.lineAddr s.array = none → req.type = .GETS ∨ req.type = .GETX) :
    ∃ s', accessExact req s = some s' ∧ Inv lineBits s' := by
  unfold accessExact
  cases hl : exact.lookup req.lineAddr s.array with
  | some id =>
    exact processAccess_inv h (.inl ⟨exact.lookup_lt hl, hl⟩) (hfound id hl).1 (hfound id hl).2
  | none =>
    have hget := putsHeld_of_get (hmissed hl)
    rw [shouldAllocate_get (hmissed hl), Option.bind_some]
    exact processAccess_inv (insertExact_inv h req.rank happrox hl)
      (.inl ⟨exact.candidate_lt _ _ _, exact.inserted req.rank hl⟩) (hget _ _).1 (hget _ _).2

theorem accessDpg_inv (h : Inv lineBits s)
    (happrox : isApprox lineBits req.lineAddr s.approxTree = some true)
    (hmap : SameMap lineBits req.lineAddr req.map s)
    (hfound : ∀ t, findTag cfg req.lineAddr s.arrayDpg = some t →
      PutsHeld req s (t + cfg.numLines))
    (hmissed : findTag cfg req.lineAddr s.arrayDpg = none → req.type = .GETS ∨ req.type = .GETX) :
    ∃ s', accessDpg req s = some s' ∧ Inv lineBits s' := by
  have hself : sendEvictions { s with arrayDpg := s.arrayDpg } = s := sendEvictions_sent h.sent
  rw [accessDpg, h.lookup_sent hmap happrox, Option.bind_some]
  simp only [hself]
  cases hf : findTag cfg req.lineAddr s.arrayDpg with
  | some t => exact processAccess_inv h (.inr ⟨t, rfl, hf⟩) (hfound t hf).1 (hfound t hf).2
  | none =>
    have hget := putsHeld_of_get (hmissed hf)
    obtain ⟨t, arrayDpg, hins, hft, hinv⟩ := insertDpg_inv h req.rankDpg req.map happrox hf
    have hdpg := (sendEvictions_eq { s with arrayDpg := arrayDpg }).2.2.2.1
    simp only [Option.map_none, shouldAllocate_get (hmissed hf), Option.bind_some, hins]
    refine processAccess_inv hinv (.inr ⟨t, rfl, ?_⟩) (hget _ _).1 (hget _ _).2
    rw [hdpg]
    exact hft

theorem access_inv (h : Inv lineBits s) (hok : Settled lineBits (.access req) s) :
    ∃ s', access lineBits req s = some s' ∧ Inv lineBits s' := by
  obtain ⟨hput, hmap⟩ := hok
  have hcases : (req.type = .PUTS ∨ req.type = .PUTX) ∨ req.type = .GETS ∨ req.type = .GETX := by
    cases req.type <;> simp
  rw [access]
  rcases hcases with htype | htype
  · -- The line id that the cache holds the line with is the one that the lookup finds.
    obtain ⟨id, hheld, hx⟩ := hput htype
    have hputs : PutsHeld req s id := ⟨fun _ => hheld.1, hx⟩
    rcases h.held hheld with ⟨-, happrox, hl⟩ | ⟨t, rfl, happrox, hf⟩
    · rw [happrox]
      refine accessExact_inv h happrox (fun i hi => ?_) fun hmiss => ?_
      · obtain rfl : id = i := Option.some.inj (hl.symm.trans hi)
        exact hputs
      · simp [hl] at hmiss
    · rw [happrox]
      refine accessDpg_inv h happrox hmap (fun u hu => ?_) fun hmiss => ?_
      · obtain rfl : t = u := Option.some.inj (hf.symm.trans hu)
        exact hputs
      · simp [hf] at hmiss
  · have hget := putsHeld_of_get htype s
    obtain ⟨answer, happrox⟩ := h.answers req.lineAddr
    rw [happrox]
    cases answer with
    | false => exact accessExact_inv h happrox (fun id _ => hget id) fun _ => htype
    | true => exact accessDpg_inv h happrox hmap (fun t _ => hget _) fun _ => htype

theorem processInv_inv {type : InvType} (h : Inv lineBits s)
    (hok : Mesi.accepts type (s.state id) = true) :
    ∃ s', processInv type id s = some s' ∧ Inv lineBits s' := by
  obtain ⟨st, hst⟩ : ∃ st, Mesi.bccProcessInval type (s.state id) false = some st := by
    generalize s.state id = st at hok
    cases type <;> cases st <;> first | exact ⟨_, rfl⟩ | simp [Mesi.accepts] at hok
  have hvalid : s.state id ≠ .I := by
    intro hI
    cases type <;> simp [Mesi.accepts, hI] at hok
  rw [processInv, hst]
  refine ⟨_, rfl, ?_⟩
  refine ⟨h.wf, h.sent, h.answers, h.exact_routed, h.dpg_routed, fun i hi hstate => ?_,
    fun t hstate => ?_⟩
  · by_cases hii : i = id
    · exact h.exact_held i hi (hii ▸ hvalid)
    · simp only [update_of_ne hii] at hstate
      exact h.exact_held i hi hstate
  · by_cases hii : t + cfg.numLines = id
    · exact h.dpg_held t (hii ▸ hvalid)
    · simp only [update_of_ne hii] at hstate
      exact h.dpg_held t hstate

theorem finishInvalidate_inv {type : InvType} {map : Int32} {rank : RankCands cfg.assoc}
    (h : Inv lineBits s) (hok : Settled lineBits (.invalidate type a map rank) s) :
    ∃ s', finishInvalidate lineBits type a map rank s = some s' ∧ Inv lineBits s' := by
  obtain ⟨⟨id, hheld, ha⟩, hmap⟩ := hok
  rw [finishInvalidate]
  rcases h.held hheld with ⟨-, happrox, hl⟩ | ⟨t, rfl, happrox, hf⟩
  · rw [happrox, Option.bind_some, if_neg (by simp), hl]
    exact processInv_inv h ha
  · rw [happrox, Option.bind_some, if_pos rfl, h.lookup_sent hmap happrox, hf]
    simp only [Option.bind_some, Option.map_some, if_pos h.sent]
    exact processInv_inv h ha

theorem region_inv {op : RegionOp} (h : Inv lineBits s) (hok : Settled lineBits (.region op) s) :
    ∃ s', step lineBits (.region op) s = some s' ∧ Inv lineBits s' := by
  obtain ⟨t, ht, hsame⟩ := hok
  rw [step, ht]
  refine ⟨_, rfl, ?_⟩
  have hkept : ∀ b answer, s.InExact b ∨ s.InDpg b →
      isApprox lineBits b s.approxTree = some answer → isApprox lineBits b t = some answer := by
    intro b answer hin happrox
    obtain ⟨answer', h1, h2⟩ := hsame b
    rw [h1, ← h2 hin, happrox]
  exact ⟨h.wf, h.sent, fun b => (hsame b).imp fun _ h => h.1,
    fun b hb => hkept b _ (.inl hb) (h.exact_routed b hb),
    fun b hb => hkept b _ (.inr hb) (h.dpg_routed b hb), h.exact_held, h.dpg_held⟩

theorem step_inv (op : Op exact) (s : Cache exact) (h : Inv lineBits s)
    (hok : Settled lineBits op s) : ∃ s', step lineBits op s = some s' ∧ Inv lineBits s' := by
  cases op with
  | access req => exact access_inv h hok
  | invalidate type a map rank => exact finishInvalidate_inv h hok
  | region op => exact region_inv h hok

/-- The line ids of the Doppelganger array are above those of the exact one. -/
theorem Inv.lookup_ge (h : Inv lineBits s) {rank : RankCands cfg.assoc} {map : Int32}
    {arrayDpg : DpgArray} (hl : lookup cfg rank a map s.arrayDpg = some (some id, arrayDpg)) :
    cfg.numLines ≤ id := by
  cases hf : findTag cfg a s.arrayDpg with
  | none => simp [lookup_miss h.wf hf] at hl
  | some t =>
    obtain ⟨arrayDpg', hl'⟩ := lookup_again h.wf hf rank map
    obtain ⟨rfl, -⟩ : t + cfg.numLines = id ∧ arrayDpg' = arrayDpg := by simpa [hl'] using hl
    exact Nat.le_add_left _ _

/-- After a change of the regions the held lines are found exactly when the answers for them are the
same as before. -/
theorem Inv.finds_iff (h : Inv lineBits s) (tree : Tree) :
    (∀ a id, s.Holds a id → Cache.Finds lineBits { s with approxTree := tree } a id) ↔
      ∀ a id, s.Holds a id → isApprox lineBits a tree = isApprox lineBits a s.approxTree := by
  have rank : RankCands cfg.assoc :=
    have hlt : ∀ first, first ≤ first ∧ first < first + cfg.assoc := fun _ =>
      ⟨le_rfl, Nat.lt_add_of_pos_right cfg.assoc_pos⟩
    ⟨id, id, hlt, hlt⟩
  constructor
  · intro hfinds a id hheld
    rcases hfinds a id hheld with ⟨hnew, hl⟩ | ⟨hnew, hl⟩ <;>
      rcases h.held hheld with ⟨hid, hold, -⟩ | ⟨t, rfl, hold, -⟩
    · rw [hnew, hold]
    · exact absurd (exact.lookup_lt hl) (by omega)
    · obtain ⟨arrayDpg, hl⟩ := hl rank 0
      exact absurd (h.lookup_ge hl) (by omega)
    · rw [hnew, hold]
  · intro hsame a id hheld
    rcases h.finds hheld with ⟨hold, hl⟩ | ⟨hold, hl⟩
    · exact .inl ⟨(hsame a id hheld).trans hold, hl⟩
    · exact .inr ⟨(hsame a id hheld).trans hold, hl⟩

end

/-- In a run of settled operations the cache never panics or fails an assertion; no line is in both
arrays, and a line that the cache holds is found, with its line id, in the array that a request for
it goes to.  Other regions leave that so exactly when they change the answer for no line held. -/
theorem inclusion_kept {cfg : Config} (exact : CacheArray cfg.numLines) (lineBits : Fin 32)
    (ops : List (Op exact)) (hops : Along (step lineBits) (Settled lineBits) ops (start exact)) :
    ∃ s, run (step lineBits) ops (start exact) = some s ∧ (∀ a, ¬(s.InExact a ∧ s.InDpg a)) ∧
      (∀ a lineId, s.Holds a lineId → s.Finds lineBits a lineId) ∧
      ∀ op tree, regionCall lineBits op s.approxTree = some tree →
        ((∀ a lineId, s.Holds a lineId →
            Cache.Finds lineBits { s with approxTree := tree } a lineId) ↔
          ∀ a lineId, s.Holds a lineId →
            isApprox lineBits a tree = isApprox lineBits a s.approxTree) := by
  obtain ⟨s, hrun, h⟩ := run_keeps step_inv ops (start_inv lineBits exact) hops
  exact ⟨s, hrun, h.apart, fun a id => h.finds, fun _ tree _ => h.finds_iff tree⟩

/-! ### Two lines of each array -/

def tinyExact : CacheArray tiny.numLines := setAssocArray tiny

def tinyRequest (type : AccessType) (lineAddr : Address) : Op tinyExact :=
  .access ⟨type, lineAddr, ⟨false, false⟩, 5,
    (⟨tinyRank.tag, tinyRank.tag_mem⟩ : SetAssocArray.RankCands tiny.assoc), tinyRank, false⟩

/-- A region with the lines 65 to 67. -/
def tinyRegion : RegionOp := .register 4100 256 "float"

/-- After the registration of the region. -/
def tinyRegistered : Cache tinyExact :=
  { start tinyExact with
    approxTree := ⟨.leaf ⟨0, 0, some (makeRegion 6 4100 256 .approxFp), none, none⟩, 1, 4100⟩ }

/-- After a load of line 65, which the Doppelganger array now has in tag 1. -/
def tinyLoaded : Cache tinyExact :=
  { tinyRegistered with
    arrayDpg := postinsert tiny 65 3 (claimData 1 0 5 init)
    state := update tinyRegistered.state 3 .E
    owner := update tinyRegistered.owner 3 65 }

theorem tinyRegion_settled : Settled 6 (.region tinyRegion) (start tinyExact) := by
  have hproper : Regions.Proper tinyRegion Regions.start :=
    ⟨by decide, by decide, by decide, by decide, by simp [Regions.start]⟩
  have hstep : Regions.step 6 tinyRegion Regions.start =
      some ⟨tinyRegistered.approxTree, [⟨4100, 256⟩]⟩ := rfl
  have hstart : Regions.Inv 6 Regions.start := Regions.start_inv
  obtain ⟨r, hr, hinv⟩ := Regions.step_inv tinyRegion _ hstart hproper
  obtain rfl := Option.some.inj (hstep.symm.trans hr)
  refine ⟨tinyRegistered.approxTree, rfl, fun a => ?_⟩
  obtain ⟨answer, happrox, -⟩ := hinv.isApprox a
  refine ⟨answer, happrox, fun hin => ?_⟩
  -- The constructor leaves line 0 in each slot of the exact array.
  obtain rfl : a = 0 := by
    rcases hin with hin | hin
    · obtain ⟨id, hid⟩ := Option.isSome_iff_exists.mp hin
      exact (SetAssocArray.lookup_some hid).2.symm
    · obtain ⟨t, ht⟩ := Option.isSome_iff_exists.mp hin
      obtain ⟨-, -, d, hd⟩ := findTag_some ht
      simp [start, init] at hd
  exact happrox

theorem inclusion_kept_tiny :
    ∃ s, run (step 6) [.region tinyRegion, tinyRequest .GETS 65, tinyRequest .PUTS 65]
      (start tinyExact) = some s ∧ (∀ a, ¬(s.InExact a ∧ s.InDpg a)) ∧
      (∀ a lineId, s.Holds a lineId → s.Finds 6 a lineId) ∧
      ∀ op tree, regionCall 6 op s.approxTree = some tree →
        ((∀ a lineId, s.Holds a lineId → Cache.Finds 6 { s with approxTree := tree } a lineId) ↔
          ∀ a lineId, s.Holds a lineId →
            isApprox 6 a tree = isApprox 6 a s.approxTree) := by
  refine inclusion_kept tinyExact 6 _ ⟨tinyRegion_settled, fun s1 h1 => ?_⟩
  obtain rfl : tinyRegistered = s1 := Option.some.inj h1
  refine ⟨⟨by simp, fun _ t d ht => ?_⟩, fun s2 h2 => ?_⟩
  · have hnone : findTag tiny 65 tinyRegistered.arrayDpg = none := by decide
    exact absurd (hnone.symm.trans ht) (by simp)
  · have hloaded : step 6 (tinyRequest .GETS 65) tinyRegistered = some tinyLoaded := rfl
    obtain rfl : tinyLoaded = s2 := Option.some.inj (hloaded.symm.trans h2)
    refine ⟨⟨fun _ => ⟨3, ⟨by decide, rfl⟩, by simp⟩, fun _ t d ht hd => ?_⟩, fun _ _ => trivial⟩
    have hfound : findTag tiny 65 tinyLoaded.arrayDpg = some 1 := by decide
    obtain rfl : 1 = t := Option.some.inj (hfound.symm.trans ht)
    obtain rfl : 0 = d := Option.some.inj hd
    rfl

/-- A line that is in the exact array when a region with it is registered is lost: the write-back of
the child panics, an invalidation fails its assertion, and another load puts the line into the
Doppelganger array as well. -/
theorem registered_line_lost :
    ∃ s, run (step 6) [tinyRequest .GETS 65, .region tinyRegion] (start tinyExact) = some s ∧
      s.Holds 65 1 ∧ ¬s.Finds 6 65 1 ∧ step 6 (tinyRequest .PUTS 65) s = none ∧
      step 6 (.invalidate .INV 65 5 tinyRank) s = none ∧
      ∃ s', step 6 (tinyRequest .GETS 65) s = some s' ∧ s'.InExact 65 ∧ s'.InDpg 65 := by
  refine ⟨_, rfl, ⟨by decide, rfl⟩, ?_, rfl, rfl, _, rfl, rfl, rfl⟩
  rintro (⟨happrox, -⟩ | ⟨-, hlookup⟩)
  · exact absurd happrox (by decide)
  · obtain ⟨arrayDpg, hl⟩ := hlookup tinyRank 5
    have hfst := congrArg (Option.map Prod.fst) hl
    have hmiss := hfst.symm.trans (show _ = (some none : Option (Option Nat)) from rfl)
    simp at hmiss

end Doppelganger.Llc
