import Doppelganger.Part.Lookahead
import Doppelganger.Lib.Tally

/-! The lines of `WayPartReplPolicy` in `part_repl_policies.h`: the victims that it ranks first, and
the sizes of its partitions.  Among the lines in the ways of the incoming line's partition, those of
other partitions go first, and then the one whose last update is oldest. -/

namespace Doppelganger.Part

open Lib Function

/-- `ts` is `0` for an empty line. -/
structure WayPartInfo where
  addr : ℕ
  ts : ℕ
  p : ℕ
deriving DecidableEq, Repr

/-- `WayPartReplPolicy` with its lines.  `size p` is `partInfo[p].size`; `underflow` records that
one of them was decremented at zero, and is not in the source. -/
structure WayPartRepl extends WayPartReplPolicy where
  array : ℕ → WayPartInfo
  size : ℕ → UInt64
  testMode : Bool
  bestId : Option ℕ
  candIdx : ℕ
  incomingLinePart : ℕ
  incomingLineAddr : ℕ
  timestamp : ℕ
  underflow : Bool

/-- `update` is a hit, and `insert` what `postinsert` calls: `replaced`, and then `update`. -/
inductive WayPartOp
  | update (id : ℕ)
  | rank (part addr : ℕ) (cands : List ℕ)
  | insert (id : ℕ)
  | setPartitionSizes (waysPart : List ℕ)
deriving DecidableEq, Repr

namespace WayPartRepl

/-- `uint32_t p = w*partitions/ways;` -/
def firstPart (partitions : ℕ) (ways : UInt32) (w : ℕ) : ℕ :=
  (UInt32.ofNat w * UInt32.ofNat partitions / ways).toNat

/-- The constructor. -/
def start (partitions : ℕ) (totalSize ways : UInt32) (testMode : Bool) : Option WayPartRepl :=
  let waySize := totalSize / ways
  if waySize * ways = totalSize then
    some {
      partitions := partitions
      totalSize := totalSize
      ways := ways
      targetSize := (List.range ways.toNat).foldl
        (fun targetSize w => targetSize.modify (firstPart partitions ways w) (· + waySize))
        (List.replicate partitions 0)
      wayPartIndex := (List.range ways.toNat).map (firstPart partitions ways)
      array := fun _ => ⟨0, 0, 0⟩
      size := fun p => if p = 0 then UInt64.ofNat totalSize.toNat else 0
      testMode := testMode
      bestId := none
      candIdx := 0
      incomingLinePart := 0
      incomingLineAddr := 0
      timestamp := 1
      underflow := false }
  else none

/-- The post-miss branch of `update`. -/
def takeLine (id : ℕ) (s : WayPartRepl) : WayPartRepl :=
  let e := s.array id
  let oldPart := e.p
  let newPart := s.incomingLinePart
  let s' := if oldPart = newPart then s
    else { s with
      underflow := s.underflow || s.size oldPart == 0
      size := inc (dec s.size oldPart) newPart }
  { s' with array := Function.update s.array id { e with p := newPart } }

def update (id : ℕ) (s : WayPartRepl) : Option WayPartRepl :=
  if id < s.totalSize.toNat then
    let s' := if 0 < (s.array id).ts then s else s.takeLine id
    some { s' with
      array := Function.update s'.array id { s'.array id with ts := s.timestamp }
      timestamp := s.timestamp + 1 }
  else none

def startReplacement (part addr : ℕ) (s : WayPartRepl) : Option WayPartRepl :=
  if s.candIdx = 0 ∧ s.bestId = none then
    some { s with incomingLinePart := part, incomingLineAddr := addr }
  else none

/-- Whether candidate `c` takes the place of `best`. -/
def beats (s : WayPartRepl) (c best : WayPartInfo) : Bool :=
  if s.testMode ∨ (c.p = s.incomingLinePart ∧ best.p = s.incomingLinePart) then c.ts < best.ts
  else if c.p = s.incomingLinePart ∧ best.p ≠ s.incomingLinePart then false
  else if c.p ≠ s.incomingLinePart ∧ best.p = s.incomingLinePart then true
  else c.ts < best.ts

/-- The better of the best candidate so far and `id`. -/
def bestWith (s : WayPartRepl) (id : ℕ) : ℕ :=
  match s.bestId with
  | none => id
  | some best => if s.beats (s.array id) (s.array best) then id else best

def recordCandidate (s : WayPartRepl) (id : ℕ) : Option WayPartRepl :=
  if s.candIdx < s.ways.toNat ∧ id < s.totalSize.toNat then
    s.wayPartIndex[s.candIdx]?.map fun part =>
      { s with
        candIdx := s.candIdx + 1
        bestId := if s.testMode ∨ part = s.incomingLinePart then some (s.bestWith id)
          else s.bestId }
  else none

def rank (part addr : ℕ) (cands : List ℕ) (s : WayPartRepl) : Option (ℕ × WayPartRepl) :=
  (s.startReplacement part addr).bind fun s =>
    (cands.foldlM recordCandidate s).bind fun s => s.bestId.map fun id => (id, s)

def replaced (id : ℕ) (s : WayPartRepl) : Option WayPartRepl :=
  if id < s.totalSize.toNat then
    some { s with
      candIdx := 0
      bestId := none
      array := Function.update s.array id
        { s.array id with ts := 0, addr := s.incomingLineAddr } }
  else none

def setPartitionSizes (waysPart : List ℕ) (s : WayPartRepl) : Option WayPartRepl :=
  (s.toWayPartReplPolicy.setPartitionSizes waysPart).map fun repl =>
    { s with toWayPartReplPolicy := repl }

def step : WayPartOp → WayPartRepl → Option WayPartRepl
  | .update id, s => s.update id
  | .rank part addr cands, s => (s.rank part addr cands).map Prod.snd
  | .insert id, s => (s.replaced id).bind (update id)
  | .setPartitionSizes waysPart, s => s.setPartitionSizes waysPart

/-- `SetAssocCands(first, first+assoc)`. -/
def setCands (ways set : ℕ) : List ℕ := List.range' (set * ways) ways

/-! ### Victims -/

/-- Line `id` of the set is in a way of the partition. -/
def InWays (s : WayPartRepl) (part set id : ℕ) : Prop :=
  ∃ way, s.wayPartIndex[way]? = some part ∧ id = set * s.ways.toNat + way

/-- A line of another partition in the partition's ways whose last update is oldest, or, when all
lines there are its own, the one of them whose last update is oldest. -/
structure IsVictim (s : WayPartRepl) (part set id : ℕ) : Prop where
  inWays : s.InWays part set id
  oldest : (s.array id).p ≠ part ∧
      (∀ c, s.InWays part set c → (s.array c).p ≠ part → (s.array id).ts ≤ (s.array c).ts) ∨
    (∀ c, s.InWays part set c → (s.array c).p = part) ∧
      ∀ c, s.InWays part set c → (s.array id).ts ≤ (s.array c).ts

/-- A state between two requests, when each partition has a way. -/
structure Ready (s : WayPartRepl) : Prop where
  candIdx : s.candIdx = 0
  bestId : s.bestId = none
  index : s.wayPartIndex.length = s.ways.toNat
  owns : ∀ p < s.partitions, p ∈ s.wayPartIndex

variable {s s' : WayPartRepl} {part addr set id n k : ℕ} {c c' best : WayPartInfo}

/-- Other partitions first, and then in the order of the last updates. -/
theorem beats_iff (hmode : s.testMode = false) : s.beats c best = true ↔
    (c.p ≠ s.incomingLinePart ∧ best.p = s.incomingLinePart) ∨
    ((c.p = s.incomingLinePart ↔ best.p = s.incomingLinePart) ∧ c.ts < best.ts) := by
  unfold beats
  rw [hmode]
  by_cases hc : c.p = s.incomingLinePart
  · by_cases hbest : best.p = s.incomingLinePart
    · simp [hc, hbest]
    · simp [hc, hbest]
  · by_cases hbest : best.p = s.incomingLinePart
    · simp [hc, hbest]
    · simp [hc, hbest]

/-- What does not beat the best so far does not beat what takes its place. -/
theorem not_beats_trans (hmode : s.testMode = false) (hc : s.beats c best = false)
    (hc' : s.beats c' best = true) : s.beats c c' = false := by
  rw [← Bool.not_eq_true] at hc ⊢
  rw [beats_iff hmode] at hc hc' ⊢
  rintro (⟨h1, h2⟩ | ⟨h1, h2⟩)
  · apply hc
    rcases hc' with ⟨h3, -⟩ | ⟨h3, -⟩
    · exact absurd h2 h3
    · exact .inl ⟨h1, h3.mp h2⟩
  · apply hc
    rcases hc' with ⟨h3, h4⟩ | ⟨h3, h4⟩
    · exact .inl ⟨fun h => h3 (h1.mp h), h4⟩
    · exact .inr ⟨h1.trans h3, h2.trans h4⟩

/-- After the first `k` candidates of the set, for a line of partition `part`. -/
structure Ranked (s : WayPartRepl) (part set k : ℕ) (s' : WayPartRepl) : Prop where
  rest : s' = { s with
    incomingLinePart := part
    incomingLineAddr := s'.incomingLineAddr
    candIdx := s'.candIdx
    bestId := s'.bestId }
  candIdx : s'.candIdx = k
  noWay : s'.bestId = none → ∀ way < k, s.wayPartIndex[way]? ≠ some part
  isBest : ∀ id, s'.bestId = some id → s.InWays part set id ∧
    ∀ way < k, s.wayPartIndex[way]? = some part →
      s'.beats (s.array (set * s.ways.toNat + way)) (s.array id) = false

theorem not_beats_self (hmode : s.testMode = false) : s.beats c c = false := by
  rw [← Bool.not_eq_true, beats_iff hmode]
  rintro (⟨h1, h2⟩ | ⟨-, h2⟩)
  · exact h1 h2
  · exact Nat.lt_irrefl _ h2

/-- A candidate in another partition's way changes nothing. -/
theorem Ranked.skip {q : ℕ} (h : s.Ranked part set k s') (hq : s.wayPartIndex[k]? = some q)
    (hne : q ≠ part) : s.Ranked part set (k + 1) { s' with candIdx := s'.candIdx + 1 } := by
  obtain ⟨hrest, hcand, hnone, hbest⟩ := h
  have hother : s.wayPartIndex[k]? ≠ some part := by
    rw [hq]
    exact fun heq => hne (Option.some.inj heq)
  refine ⟨by rw [hrest], by rw [hcand], fun hb way hway => ?_, fun id hid => ?_⟩
  · rcases Nat.lt_succ_iff_lt_or_eq.mp hway with hway | rfl
    · exact hnone hb way hway
    · exact hother
  · refine ⟨(hbest id hid).1, fun way hway hpart => ?_⟩
    rcases Nat.lt_succ_iff_lt_or_eq.mp hway with hway | rfl
    · exact (hbest id hid).2 way hway hpart
    · exact absurd hpart hother

/-- A candidate in one of the partition's ways is compared with the best so far. -/
theorem Ranked.compare (h : s.Ranked part set k s') (hmode : s'.testMode = false)
    (hq : s.wayPartIndex[k]? = some part) {line : ℕ} (hline : line = set * s.ways.toNat + k) :
    s.Ranked part set (k + 1)
      { s' with candIdx := s'.candIdx + 1, bestId := some (s'.bestWith line) } := by
  obtain ⟨hrest, hcand, hnone, hbest⟩ := h
  refine ⟨by rw [hrest], by rw [hcand], fun hn => (nomatch hn), fun id hid => ?_⟩
  obtain rfl := Option.some.inj hid
  change s.InWays part set (s'.bestWith line) ∧ ∀ way < k + 1, s.wayPartIndex[way]? = some part →
    s'.beats (s.array (set * s.ways.toNat + way)) (s.array (s'.bestWith line)) = false
  have harray : s'.array = s.array := by rw [hrest]
  have hself := @not_beats_self s' (s.array line) hmode
  have hin : s.InWays part set line := ⟨k, hq, hline⟩
  unfold bestWith
  rw [harray]
  cases hbs : s'.bestId with
  | none =>
    refine ⟨hin, fun way hway hpart => ?_⟩
    rcases Nat.lt_succ_iff_lt_or_eq.mp hway with hway | rfl
    · exact absurd hpart (hnone hbs way hway)
    · rwa [← hline]
  | some b =>
    obtain ⟨hinb, hall⟩ := hbest b hbs
    dsimp only
    cases hbeats : s'.beats (s.array line) (s.array b) with
    | true =>
      rw [if_pos rfl]
      refine ⟨hin, fun way hway hpart => ?_⟩
      rcases Nat.lt_succ_iff_lt_or_eq.mp hway with hway | rfl
      · exact not_beats_trans hmode (hall way hway hpart) hbeats
      · rwa [← hline]
    | false =>
      rw [if_neg Bool.false_ne_true]
      refine ⟨hinb, fun way hway hpart => ?_⟩
      rcases Nat.lt_succ_iff_lt_or_eq.mp hway with hway | rfl
      · exact hall way hway hpart
      · rwa [← hline]

theorem recordCandidate_spec (hmode : s.testMode = false) (h : s.Ranked part set k s')
    (hk : k < s.ways.toNat) (hindex : s.wayPartIndex.length = s.ways.toNat)
    (hid : set * s.ways.toNat + k < s.totalSize.toNat) :
    ∃ s1, s'.recordCandidate (set * s.ways.toNat + k) = some s1 ∧
      s.Ranked part set (k + 1) s1 := by
  have hrest := h.rest
  have hways : s'.ways = s.ways := by rw [hrest]
  have hsize : s'.totalSize = s.totalSize := by rw [hrest]
  have hpart : s'.incomingLinePart = part := by rw [hrest]
  have hmode' : s'.testMode = false := by rw [hrest]; exact hmode
  have hlt : k < s.wayPartIndex.length := by omega
  have hwpi : s'.wayPartIndex[s'.candIdx]? = some s.wayPartIndex[k] := by
    rw [h.candIdx, hrest]
    exact List.getElem?_eq_getElem hlt
  have hk' : s'.candIdx < s'.ways.toNat ∧
      set * s.ways.toNat + k < s'.totalSize.toNat := by
    rw [h.candIdx, hways, hsize]
    exact ⟨hk, hid⟩
  refine ⟨_, by rw [recordCandidate, if_pos hk', hwpi, Option.map_some], ?_⟩
  have hq : s.wayPartIndex[k]? = some s.wayPartIndex[k] := List.getElem?_eq_getElem hlt
  by_cases heq : s.wayPartIndex[k] = part
  · rw [if_pos (.inr (heq.trans hpart.symm))]
    exact h.compare hmode' (hq.trans (congrArg some heq)) rfl
  · rw [if_neg (by simp [hmode', hpart, heq])]
    exact h.skip hq heq

theorem records_spec (hmode : s.testMode = false) (hindex : s.wayPartIndex.length = s.ways.toNat)
    (hset : (set + 1) * s.ways.toNat ≤ s.totalSize.toNat) (h : s.Ranked part set k s')
    (hn : k + n = s.ways.toNat) :
    ∃ s1, (List.range' (set * s.ways.toNat + k) n).foldlM recordCandidate s' = some s1 ∧
      s.Ranked part set s.ways.toNat s1 := by
  induction n generalizing k s' with
  | zero =>
    obtain rfl : k = s.ways.toNat := hn
    exact ⟨s', rfl, h⟩
  | succ n ih =>
    have hroom : set * s.ways.toNat + k < s.totalSize.toNat := by
      rw [Nat.add_mul, Nat.one_mul] at hset
      omega
    obtain ⟨s1, hs1, h1⟩ := recordCandidate_spec hmode h (by omega) hindex hroom
    obtain ⟨s2, hs2, h2⟩ := ih h1 (by omega)
    refine ⟨s2, ?_, h2⟩
    rw [List.range'_succ, List.foldlM_cons, hs1]
    exact hs2

theorem rank_spec (hready : s.Ready) (hmode : s.testMode = false) (hpart : part < s.partitions)
    (hset : (set + 1) * s.ways.toNat ≤ s.totalSize.toNat) (addr : ℕ) :
    ∃ id s', s.rank part addr (setCands s.ways.toNat set) = some (id, s') ∧
      s.IsVictim part set id ∧ s'.bestId = some id ∧ s.Ranked part set s.ways.toNat s' := by
  have hstart : s.Ranked part set 0 { s with incomingLinePart := part, incomingLineAddr := addr } :=
    ⟨rfl, hready.candIdx, fun _ way hway => absurd hway (Nat.not_lt_zero way),
      fun id hid => (nomatch hready.bestId.symm.trans hid)⟩
  obtain ⟨s1, hs1, h1⟩ := records_spec hmode hready.index hset hstart (Nat.zero_add _)
  obtain ⟨id, hid⟩ : ∃ id, s1.bestId = some id := by
    cases hb : s1.bestId with
    | some id => exact ⟨id, rfl⟩
    | none =>
      obtain ⟨way, hway, heq⟩ := List.getElem_of_mem (hready.owns part hpart)
      refine absurd ?_ (h1.noWay hb way (by rwa [← hready.index]))
      rw [List.getElem?_eq_getElem hway, heq]
  refine ⟨id, s1, ?_, ?_, hid, h1⟩
  · rw [rank, startReplacement, if_pos ⟨hready.candIdx, hready.bestId⟩, Option.bind_some, setCands]
    rw [Nat.add_zero] at hs1
    rw [hs1, Option.bind_some, hid, Option.map_some]
  · obtain ⟨hin, hall⟩ := h1.isBest id hid
    have hmode1 : s1.testMode = false := by rw [h1.rest]; exact hmode
    have hpart1 : s1.incomingLinePart = part := by rw [h1.rest]
    have hleast : ∀ c, s.InWays part set c →
        ¬(((s.array c).p ≠ part ∧ (s.array id).p = part) ∨
          (((s.array c).p = part ↔ (s.array id).p = part) ∧ (s.array c).ts < (s.array id).ts)) := by
      rintro c ⟨way, hway, rfl⟩
      have hlt : way < s.ways.toNat := by
        rw [← hready.index]
        exact (List.getElem?_eq_some_iff.mp hway).1
      have hnot := hall way hlt hway
      rw [← Bool.not_eq_true, beats_iff hmode1, hpart1] at hnot
      exact hnot
    refine ⟨hin, ?_⟩
    by_cases hown : (s.array id).p = part
    · right
      have hothers : ∀ c, s.InWays part set c → (s.array c).p = part := by
        intro c hc
        by_contra hne
        exact hleast c hc (.inl ⟨hne, hown⟩)
      refine ⟨hothers, fun c hc => ?_⟩
      by_contra hlt
      exact hleast c hc (.inr ⟨iff_of_true (hothers c hc) hown, Nat.lt_of_not_le hlt⟩)
    · left
      refine ⟨hown, fun c hc hne => ?_⟩
      by_contra hlt
      exact hleast c hc (.inr ⟨iff_of_false hne hown, Nat.lt_of_not_le hlt⟩)

/-! ### Lines that change their partition -/

/-- What a call does that gives line `id` to partition `q`. -/
structure Gives (s : WayPartRepl) (id q : ℕ) (s' : WayPartRepl) : Prop where
  policy : s'.toWayPartReplPolicy = s.toWayPartReplPolicy
  testMode : s'.testMode = s.testMode
  incomingLinePart : s'.incomingLinePart = s.incomingLinePart
  others : ∀ i, i ≠ id → (s'.array i).p = (s.array i).p
  line : (s'.array id).p = q
  size : s'.size = inc (dec s.size (s.array id).p) q
  underflow : s.size (s.array id).p ≠ 0 → s'.underflow = s.underflow

theorem takeLine_gives (s : WayPartRepl) (id : ℕ) :
    s.Gives id s.incomingLinePart (s.takeLine id) ∧ (s.takeLine id).bestId = s.bestId := by
  unfold takeLine
  dsimp only
  have hothers : ∀ i, i ≠ id → ∀ v : WayPartInfo, (Function.update s.array id v i).p =
      (s.array i).p := fun i hi v => by rw [update_of_ne hi]
  by_cases heq : (s.array id).p = s.incomingLinePart
  · rw [if_pos heq]
    refine ⟨⟨rfl, rfl, rfl, fun i hi => hothers i hi _, by simp, ?_, fun _ => rfl⟩, rfl⟩
    rw [heq, inc_dec_self]
  · rw [if_neg heq]
    refine ⟨⟨rfl, rfl, rfl, fun i hi => hothers i hi _, by simp, rfl, fun hne => ?_⟩, rfl⟩
    simp [hne]

/-- A hit leaves the line to its partition, and the update of an empty line gives it to that of the
incoming line. -/
theorem update_spec (hid : id < s.totalSize.toNat) :
    ∃ s', s.update id = some s' ∧ s'.bestId = s.bestId ∧
      s.Gives id (if 0 < (s.array id).ts then (s.array id).p else s.incomingLinePart) s' := by
  unfold update
  rw [if_pos hid]
  refine ⟨_, rfl, ?_⟩
  have hstamp : ∀ (array : ℕ → WayPartInfo) (v : ℕ) (i : ℕ),
      (Function.update array id { array id with ts := v } i).p = (array i).p := by
    intro array v i
    by_cases hi : i = id
    · rw [hi, update_self]
    · rw [update_of_ne hi]
  by_cases hts : 0 < (s.array id).ts
  · rw [if_pos hts, if_pos hts]
    exact ⟨rfl, rfl, rfl, rfl, fun i _ => hstamp _ _ i, hstamp _ _ id, (inc_dec_self _ _).symm,
      fun _ => rfl⟩
  · rw [if_neg hts, if_neg hts]
    obtain ⟨⟨h1, hmode, h2, h3, h4, h5, h6⟩, h7⟩ := takeLine_gives s id
    exact ⟨h7, h1, hmode, h2, fun i hi => (hstamp _ _ i).trans (h3 i hi), (hstamp _ _ id).trans h4,
      h5, h6⟩

theorem replaced_spec (hid : id < s.totalSize.toNat) :
    ∃ s', s.replaced id = some s' ∧ s'.toWayPartReplPolicy = s.toWayPartReplPolicy ∧
      s'.testMode = s.testMode ∧ s'.incomingLinePart = s.incomingLinePart ∧
      s'.size = s.size ∧ s'.underflow = s.underflow ∧
      s'.bestId = none ∧ (s'.array id).ts = 0 ∧ ∀ i, (s'.array i).p = (s.array i).p := by
  unfold replaced
  rw [if_pos hid]
  refine ⟨_, rfl, rfl, rfl, rfl, rfl, rfl, rfl, by simp, fun i => ?_⟩
  by_cases hi : i = id
  · simp [hi]
  · simp [hi]

theorem insert_spec (hid : id < s.totalSize.toNat) :
    ∃ s', (s.replaced id).bind (update id) = some s' ∧ s'.bestId = none ∧
      s.Gives id s.incomingLinePart s' := by
  obtain ⟨s1, hs1, hpolicy, hmode, hincoming, hsize, hunder, hbest, hts, hp⟩ := replaced_spec hid
  obtain ⟨s', hs', hbest', h1, hmode', h2, h3, h4, h5, h6⟩ :=
    @update_spec s1 id (by rwa [hpolicy])
  rw [if_neg (by omega), hincoming] at h4 h5
  rw [hp, hsize] at h5 h6
  refine ⟨s', by rw [hs1]; exact hs', hbest'.trans hbest, h1.trans hpolicy,
    hmode'.trans hmode, h2.trans hincoming, fun i hi => (h3 i hi).trans (hp i), h4, h5,
      fun hne => (h6 hne).trans hunder⟩

/-! ### The sizes of the partitions -/

/-- The counters are the numbers of lines, and none has wrapped. -/
structure Counted (s : WayPartRepl) : Prop where
  counts : Counts s.totalSize.toNat s.partitions s.size fun i => (s.array i).p
  lines : ∀ i < s.totalSize.toNat, (s.array i).p < s.partitions
  incoming : s.incomingLinePart < s.partitions
  underflow : s.underflow = false

theorem Gives.counted {q : ℕ} (hs : s.Counted) (h : s.Gives id q s')
    (hid : id < s.totalSize.toNat) (hq : q < s.partitions) : s'.Counted := by
  obtain ⟨hpolicy, -, hincoming, hothers, hline, hsize, hunder⟩ := h
  have htotal : s'.totalSize = s.totalSize := by rw [hpolicy]
  have hparts : s'.partitions = s.partitions := by rw [hpolicy]
  have hn : s.totalSize.toNat < 2 ^ 63 := Nat.lt_trans s.totalSize.toNat_lt (by decide)
  constructor
  case counts =>
    rw [htotal, hparts, hsize]
    have hmove := hs.counts.move (fun i => (s'.array i).p) hn hid (hs.lines id hid)
      (by rw [hline]; exact hq) (fun i _ hi => hothers i hi)
    rwa [hline] at hmove
  case lines =>
    rw [htotal, hparts]
    intro i hi
    by_cases heq : i = id
    · rw [heq, hline]
      exact hq
    · rw [hothers i heq]
      exact hs.lines i hi
  case incoming =>
    rw [hincoming, hparts]
    exact hs.incoming
  case underflow =>
    rw [hunder (hs.counts.ne_zero hid (hs.lines id hid))]
    exact hs.underflow

theorem recordCandidate_rest (h : s.recordCandidate id = some s') :
    s' = { s with candIdx := s'.candIdx, bestId := s'.bestId } := by
  unfold recordCandidate at h
  split at h
  · obtain ⟨part, -, rfl⟩ := Option.map_eq_some_iff.mp h
    rfl
  · cases h

theorem records_rest {cands : List ℕ} (h : cands.foldlM recordCandidate s = some s') :
    s' = { s with candIdx := s'.candIdx, bestId := s'.bestId } := by
  induction cands generalizing s with
  | nil =>
    cases h
    rfl
  | cons id cands ih =>
    rw [List.foldlM_cons] at h
    obtain ⟨s1, h1, hrest⟩ := Option.bind_eq_some_iff.mp h
    rw [ih hrest, recordCandidate_rest h1]

/-- Ranking changes no line. -/
theorem rank_rest {cands : List ℕ} (h : s.rank part addr cands = some (id, s')) :
    s' = { s with
      candIdx := s'.candIdx
      bestId := some id
      incomingLinePart := part
      incomingLineAddr := addr } := by
  obtain ⟨s1, h1, hrest⟩ := Option.bind_eq_some_iff.mp h
  obtain ⟨s2, h2, hlast⟩ := Option.bind_eq_some_iff.mp hrest
  obtain ⟨id', hid, heq⟩ := Option.map_eq_some_iff.mp hlast
  obtain ⟨rfl, rfl⟩ := Prod.mk.inj heq
  unfold startReplacement at h1
  split at h1
  · obtain rfl := Option.some.inj h1
    have hall := records_rest h2
    rw [hid] at hall
    exact hall
  · cases h1

theorem assignWays_rest {waysPart : List ℕ} {n p curWay curWay' : ℕ}
    {repl repl' : WayPartReplPolicy}
    (h : WayPartReplPolicy.assignWays waysPart n p curWay repl = some (curWay', repl')) :
    repl'.partitions = repl.partitions ∧ repl'.totalSize = repl.totalSize ∧
      repl'.ways = repl.ways := by
  induction n generalizing p curWay repl with
  | zero =>
    cases h
    exact ⟨rfl, rfl, rfl⟩
  | succ n ih =>
    obtain ⟨ways, -, hrest⟩ := Option.bind_eq_some_iff.mp h
    obtain ⟨⟨curWay1, wayPartIndex⟩, -, hlast⟩ := Option.bind_eq_some_iff.mp hrest
    obtain ⟨hparts, htotal, hways⟩ := ih hlast
    exact ⟨hparts, htotal, hways⟩

theorem setPartitionSizes_rest {waysPart : List ℕ} (h : s.setPartitionSizes waysPart = some s') :
    s' = { s with toWayPartReplPolicy := s'.toWayPartReplPolicy } ∧
      s'.partitions = s.partitions ∧ s'.totalSize = s.totalSize := by
  obtain ⟨repl, hrepl, rfl⟩ := Option.map_eq_some_iff.mp h
  obtain ⟨⟨curWay, repl'⟩, hassign, hlast⟩ := Option.bind_eq_some_iff.mp hrepl
  dsimp only at hlast
  split at hlast
  · obtain rfl := Option.some.inj hlast
    obtain ⟨h1, h2, -⟩ := assignWays_rest hassign
    exact ⟨rfl, h1, h2⟩
  · cases hlast

/-- The partition of a request is one that the mapper knows. -/
def Mapped : WayPartOp → WayPartRepl → Prop
  | .rank part _ _, s => part < s.partitions
  | _, _ => True

instance : ∀ (op : WayPartOp) (s : WayPartRepl), Decidable (Mapped op s)
  | .rank part _ _, s => inferInstanceAs (Decidable (part < s.partitions))
  | .update _, _ | .insert _, _ | .setPartitionSizes _, _ => isTrue trivial

theorem lt_of_update {s' : WayPartRepl} (h : s.update id = some s') :
    id < s.totalSize.toNat := by
  by_contra hid
  rw [update, if_neg hid] at h
  cases h

theorem step_counted (op : WayPartOp) (s s' : WayPartRepl) (hs : s.Counted) (hop : Mapped op s)
    (h : step op s = some s') : s'.Counted := by
  cases op with
  | update id =>
    have hid := lt_of_update h
    obtain ⟨s1, hs1, -, hgives⟩ := update_spec hid
    obtain rfl := Option.some.inj (hs1.symm.trans h)
    refine hgives.counted hs hid ?_
    split
    · exact hs.lines id hid
    · exact hs.incoming
  | rank part addr cands =>
    obtain ⟨⟨id, s1⟩, hrank, rfl⟩ := Option.map_eq_some_iff.mp h
    rw [rank_rest hrank]
    exact ⟨hs.counts, hs.lines, hop, hs.underflow⟩
  | insert id =>
    have hid : id < s.totalSize.toNat := by
      by_contra hid
      rw [step, replaced, if_neg hid] at h
      cases h
    obtain ⟨s1, hs1, -, hgives⟩ := insert_spec hid
    obtain rfl := Option.some.inj (hs1.symm.trans h)
    exact hgives.counted hs hid hs.incoming
  | setPartitionSizes waysPart =>
    obtain ⟨hrest, hparts, htotal⟩ := setPartitionSizes_rest h
    have hcounts := hs.counts
    have hlines := hs.lines
    have hincoming := hs.incoming
    rw [← htotal, ← hparts] at hcounts
    rw [← htotal, ← hparts] at hlines
    rw [← hparts] at hincoming
    rw [hrest]
    exact ⟨hcounts, hlines, hincoming, hs.underflow⟩

theorem start_counted {partitions : ℕ} {totalSize ways : UInt32} {testMode : Bool}
    (hpos : 0 < partitions) (h : start partitions totalSize ways testMode = some s) :
    s.Counted := by
  unfold start at h
  dsimp only at h
  split at h
  · obtain rfl := Option.some.inj h
    exact ⟨counts_const (Nat.lt_trans totalSize.toNat_lt (by decide)) 0, fun _ _ => hpos, hpos, rfl⟩
  · cases h

end WayPartRepl

end Doppelganger.Part
