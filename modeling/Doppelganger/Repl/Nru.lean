import Doppelganger.Lib.Run
import Doppelganger.Lib.Tally

/-! `NRUReplPolicy` of `repl_policies.h`, the 2-bit policy that ages all lines when half of them are
young.  `update` keeps `youngLines` in step with the array; `replaced` clears an entry and leaves
`youngLines` as it is, so the two agree as long as no replaced line is young. -/

namespace Doppelganger.Repl

open Lib Function

/-- `array` and `youngLines` hold `uint32_t`s; `candArray` is its first `candIdx` entries. -/
structure NRUReplPolicy where
  numLines : UInt32
  numCands : UInt32
  array : ℕ → UInt32
  candArray : List ℕ
  youngLines : UInt32
  candVal : UInt32

/-- What the cache array calls; `rank` records its candidates and then takes the best. -/
inductive NruOp
  | update (id : ℕ)
  | rank (cands : List ℕ)
  | replaced (id : ℕ)
deriving DecidableEq, Repr

namespace NRUReplPolicy

def start (numLines numCands : UInt32) : NRUReplPolicy :=
  ⟨numLines, numCands, fun _ => 0, [], 0, (1 : UInt32) <<< 20⟩

/-- `for (uint32_t i = 0; i < numLines; i++) array[i] >>= 1;` -/
def shifted (numLines : UInt32) (array : ℕ → UInt32) (i : ℕ) : UInt32 :=
  if i < numLines.toNat then array i >>> 1 else array i

def update (id : ℕ) (s : NRUReplPolicy) : Option NRUReplPolicy :=
  if id < s.numLines.toNat then
    let youngLines := s.youngLines + ((1 : UInt32) - s.array id >>> 1)
    let array := Function.update s.array id (s.array id ||| 2)
    some (if s.numLines / 2 ≤ youngLines then
      { s with array := shifted s.numLines array, youngLines := 0 }
    else { s with array := array, youngLines := youngLines })
  else none

def recordCandidate (s : NRUReplPolicy) (id : ℕ) : Option NRUReplPolicy :=
  if id < s.numLines.toNat then
    if s.array id < s.candVal then
      if 0 < s.numCands then some { s with candVal := s.array id, candArray := [id] } else none
    else if s.array id = s.candVal then
      if s.candArray.length < s.numCands.toNat then
        some { s with candArray := s.candArray ++ [id] }
      else none
    else some s
  else none

/-- `assert(candIdx > 0)` is the failure. -/
def getBestCandidate (s : NRUReplPolicy) : Option ℕ :=
  s.candArray[s.youngLines.toNat % s.candArray.length]?

def rank (cands : List ℕ) (s : NRUReplPolicy) : Option (ℕ × NRUReplPolicy) :=
  (cands.foldlM recordCandidate s).bind fun s' => s'.getBestCandidate.map fun id => (id, s')

def replaced (id : ℕ) (s : NRUReplPolicy) : Option NRUReplPolicy :=
  if id < s.numLines.toNat then
    some { s with candVal := (1 : UInt32) <<< 20, candArray := [],
                  array := Function.update s.array id 0 }
  else none

def step : NruOp → NRUReplPolicy → Option NRUReplPolicy
  | .update id, s => s.update id
  | .rank cands, s => (s.rank cands).map Prod.snd
  | .replaced id, s => s.replaced id

/-- The candidates that the array offers: some of its lines, no more than `numCands`. -/
structure Offered (s : NRUReplPolicy) (cands : List ℕ) : Prop where
  some : cands ≠ []
  length : cands.length ≤ s.numCands.toNat
  lines : ∀ id ∈ cands, id < s.numLines.toNat

instance (s : NRUReplPolicy) (cands : List ℕ) : Decidable (s.Offered cands) :=
  decidable_of_iff (cands ≠ [] ∧ cands.length ≤ s.numCands.toNat ∧
    ∀ id ∈ cands, id < s.numLines.toNat) ⟨fun h => ⟨h.1, h.2.1, h.2.2⟩, fun h => ⟨h.1, h.2, h.3⟩⟩

/-- Calls are about lines of the cache, and each `rank` comes after the `replaced` of the one
before. -/
def Allowed : NruOp → NRUReplPolicy → Prop
  | .update id, s => id < s.numLines.toNat
  | .rank cands, s => s.Offered cands ∧ s.candArray = []
  | .replaced id, s => id < s.numLines.toNat

instance : ∀ (op : NruOp) (s : NRUReplPolicy), Decidable (Allowed op s)
  | .update id, s | .replaced id, s => inferInstanceAs (Decidable (id < s.numLines.toNat))
  | .rank cands, s => inferInstanceAs (Decidable (s.Offered cands ∧ s.candArray = []))

/-- The young bit, `0x2`. -/
def young (v : UInt32) : Bool := v &&& 2 != 0

/-- The number of lines whose young bit is set. -/
def youngCount (s : NRUReplPolicy) : ℕ :=
  tally s.numLines.toNat (fun id => young (s.array id)) true

/-- The line is of the least state among those of `cands`. -/
def IsLeast (s : NRUReplPolicy) (cands : List ℕ) (id : ℕ) : Prop :=
  id ∈ cands ∧ ∀ c ∈ cands, s.array id ≤ s.array c

structure Sound (s : NRUReplPolicy) : Prop where
  youngLines : s.youngLines.toNat = s.youngCount
  half : s.youngLines < s.numLines / 2
  entries : ∀ id < s.numLines.toNat, s.array id ≤ 3
  victim : ∀ cands, s.Offered cands → s.candArray = [] →
    ∃ id s', s.rank cands = some (id, s') ∧ s.IsLeast cands id

/-! ### Entries -/

theorem entry_cases {v : UInt32} (h : v ≤ 3) : v = 0 ∨ v = 1 ∨ v = 2 ∨ v = 3 := by
  have hle : v.toNat ≤ 3 := UInt32.le_iff_toNat_le.mp h
  simp only [← UInt32.toNat_inj]
  change v.toNat = 0 ∨ v.toNat = 1 ∨ v.toNat = 2 ∨ v.toNat = 3
  omega

theorem touched_le {v : UInt32} (h : v ≤ 3) : v ||| 2 ≤ 3 := by
  rcases entry_cases h with rfl | rfl | rfl | rfl <;> decide

theorem young_touched {v : UInt32} (h : v ≤ 3) : young (v ||| 2) = true := by
  rcases entry_cases h with rfl | rfl | rfl | rfl <;> decide

/-- `+0 if young, +1 if old`. -/
theorem growth {v : UInt32} (h : v ≤ 3) :
    ((1 : UInt32) - v >>> 1).toNat + (if young v = true then 1 else 0) = 1 := by
  rcases entry_cases h with rfl | rfl | rfl | rfl <;> decide

theorem aged_le {v : UInt32} (h : v ≤ 3) : v >>> 1 ≤ 3 := by
  rcases entry_cases h with rfl | rfl | rfl | rfl <;> decide

theorem young_aged {v : UInt32} (h : v ≤ 3) : young (v >>> 1) = false := by
  rcases entry_cases h with rfl | rfl | rfl | rfl <;> decide

theorem shifted_lt {numLines : UInt32} {array : ℕ → UInt32} {id : ℕ}
    (h : id < numLines.toNat) : shifted numLines array id = array id >>> 1 :=
  if_pos h

/-! ### The invariant of all runs -/

structure Wf (s : NRUReplPolicy) : Prop where
  entries : ∀ id < s.numLines.toNat, s.array id ≤ 3
  fresh : s.candArray = [] → s.candVal = (1 : UInt32) <<< 20

/-- What the lines that are replaced while they are young break. -/
structure Counts (s : NRUReplPolicy) : Prop where
  youngLines : s.youngLines.toNat = s.youngCount
  half : s.youngLines < s.numLines / 2

variable {s s' : NRUReplPolicy} {id : ℕ} {cands seen : List ℕ}

theorem Wf.touched (h : s.Wf) (hid : id < s.numLines.toNat) :
    ∀ i < s.numLines.toNat, Function.update s.array id (s.array id ||| 2) i ≤ 3 := by
  intro i hi
  by_cases heq : i = id
  · rw [heq, update_self]
    exact touched_le (h.entries id hid)
  · rw [update_of_ne heq]
    exact h.entries i hi

/-- A touched line becomes young, unless it was. -/
theorem Counts.touched (h : s.Counts) (hs : s.Wf) (hid : id < s.numLines.toNat) :
    (s.youngLines + ((1 : UInt32) - s.array id >>> 1)).toNat = tally s.numLines.toNat
      (fun i => young (Function.update s.array id (s.array id ||| 2) i)) true := by
  have hentry := hs.entries id hid
  have hchanged := tally_update hid young s.array (s.array id ||| 2) true
  rw [if_pos (young_touched hentry)] at hchanged
  have hgrowth := growth hentry
  have hold : s.youngLines.toNat =
      tally s.numLines.toNat (fun i => young (s.array i)) true := h.youngLines
  have hle := tally_le s.numLines.toNat
    (fun i => young (Function.update s.array id (s.array id ||| 2) i)) true
  have hsize := s.numLines.toNat_lt
  rw [UInt32.toNat_add, Nat.mod_eq_of_lt (by omega)]
  omega

/-- After the shift no line is young. -/
theorem tally_shifted {numLines : UInt32} {array : ℕ → UInt32}
    (h : ∀ i < numLines.toNat, array i ≤ 3) :
    tally numLines.toNat (fun i => young (shifted numLines array i)) true = 0 := by
  apply tally_none
  intro i hi
  rw [shifted_lt hi, young_aged (h i hi)]
  exact Bool.false_ne_true

theorem update_spec (h : s.Wf) (hid : id < s.numLines.toNat) :
    ∃ s', s.update id = some s' ∧ s'.Wf ∧ (s.Counts → s'.Counts) := by
  have htouched := h.touched hid
  unfold update
  rw [if_pos hid]
  refine ⟨_, rfl, ?_⟩
  split
  case isTrue hhalf =>
    constructor
    · refine ⟨fun i hi => ?_, h.fresh⟩
      change shifted s.numLines _ i ≤ 3
      rw [shifted_lt hi]
      exact aged_le (htouched i hi)
    · intro hcounts
      constructor
      case youngLines => exact (tally_shifted htouched).symm
      case half =>
        have := UInt32.lt_iff_toNat_lt.mp hcounts.half
        apply UInt32.lt_iff_toNat_lt.mpr
        change 0 < (s.numLines / 2).toNat
        omega
  case isFalse hhalf =>
    constructor
    · exact ⟨htouched, h.fresh⟩
    · intro hcounts
      constructor
      case youngLines => exact hcounts.touched h hid
      case half => exact UInt32.not_le.mp hhalf

theorem replaced_spec (h : s.Wf) (hid : id < s.numLines.toNat) :
    ∃ s', s.replaced id = some s' ∧ s'.Wf ∧
      (s.Counts → (s'.Counts ↔ young (s.array id) = false)) := by
  unfold replaced
  rw [if_pos hid]
  refine ⟨_, rfl, ⟨fun i hi => ?_, fun _ => rfl⟩, fun hcounts => ?_⟩
  · by_cases heq : i = id
    · simp only [heq, update_self, UInt32.zero_le]
    · simp only [update_of_ne heq]
      exact h.entries i hi
  · have hchanged := tally_update hid young s.array 0 true
    rw [show young 0 = false from rfl, if_neg Bool.false_ne_true] at hchanged
    have hold : s.youngLines.toNat = tally s.numLines.toNat (fun i => young (s.array i)) true :=
      hcounts.youngLines
    constructor
    case mp =>
      intro hcounts'
      have hnew : s.youngLines.toNat =
        tally s.numLines.toNat (fun i => young (Function.update s.array id 0 i)) true :=
          hcounts'.youngLines
      by_contra hyoung
      rw [if_pos (Bool.not_eq_false _ ▸ hyoung)] at hchanged
      omega
    case mpr =>
      intro hyoung
      rw [hyoung, if_neg Bool.false_ne_true] at hchanged
      exact ⟨hold.trans hchanged.symm, hcounts.half⟩

/-! ### Candidates -/

/-- After the candidates `seen` of state `s`, the recorded ones are those of the least state. -/
structure Recorded (s : NRUReplPolicy) (seen : List ℕ) (s' : NRUReplPolicy) : Prop where
  rest : s' = { s with candArray := s'.candArray, candVal := s'.candVal }
  length : s'.candArray.length ≤ seen.length
  fresh : s'.candArray = [] → s'.candVal = (1 : UInt32) <<< 20
  best : ∀ c ∈ s'.candArray, c ∈ seen ∧ s.array c = s'.candVal
  least : ∀ c ∈ seen, s'.candVal ≤ s.array c

theorem entry_lt {v : UInt32} (h : v ≤ 3) : v < (1 : UInt32) <<< 20 := by
  rcases entry_cases h with rfl | rfl | rfl | rfl <;> decide

theorem recordCandidate_spec (hrec : s.Recorded seen s') (hid : id < s.numLines.toNat)
    (hroom : seen.length < s.numCands.toNat) :
    ∃ s1, s'.recordCandidate id = some s1 ∧ s.Recorded (seen ++ [id]) s1 := by
  obtain ⟨hrest, hlength, hfresh, hbest, hleast⟩ := hrec
  have harray : s'.array = s.array := by rw [hrest]
  have hlines : s'.numLines = s.numLines := by rw [hrest]
  have hcands : s'.numCands = s.numCands := by rw [hrest]
  unfold recordCandidate
  rw [harray, hlines, hcands, if_pos hid]
  by_cases hlt : s.array id < s'.candVal
  · rw [if_pos hlt, if_pos (UInt32.lt_iff_toNat_lt.mpr (by exact Nat.zero_lt_of_lt hroom))]
    refine ⟨_, rfl, by rw [hrest], by simp, by simp, by simp, fun c hc => ?_⟩
    rcases List.mem_append.mp hc with hc | hc
    · exact UInt32.le_trans (UInt32.le_of_lt hlt) (hleast c hc)
    · obtain rfl := List.mem_singleton.mp hc
      exact UInt32.le_refl _
  rw [if_neg hlt]
  have hle : s'.candVal ≤ s.array id := UInt32.not_lt.mp hlt
  have hleast' : ∀ c ∈ seen ++ [id], s'.candVal ≤ s.array c := by
    intro c hc
    rcases List.mem_append.mp hc with hc | hc
    · exact hleast c hc
    · obtain rfl := List.mem_singleton.mp hc
      exact hle
  by_cases heq : s.array id = s'.candVal
  · rw [if_pos heq, if_pos (by omega)]
    refine ⟨_, rfl, by rw [hrest], by simpa using hlength, by simp, fun c hc => ?_, hleast'⟩
    rcases List.mem_append.mp hc with hc | hc
    · exact ⟨List.mem_append_left _ (hbest c hc).1, (hbest c hc).2⟩
    · obtain rfl := List.mem_singleton.mp hc
      exact ⟨by simp, heq⟩
  · rw [if_neg heq]
    refine ⟨_, rfl, hrest, ?_, hfresh, fun c hc => ?_, hleast'⟩
    · rw [List.length_append]
      omega
    · exact ⟨List.mem_append_left _ (hbest c hc).1, (hbest c hc).2⟩

theorem records_spec (hrec : s.Recorded seen s')
    (hids : ∀ id ∈ cands, id < s.numLines.toNat)
    (hroom : (seen ++ cands).length ≤ s.numCands.toNat) :
    ∃ s1, cands.foldlM recordCandidate s' = some s1 ∧ s.Recorded (seen ++ cands) s1 := by
  induction cands generalizing seen s' with
  | nil => exact ⟨s', rfl, by rwa [List.append_nil]⟩
  | cons id cands ih =>
    rw [List.length_append, List.length_cons] at hroom
    obtain ⟨s1, hs1, hrec1⟩ := recordCandidate_spec hrec (hids id List.mem_cons_self)
      (by omega)
    obtain ⟨s2, hs2, hrec2⟩ := ih hrec1 (fun i hi => hids i (List.mem_cons_of_mem _ hi))
      (by simp only [List.length_append, List.length_cons, List.length_nil]; omega)
    refine ⟨s2, ?_, ?_⟩
    · rw [List.foldlM_cons, hs1]
      exact hs2
    · rwa [List.append_assoc] at hrec2

/-- Right after a replacement, the best of the candidates is one of the least state. -/
theorem rank_spec (h : s.Wf) (hoffered : s.Offered cands) (hempty : s.candArray = []) :
    ∃ id s', s.rank cands = some (id, s') ∧ s.IsLeast cands id ∧ s'.Wf ∧
      (s'.Counts ↔ s.Counts) := by
  have hstart : s.Recorded [] s :=
    ⟨rfl, by rw [hempty], h.fresh, by simp [hempty], fun c hc => absurd hc List.not_mem_nil⟩
  obtain ⟨s1, hs1, hrest, hlength, hfresh, hbest, hleast⟩ :=
    records_spec hstart hoffered.lines hoffered.length
  have hsome : 0 < s1.candArray.length := by
    by_contra hnone
    obtain ⟨c, rest, hc⟩ := List.exists_cons_of_ne_nil hoffered.some
    have hmem : c ∈ cands := hc ▸ List.mem_cons_self
    have hle := hleast c hmem
    rw [hfresh (List.eq_nil_of_length_eq_zero (by omega))] at hle
    exact UInt32.not_le.mpr (entry_lt (h.entries c (hoffered.lines c hmem))) hle
  have hlt := Nat.mod_lt s1.youngLines.toNat hsome
  obtain ⟨hmem, hval⟩ := hbest _ (List.getElem_mem hlt)
  refine ⟨s1.candArray[s1.youngLines.toNat % s1.candArray.length], s1, ?_, ⟨hmem, ?_⟩, ⟨?_, hfresh⟩,
    ?_⟩
  · rw [rank, hs1, Option.bind_some, getBestCandidate, List.getElem?_eq_getElem hlt,
      Option.map_some]
  · intro c hc
    rw [hval]
    exact hleast c hc
  · rw [hrest]
    exact h.entries
  · rw [hrest]
    exact ⟨fun hc => ⟨hc.youngLines, hc.half⟩, fun hc => ⟨hc.youngLines, hc.half⟩⟩

/-! ### Runs -/

theorem sound_iff (h : s.Wf) : s.Sound ↔ s.Counts := by
  constructor
  case mp => exact fun hs => ⟨hs.youngLines, hs.half⟩
  case mpr =>
    intro hc
    refine ⟨hc.youngLines, hc.half, h.entries, fun cands hoffered hempty => ?_⟩
    obtain ⟨id, s', hs', hleast, -⟩ := rank_spec h hoffered hempty
    exact ⟨id, s', hs', hleast⟩

/-- A replaced line is not young. -/
def SparesYoung : NruOp → NRUReplPolicy → Prop
  | .replaced id, s => young (s.array id) = false
  | _, _ => True

theorem step_spec (op : NruOp) (s : NRUReplPolicy) (h : s.Wf) (hs : s.Sound) (hop : Allowed op s) :
    ∃ s', step op s = some s' ∧ s'.Wf ∧ (s'.Sound ↔ SparesYoung op s) := by
  have hcounts := (sound_iff h).mp hs
  cases op with
  | update id =>
    obtain ⟨s', hs', h', hkeeps⟩ := update_spec h hop
    exact ⟨s', hs', h', iff_of_true ((sound_iff h').mpr (hkeeps hcounts)) trivial⟩
  | rank cands =>
    obtain ⟨id, s', hs', -, h', hsame⟩ := rank_spec h hop.1 hop.2
    refine ⟨s', ?_, h', iff_of_true ((sound_iff h').mpr (hsame.mpr hcounts)) trivial⟩
    rw [step, hs', Option.map_some]
  | replaced id =>
    obtain ⟨s', hs', h', hiff⟩ := replaced_spec h hop
    exact ⟨s', hs', h', (sound_iff h').trans (hiff hcounts)⟩

variable {numLines numCands : UInt32}

theorem start_wf : (start numLines numCands).Wf :=
  ⟨fun _ _ => (show (0 : UInt32) ≤ 3 by decide), fun _ => rfl⟩

theorem start_sound_iff : (start numLines numCands).Sound ↔ 2 ≤ numLines := by
  rw [sound_iff start_wf]
  have hhalf : 0 < numLines / 2 ↔ 2 ≤ numLines := by
    rw [UInt32.lt_iff_toNat_lt, UInt32.le_iff_toNat_le, UInt32.toNat_div]
    change 0 < numLines.toNat / 2 ↔ 2 ≤ numLines.toNat
    omega
  constructor
  case mp => exact fun hc => hhalf.mp hc.half
  case mpr =>
    intro hle
    refine ⟨?_, hhalf.mpr hle⟩
    exact (tally_const_ne numLines.toNat (show young 0 ≠ true by decide)).symm

/-- The count of young lines and the rest of the invariant hold all along a run exactly when there
are two lines or more and no replaced line is young. -/
theorem sound_iff_spares_young (numLines numCands : UInt32) (ops : List NruOp)
    (hops : Along step Allowed ops (start numLines numCands)) :
    Always step Sound ops (start numLines numCands) ↔
      2 ≤ numLines ∧ Along step SparesYoung ops (start numLines numCands) := by
  have hruns : (start numLines numCands).Sound → (Always step Sound ops (start numLines numCands) ↔
      Along step SparesYoung ops (start numLines numCands)) :=
    fun hs => always_iff_along (fun op s h hs hop => .inr (step_spec op s h hs hop)) ops start_wf
      hs hops
  constructor
  case mp =>
    intro hall
    exact ⟨start_sound_iff.mp hall.head, (hruns hall.head).mp hall⟩
  case mpr =>
    rintro ⟨htwo, hspares⟩
    exact (hruns (start_sound_iff.mpr htwo)).mpr hspares

/-- Three misses in one set of two lines. -/
def replacesYoung : List NruOp :=
  [.rank [0, 1], .replaced 0, .update 0, .rank [0, 1], .replaced 1, .update 1, .rank [0, 1],
    .replaced 0]

/-- The line that the third miss replaces still counts as young. -/
theorem replacing_young_miscounts :
    Along step Allowed replacesYoung (start 8 2) ∧
      ¬Always step Sound replacesYoung (start 8 2) := by
  constructor
  · decide +kernel
  · intro hall
    have hlast : (run step replacesYoung (start 8 2)).map
        (fun s => (s.youngLines.toNat, s.youngCount)) = some (2, 1) := by decide +kernel
    obtain ⟨s, hrun, hs⟩ := Option.map_eq_some_iff.mp hlast
    obtain ⟨hyoung, hcount⟩ := Prod.mk.inj hs
    have hsame := (hall.last hrun).youngLines
    omega

theorem sound_iff_spares_young_sample :
    Always step Sound [.update 0, .update 1, .rank [2, 3], .replaced 2] (start 8 2) ↔
      2 ≤ (8 : UInt32) ∧
        Along step SparesYoung [.update 0, .update 1, .rank [2, 3], .replaced 2] (start 8 2) :=
  sound_iff_spares_young 8 2 _ (by decide +kernel)

end NRUReplPolicy

end Doppelganger.Repl
