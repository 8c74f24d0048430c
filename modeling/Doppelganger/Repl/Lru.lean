import Mathlib.Algebra.Order.Group.Nat
import Mathlib.Data.List.Induction
import Mathlib.Tactic.Push

/-! The three LRU policies of `repl_policies.h`.  `rank` compares the low halves of the scores, so
it ranks by score as long as these are in the order of the scores; then it takes the candidate whose
last update is oldest, and empty candidates first. -/

namespace Doppelganger.Repl

/-- A `uint64_t`. -/
def uint64 (n : Nat) : Nat := n % 2 ^ 64

def uint32 (n : Nat) : Nat := n % 2 ^ 32

/-- What `score` asks the coherence controller. -/
structure Cc where
  numSharers : Nat → Nat
  isValid : Nat → Bool

structure Lru where
  timestamp : Nat
  array : Nat → Nat

inductive Op
  | update (id : Nat)
  | replaced (id : Nat)
deriving DecidableEq, Repr

namespace Lru

def start : Lru := ⟨1, fun _ => 0⟩

def update (id : Nat) (s : Lru) : Lru :=
  ⟨uint64 (s.timestamp + 1), fun i => if i = id then s.timestamp else s.array i⟩

def replaced (id : Nat) (s : Lru) : Lru :=
  ⟨s.timestamp, fun i => if i = id then 0 else s.array i⟩

def step (s : Lru) : Op → Lru
  | .update id => s.update id
  | .replaced id => s.replaced id

/-- The state after a history. -/
def after (ops : List Op) : Lru := ops.foldl step start

/-- The score before it wraps, of a line whose timestamp counts when `counts` says so. -/
def fullScore (sharersAware counts : Bool) (cc : Cc) (s : Lru) (id : Nat) : Nat :=
  (if sharersAware then cc.numSharers id else 0) * s.timestamp + s.array id * counts.toNat

end Lru

/-- The three copies of the policy. -/
inductive Policy
  | LRUReplPolicy
  | LRUReplPolicy_DPG_t
  | LRUReplPolicy_DPG_d
deriving DecidableEq, Repr

namespace Policy

/-- Whether the timestamp counts in the score; in the controller, the lines of the tag array come
after `numLines` others. -/
def counts (numLines : Nat) (cc : Cc) (id : Nat) : Policy → Bool
  | .LRUReplPolicy => cc.isValid id
  | .LRUReplPolicy_DPG_t => cc.isValid (uint32 (id + numLines))
  | .LRUReplPolicy_DPG_d => true

def fullScore (p : Policy) (sharersAware : Bool) (numLines : Nat) (cc : Cc) (s : Lru) (id : Nat) :
    Nat :=
  s.fullScore sharersAware (p.counts numLines cc id) cc id

def score (p : Policy) (sharersAware : Bool) (numLines : Nat) (cc : Cc) (s : Lru) (id : Nat) :
    Nat :=
  uint64 (p.fullScore sharersAware numLines cc s id)

end Policy

/-- The loop of `rank`; `s` is a `uint32_t`. -/
def rankLoop (score : Nat → Nat) : List Nat → Nat × Nat → Nat
  | [], (bestCand, _) => bestCand
  | ci :: cands, (bestCand, bestScore) =>
    let s := uint32 (score ci)
    rankLoop score cands (if s < bestScore then ci else bestCand, min s bestScore)

def rank (score : Nat → Nat) (cands : List Nat) : Nat :=
  rankLoop score cands (2 ^ 32 - 1, 2 ^ 64 - 1)

/-! ### `rank` -/

section

variable {score : Nat → Nat} {cands : List Nat}

/-- The loop keeps the best candidate so far or takes one whose low half is not greater than any. -/
theorem rankLoop_cases (score : Nat → Nat) (cands : List Nat) (bestCand bestScore : Nat) :
    rankLoop score cands (bestCand, bestScore) = bestCand ∧
      (∀ c ∈ cands, bestScore ≤ uint32 (score c)) ∨
    rankLoop score cands (bestCand, bestScore) ∈ cands ∧
      uint32 (score (rankLoop score cands (bestCand, bestScore))) < bestScore ∧
      ∀ c ∈ cands, uint32 (score (rankLoop score cands (bestCand, bestScore))) ≤
        uint32 (score c) := by
  induction cands generalizing bestCand bestScore with
  | nil => exact .inl ⟨rfl, fun c hc => absurd hc List.not_mem_nil⟩
  | cons ci cands ih =>
    unfold rankLoop
    dsimp only
    by_cases hlt : uint32 (score ci) < bestScore
    · rw [if_pos hlt, min_eq_left hlt.le]
      right
      obtain ⟨heq, hall⟩ | ⟨hmem, hless, hall⟩ := ih ci (uint32 (score ci))
      · rw [heq]
        refine ⟨List.mem_cons_self, hlt, fun c hc => ?_⟩
        obtain rfl | hc := List.mem_cons.mp hc
        · exact le_rfl
        · exact hall c hc
      · refine ⟨List.mem_cons_of_mem _ hmem, hless.trans hlt, fun c hc => ?_⟩
        obtain rfl | hc := List.mem_cons.mp hc
        · exact hless.le
        · exact hall c hc
    · rw [if_neg hlt, min_eq_right (Nat.le_of_not_lt hlt)]
      obtain ⟨heq, hall⟩ | ⟨hmem, hless, hall⟩ := ih bestCand bestScore
      · refine .inl ⟨heq, fun c hc => ?_⟩
        obtain rfl | hc := List.mem_cons.mp hc
        · exact Nat.le_of_not_lt hlt
        · exact hall c hc
      · refine .inr ⟨List.mem_cons_of_mem _ hmem, hless, fun c hc => ?_⟩
        obtain rfl | hc := List.mem_cons.mp hc
        · exact hless.le.trans (Nat.le_of_not_lt hlt)
        · exact hall c hc

theorem rank_spec (hne : cands ≠ []) :
    rank score cands ∈ cands ∧
      ∀ c ∈ cands, uint32 (score (rank score cands)) ≤ uint32 (score c) := by
  obtain ⟨-, hall⟩ | ⟨hmem, -, hall⟩ :=
    rankLoop_cases score cands (2 ^ 32 - 1) (2 ^ 64 - 1)
  · obtain ⟨c, hc⟩ := List.exists_mem_of_ne_nil cands hne
    have hlow : uint32 (score c) < 2 ^ 32 := Nat.mod_lt _ (by decide)
    have hhigh := hall c hc
    omega
  · exact ⟨hmem, hall⟩

theorem rank_pair {x y : Nat} (h : uint32 (score y) ≤ uint32 (score x)) :
    rank score [y, x] = y := by
  have hlow : uint32 (score y) < 2 ^ 64 - 1 :=
    lt_of_lt_of_le (Nat.mod_lt _ (by decide)) (by decide)
  unfold rank rankLoop rankLoop rankLoop
  dsimp only
  rw [if_pos hlow, min_eq_left hlow.le, if_neg (Nat.not_lt_of_le h)]

/-- `rank` takes a candidate of least score. -/
def TakesLeast (score : Nat → Nat) (cands : List Nat) : Prop :=
  rank score cands ∈ cands ∧ ∀ c ∈ cands, score (rank score cands) ≤ score c

/-- The low halves of the scores are in the order of the scores. -/
def LowInOrder (score : Nat → Nat) (lines : List Nat) : Prop :=
  ∀ x ∈ lines, ∀ y ∈ lines, score x < score y → uint32 (score x) < uint32 (score y)

theorem takesLeast_iff {lines : List Nat} :
    (∀ cands ≠ [], cands ⊆ lines → TakesLeast score cands) ↔ LowInOrder score lines := by
  constructor
  · intro hall x hx y hy hlt
    by_contra hle
    have hpair := (hall [y, x] (List.cons_ne_nil _ _) (by simp [hx, hy])).2 x (by simp)
    rw [rank_pair (Nat.le_of_not_lt hle)] at hpair
    omega
  · intro horder cands hne hsub
    obtain ⟨hmem, hall⟩ : rank score cands ∈ cands ∧ _ := rank_spec hne
    refine ⟨hmem, fun c hc => ?_⟩
    by_contra hlt
    have hless := horder c (hsub hc) _ (hsub hmem) (Nat.lt_of_not_le hlt)
    exact absurd (hall c hc) (Nat.not_le_of_lt hless)

end

/-! ### Histories -/

/-- The number of operations since the last update of a line, or of all when there is none. -/
def age (ops : List Op) (id : Nat) : Nat := ops.reverse.findIdx fun op => op = .update id

def updates (ops : List Op) : Nat := ops.countP fun op => match op with
  | .update _ => true
  | .replaced _ => false

section

open Lru

theorem after_append (ops : List Op) (op : Op) : after (ops ++ [op]) = step (after ops) op :=
  List.foldl_append.trans rfl

theorem age_append (ops : List Op) (op : Op) (id : Nat) :
    age (ops ++ [op]) id = if op = .update id then 0 else age ops id + 1 := by
  unfold age
  rw [List.reverse_append, List.reverse_singleton, List.singleton_append, List.findIdx_cons]
  by_cases hop : op = .update id <;> simp [hop]

/-- The timestamps are in the order of the last updates. -/
structure Stamped (ops : List Op) (s : Lru) : Prop where
  timestamp : s.timestamp = updates ops + 1
  lt : ∀ x, s.array x < s.timestamp
  age : ∀ x y, s.array x ≠ 0 → s.array y ≠ 0 → s.array x ≤ s.array y → age ops y ≤ age ops x

theorem Stamped.update {ops : List Op} {s : Lru} (h : Stamped ops s) (id : Nat)
    (hcount : updates (ops ++ [.update id]) + 1 < 2 ^ 64) :
    Stamped (ops ++ [.update id]) (s.update id) := by
  have hmore : updates (ops ++ [.update id]) = updates ops + 1 := List.countP_append
  have htime : (s.update id).timestamp = updates (ops ++ [.update id]) + 1 := by
    rw [hmore, ← h.timestamp]
    refine Nat.mod_eq_of_lt ?_
    rw [h.timestamp, ← hmore]
    exact hcount
  have harray : ∀ x, (s.update id).array x = if x = id then s.timestamp else s.array x :=
    fun _ => rfl
  refine ⟨htime, fun x => ?_, fun x y hx hy hle => ?_⟩
  · rw [htime, hmore, ← h.timestamp, harray]
    split
    · exact Nat.lt_succ_self _
    · exact (h.lt x).trans (Nat.lt_succ_self _)
  · rw [age_append, age_append]
    rw [harray] at hx hy hle
    rw [harray] at hle
    by_cases hyid : y = id
    · rw [if_pos (by rw [hyid])]
      exact Nat.zero_le _
    · rw [if_neg hyid] at hy hle
      by_cases hxid : x = id
      · rw [if_pos hxid] at hle
        exact absurd hle (Nat.not_le_of_lt (h.lt y))
      · rw [if_neg hxid] at hx hle
        rw [if_neg fun heq => hyid (Op.update.inj heq).symm,
          if_neg fun heq => hxid (Op.update.inj heq).symm]
        exact Nat.succ_le_succ (h.age x y hx hy hle)

theorem Stamped.replaced {ops : List Op} {s : Lru} (h : Stamped ops s) (id : Nat) :
    Stamped (ops ++ [.replaced id]) (s.replaced id) := by
  have hsame : updates (ops ++ [.replaced id]) = updates ops := List.countP_append
  have harray : ∀ x, (s.replaced id).array x = if x = id then 0 else s.array x := fun _ => rfl
  refine ⟨by rw [hsame]; exact h.timestamp, fun x => ?_, fun x y hx hy hle => ?_⟩
  · rw [harray]
    split
    · exact (Nat.zero_le _).trans_lt (h.lt x)
    · exact h.lt x
  · obtain ⟨hxid, hx⟩ := ite_ne_left_iff.mp hx
    obtain ⟨hyid, hy⟩ := ite_ne_left_iff.mp hy
    rw [harray, harray, if_neg hxid, if_neg hyid] at hle
    rw [age_append, age_append, if_neg nofun, if_neg nofun]
    exact Nat.succ_le_succ (h.age x y (Ne.symm hx) (Ne.symm hy) hle)

theorem after_stamped (ops : List Op) (hcount : updates ops + 1 < 2 ^ 64) :
    Stamped ops (after ops) := by
  induction ops using List.reverseRecOn with
  | nil => exact ⟨rfl, fun _ => Nat.one_pos, fun _ _ hx => absurd rfl hx⟩
  | append_singleton ops op ih =>
    have hless : updates ops ≤ updates (ops ++ [op]) := by
      unfold updates
      rw [List.countP_append]
      exact Nat.le_add_right _ _
    rw [after_append]
    cases op with
    | update id => exact (ih (by omega)).update id hcount
    | replaced id => exact (ih (by omega)).replaced id

end

namespace Policy

open Lru

section

variable {p : Policy} {sharersAware : Bool} {numLines : Nat} {cc : Cc} {s : Lru}
  {ops : List Op} {id : Nat}

/-- A line that was not updated since it was replaced or is not valid, and that no child has. -/
def Vacant (p : Policy) (sharersAware : Bool) (numLines : Nat) (cc : Cc) (s : Lru) (id : Nat) :
    Prop :=
  (s.array id = 0 ∨ p.counts numLines cc id = false) ∧
    (if sharersAware then cc.numSharers id else 0) = 0

/-- The vacant lines have the score 0. -/
theorem vacant_iff (hpos : 0 < s.timestamp) :
    p.Vacant sharersAware numLines cc s id ↔ p.fullScore sharersAware numLines cc s id = 0 := by
  unfold Vacant Policy.fullScore Lru.fullScore
  rw [Nat.add_eq_zero_iff, Nat.mul_eq_zero, Nat.mul_eq_zero, or_iff_left hpos.ne', and_comm]
  refine and_congr_right' (or_congr_right ?_)
  cases p.counts numLines cc id <;> decide

theorem fullScore_eq (hvalid : p.counts numLines cc id = true) :
    p.fullScore false numLines cc s id = s.array id := by
  rw [Policy.fullScore, Lru.fullScore, if_neg Bool.false_ne_true, hvalid, Nat.zero_mul,
    Nat.zero_add, Bool.toNat_true, Nat.mul_one]

/-- A policy takes a candidate of least score from whatever part of `lines` it is given, in whatever
order, exactly when the low halves of their scores are in the order of the scores.  Before
timestamps and scores wrap, it is then the one whose last update is oldest, when there are no
sharers and all candidates hold lines, and a vacant one when there is one. -/
theorem rank_least_iff (p : Policy) (sharersAware : Bool) (numLines : Nat) (cc : Cc) (ops : List Op)
    (lines : List Nat) :
    ((∀ cands ≠ [], cands ⊆ lines →
        TakesLeast (p.score sharersAware numLines cc (after ops)) cands) ↔
      LowInOrder (p.score sharersAware numLines cc (after ops)) lines) ∧
    (LowInOrder (p.score sharersAware numLines cc (after ops)) lines → updates ops + 1 < 2 ^ 64 →
      (∀ c ∈ lines, p.fullScore sharersAware numLines cc (after ops) c < 2 ^ 64) →
      ∀ cands ≠ [], cands ⊆ lines →
        (sharersAware = false → (∀ c ∈ cands, p.counts numLines cc c ∧ (after ops).array c ≠ 0) →
          ∀ c ∈ cands,
            age ops c ≤ age ops (rank (p.score sharersAware numLines cc (after ops)) cands)) ∧
        ((∃ c ∈ cands, p.Vacant sharersAware numLines cc (after ops) c) →
          p.Vacant sharersAware numLines cc (after ops)
            (rank (p.score sharersAware numLines cc (after ops)) cands))) := by
  refine ⟨takesLeast_iff, fun horder hcount hwrap cands hne hsub => ?_⟩
  have hstamped := after_stamped ops hcount
  have hpos : 0 < (after ops).timestamp := (Nat.zero_le _).trans_lt (hstamped.lt 0)
  obtain ⟨hmem, hleast⟩ := takesLeast_iff.mpr horder cands hne hsub
  have hscore : ∀ c ∈ cands, p.score sharersAware numLines cc (after ops) c =
      p.fullScore sharersAware numLines cc (after ops) c := fun c hc =>
    Nat.mod_eq_of_lt (hwrap c (hsub hc))
  constructor
  · rintro rfl hvalid c hc
    have harray : ∀ c ∈ cands, p.score false numLines cc (after ops) c = (after ops).array c := by
      intro c hc
      rw [hscore c hc, fullScore_eq (hvalid c hc).1]
    have hle := hleast c hc
    rw [harray c hc, harray _ hmem] at hle
    exact hstamped.age _ c (hvalid _ hmem).2 (hvalid c hc).2 hle
  · rintro ⟨c, hc, hvacant⟩
    have hle := hleast c hc
    rw [hscore c hc, hscore _ hmem, (vacant_iff hpos).mp hvacant] at hle
    exact (vacant_iff hpos).mpr (Nat.le_zero.mp hle)

/-- Many updates of line 2, after which line 0 is updated. -/
def history (n : Nat) : List Op := .update 1 :: List.replicate n (.update 2) ++ [.update 0]

theorem updates_replicate (n : Nat) (h : s.timestamp + n < 2 ^ 64) :
    ((List.replicate n (.update 2)).foldl step s).timestamp = s.timestamp + n ∧
      ((List.replicate n (.update 2)).foldl step s).array 1 = s.array 1 := by
  induction n generalizing s with
  | zero => exact ⟨rfl, rfl⟩
  | succ n ih =>
    have hone : (s.update 2).timestamp = s.timestamp + 1 := Nat.mod_eq_of_lt (by omega)
    obtain ⟨htime, harray⟩ := ih (s := s.update 2) (by omega)
    exact ⟨by rw [List.replicate_succ, List.foldl_cons, step, htime, hone]; omega, harray⟩

theorem after_history (n : Nat) (h : n + 2 < 2 ^ 64) :
    (after (history n)).array 0 = n + 2 ∧ (after (history n)).array 1 = 1 := by
  obtain ⟨htime, harray⟩ := updates_replicate (s := start.update 1) n (by
    show 2 + n < 2 ^ 64
    omega)
  have htime : _ = 2 + n := htime
  rw [history, after_append]
  refine ⟨?_, harray⟩
  show ((List.replicate n (.update 2)).foldl step (start.update 1)).timestamp = _
  omega

/-- After 2 to the 32 updates the line updated last has the score 2 to the 32, of which the low half
is 0; it is taken before line 1, whose last update is the first of all. -/
theorem rank_newest : ¬∀ (ops : List Op) (cands : List Nat), cands ≠ [] →
    TakesLeast (score .LRUReplPolicy false 4 ⟨fun _ => 0, fun _ => true⟩ (after ops)) cands := by
  intro hall
  obtain ⟨h0, h1⟩ := after_history (2 ^ 32 - 2) (by decide)
  have hscore : ∀ id, score .LRUReplPolicy false 4 ⟨fun _ => 0, fun _ => true⟩
      (after (history (2 ^ 32 - 2))) id = uint64 ((after (history (2 ^ 32 - 2))).array id) :=
    fun id => congrArg uint64 (fullScore_eq rfl)
  obtain ⟨-, hleast⟩ := hall (history (2 ^ 32 - 2)) [0, 1] (List.cons_ne_nil _ _)
  have hle := hleast 1 (by simp)
  rw [rank_pair (by rw [hscore, hscore, h0, h1]; decide), hscore, hscore, h0, h1] at hle
  exact absurd hle (by decide)

end

end Policy

end Doppelganger.Repl
