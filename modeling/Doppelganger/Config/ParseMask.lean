import Doppelganger.Lib.Splitting
import Mathlib.Algebra.Group.Nat.Defs

/-! The process masks of a configuration file. A string is the list of its characters. -/

namespace Doppelganger.Config

open Lib

/-- A run of the parser, an error where it panics and `none` where a loop has not ended. -/
abbrev Parse := ExceptT String Option

def unfinished {α : Type} : Parse α :=
  ExceptT.mk none

/-- `find_first_of` and `find_first_not_of` from a position on, `none` standing for `npos`. -/
def findFirst (p : Char → Bool) (str : List Char) (pos : Option Nat) : Option Nat :=
  pos.bind fun n => ((str.drop n).findIdx? p).map (n + ·)

/-- `str.substr(lastPos, pos - lastPos)`, where `pos` was found from `lastPos` on. -/
def substr (str : List Char) (lastPos pos : Option Nat) : Parse (List Char) :=
  match lastPos, pos with
  | none, _ => throw "basic_string::substr"
  | some n, none => if n ≤ str.length then pure (str.drop n) else throw "basic_string::substr"
  | some n, some m =>
    if n ≤ str.length then pure ((str.drop n).take (m - n)) else throw "basic_string::substr"

/-- The loop from the two positions on. -/
def tokenizeFrom (str delimiters : List Char) :
    Nat → Option Nat → Option Nat → List (List Char) → Parse (List (List Char))
  | 0, _, _, _ => unfinished
  | fuel + 1, lastPos, pos, tokens =>
    if pos ≠ none ∨ lastPos ≠ none then do
      let token ← substr str lastPos pos
      let lastPos := findFirst (!delimiters.contains ·) str pos
      let pos := findFirst delimiters.contains str lastPos
      tokenizeFrom str delimiters fuel lastPos pos (tokens ++ [token])
    else
      pure tokens

/-- Delimiters at the beginning are not skipped. -/
def tokenize (str delimiters : List Char) : Parse (List (List Char)) :=
  let lastPos := some 0
  let pos := findFirst delimiters.contains str lastPos
  tokenizeFrom str delimiters (str.length + 2) lastPos pos []

/-- The blanks of the "C" locale. -/
def isSpace (c : Char) : Bool :=
  c.toNat = 32 || 9 ≤ c.toNat && c.toNat ≤ 13

/-- A sign and what follows it. -/
def sign : List Char → Bool × List Char
  | '-' :: s => (true, s)
  | '+' :: s => (false, s)
  | s => (false, s)

/-- `ss >> x` for an unsigned 32-bit `x`, which fails without a digit and when the digits are past
the largest word. Blanks are skipped, and what follows the digits stays in the stream. -/
def extract (s : List Char) : Option UInt32 :=
  let (negative, s) := sign (s.dropWhile isSpace)
  let digits := s.takeWhile Char.isDigit
  let n := Nat.ofDigitChars 10 digits 0
  if digits = [] ∨ 2 ^ 32 ≤ n then none
  -- a minus negates the word
  else some (if negative then -UInt32.ofNat n else UInt32.ofNat n)

structure Range where
  min : Int32
  sup : Int32
  step : Int32

namespace Range

/-- The final error checking of the constructor. -/
def checked (r : List Char) (range : Range) : Parse Range :=
  if range.min < 0 ∨ range.step < 0 ∨ range.sup < 0 then
    throw s!"Range {String.ofList r} has negative numbers"
  else if range.step = 0 then
    throw s!"Range {String.ofList r} has 0 step!"
  else if range.min ≥ range.sup then
    throw s!"Range {String.ofList r} has min >= sup!"
  else
    pure range

def number (r s : List Char) : Parse UInt32 :=
  match extract s with
  | none => throw s!"{String.ofList s} in range {String.ofList r} is not a valid number"
  | some x => pure x

/-- The `switch` on how many numbers there are. Signed arithmetic wraps around. -/
def ofNumbers (r : List Char) : List UInt32 → Parse Range
  | [a] => checked r { min := a.toInt32, sup := a.toInt32 + 1, step := 1 }
  | [a, b] => checked r { min := a.toInt32, sup := b.toInt32, step := 1 }
  | [a, b, c] => checked r { min := a.toInt32, sup := b.toInt32, step := c.toInt32 }
  | n =>
    throw (s!"Range '{String.ofList r}' can only have 1-3 numbers delimited by ':', " ++
      s!"{n.length} parsed")

/-- The constructor. -/
def ofString (r : List Char) : Parse Range := do
  let t ← tokenize r [':']
  let n ← t.mapM (number r)
  ofNumbers r n

def fillFrom (range : Range) : Nat → Int32 → List Bool → Parse (List Bool)
  | 0, _, _ => unfinished
  | fuel + 1, i, mask =>
    if i < range.sup then
      -- a mask of 2^31 bits or more has a negative size here
      if i ≥ Int32.ofNat mask.length ∨ i < 0 then
        let limit : Int := mask.length - 1
        throw (s!"Range {range.min}:{range.step}:{range.sup} includes out-of-bounds {i} " ++
          s!"(mask limit {limit})")
      else
        fillFrom range fuel (i + range.step) (mask.set i.toNatClampNeg true)
    else
      pure mask

def fill (range : Range) (mask : List Bool) : Parse (List Bool) :=
  fillFrom range (mask.length + 1) range.min mask

end Range

/-- Takes one token into the mask. Empty tokens are skipped. -/
def fillToken (mask : List Bool) (r : List Char) : Parse (List Bool) :=
  if r.length = 0 then
    pure mask
  else do
    let range ← Range.ofString r
    range.fill mask

def parseMask (maskStr : List Char) (maskSize : UInt32) : Parse (List Bool) := do
  let ranges ← tokenize maskStr [' ']
  ranges.foldlM fillToken (List.replicate maskSize.toNat false)

/-! ### Tokens -/

section

variable {str delimiters : List Char} {n : Nat}

theorem lt_length_of_drop {d : Char} {t : List Char} (h : str.drop n = d :: t) :
    n < str.length := by
  have hlength := congrArg List.length h
  rw [List.length_drop, List.length_cons] at hlength
  omega

theorem findFirst_none {p : Char → Bool} (h : (str.drop n).findIdx? p = none) :
    findFirst p str (some n) = none := by
  rw [findFirst, Option.bind_some, h, Option.map_none]

theorem findFirst_some {p : Char → Bool} {k : Nat} (h : (str.drop n).findIdx? p = some k) :
    findFirst p str (some n) = some (n + k) := by
  rw [findFirst, Option.bind_some, h, Option.map_some]

theorem tokenizeFrom_last (hn : n ≤ str.length) (fuel : Nat) (tokens : List (List Char)) :
    tokenizeFrom str delimiters (fuel + 1) (some n) none tokens =
      tokenizeFrom str delimiters fuel none none (tokens ++ [str.drop n]) := by
  simp [tokenizeFrom, substr, hn, findFirst]

theorem tokenizeFrom_next (hn : n ≤ str.length) (fuel m : Nat) (tokens : List (List Char)) :
    tokenizeFrom str delimiters (fuel + 1) (some n) (some m) tokens =
      tokenizeFrom str delimiters fuel (findFirst (!delimiters.contains ·) str (some m))
        (findFirst delimiters.contains str (findFirst (!delimiters.contains ·) str (some m)))
        (tokens ++ [(str.drop n).take (m - n)]) := by
  simp [tokenizeFrom, substr, hn]

theorem tokenizeFrom_end {fuel : Nat} (h : 0 < fuel) (tokens : List (List Char)) :
    tokenizeFrom str delimiters fuel none none tokens = pure tokens := by
  cases fuel with
  | zero => omega
  | succ fuel => rfl

/-- Every token is what stands between the two positions, and both move past the delimiters. -/
theorem tokenizeFrom_eq {fuel : Nat} (hn : n ≤ str.length) (hfuel : str.length + 2 ≤ n + fuel)
    (tokens : List (List Char)) :
    tokenizeFrom str delimiters fuel (some n) (findFirst delimiters.contains str (some n)) tokens =
      pure (tokens ++ fields delimiters.contains (str.drop n)) := by
  induction fuel generalizing n tokens with
  | zero => omega
  | succ fuel ih =>
    cases hpos : (str.drop n).findIdx? delimiters.contains with
    | none =>
      -- the last token, up to the end
      have hrest := findIdx?_none_split _ hpos
      have hfields : fields delimiters.contains (str.drop n) = [str.drop n] := by
        rw [fields, hrest, takeWhile_of_dropWhile_nil hrest, pieces_nil]
      rw [findFirst_none hpos, tokenizeFrom_last hn, tokenizeFrom_end (by omega), hfields]
    | some k =>
      obtain ⟨hword, hrest, d, t, hd, hdelim⟩ := findIdx?_some_split _ hpos
      rw [List.drop_drop] at hrest hd
      have hroom := lt_length_of_drop hd
      have hfields : fields delimiters.contains (str.drop n) =
          (str.drop n).take k :: pieces delimiters.contains (str.drop (n + k)) := by
        rw [fields, hword, hrest]
      rw [findFirst_some hpos, tokenizeFrom_next hn, Nat.add_sub_cancel_left]
      have hpieces := pieces_dropWhile delimiters.contains (str.drop (n + k))
      cases hlast : (str.drop (n + k)).findIdx? (!delimiters.contains ·) with
      | none =>
        -- only delimiters follow
        have hnil := findIdx?_none_split _ hlast
        simp only [Bool.not_not] at hnil
        rw [hnil, pieces_nil] at hpieces
        rw [findFirst_none hlast, findFirst, Option.bind_none, tokenizeFrom_end (by omega), hfields,
          ← hpieces]
      | some l =>
        obtain ⟨-, hdrop, a, u, ha, hword⟩ := findIdx?_some_split _ hlast
        simp only [Bool.not_not, Bool.not_eq_true', List.drop_drop] at hdrop ha hword
        have hlater : n < n + k + l := by
          cases l with
          | zero =>
            rw [Nat.add_zero, hd] at ha
            cases ha
            rw [hdelim] at hword
            cases hword
          | succ l => omega
        have hbound := lt_length_of_drop ha
        rw [hdrop, ha, pieces_eq_fields _ hword, ← ha] at hpieces
        rw [findFirst_some hlast, ih (by omega) (by omega), hfields, ← hpieces, List.append_assoc]
        rfl

end

/-- The first field is a token even when it is empty, and later ones are not. -/
theorem tokenize_eq (str : List Char) (d : Char) :
    tokenize str [d] = pure (fields (· == d) str) := by
  have hdelim : [d].contains = (· == d) := by
    funext c
    rw [List.contains_cons, List.contains_nil, Bool.or_false]
  rw [tokenize, tokenizeFrom_eq (Nat.zero_le _) (by omega), hdelim]
  rfl

end Doppelganger.Config
