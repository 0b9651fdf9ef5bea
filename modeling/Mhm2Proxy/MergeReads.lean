import Mhm2Proxy.ContigsFile
import Mhm2Proxy.PackedReads
import Mathlib.Algebra.Order.Field.Rat

/-! `merge_reads`: the overlap test that merges the two reads of a pair, and
`fast_count_mismatches`, the prefilter it runs on each candidate overlap. The prefilter counts
in three passes, as the x86-64 build compiles it: 16-byte SIMD blocks, then 8-byte words, then
the bytes left, with an early exit once the count passes `max`.

The overlap test slides the reverse complement of the second read along the first and, at
each shift the prefilter lets through, compares the overlap position by position, summing a
probability of error read from `Q2Perror`. At the one good shift it finds, the two reads are
merged, base by base over the overlap. The `double` sums are held as rationals. Read lengths
are below `2 ^ 15`, so the `int16_t` lengths and shifts are plain numbers. -/

namespace Mhm2Proxy.MergeReads

open Mhm2Proxy.PackedReads

/-- The value `x` takes in an `int16_t`. -/
def toInt16 (x : Int) : Int := (x + 2 ^ 15) % 2 ^ 16 - 2 ^ 15

/-- `_mm_cmpeq_epi8`: `0xFF` where the bytes are equal, `0x00` where they differ. -/
def mmCmpeqEpi8 (aa bb : List UInt8) : List UInt8 :=
  List.zipWith (fun x y => if x = y then 0xFF else 0) aa bb

/-- `_mm_movemask_epi8`: the top bit of each byte, byte `i` in bit `i`. -/
def mmMovemaskEpi8 : List UInt8 → Nat
  | [] => 0
  | x :: xs => x.toNat / 128 + 2 * mmMovemaskEpi8 xs

/-- `_popcnt32`: the number of set bits of a 32-bit word. -/
def popcnt32 (x : UInt32) : Nat := ((List.range 32).map x.toNat.testBit).count true

/-- The mismatches of one 16-byte block: `_popcnt32((~myMaskMatched) & 0xffff)` of the mask
of equal bytes. -/
def simdMismatches (aa bb : List UInt8) : Nat :=
  let myMaskMatched : UInt32 := UInt32.ofNat (mmMovemaskEpi8 (mmCmpeqEpi8 aa bb))
  popcnt32 (~~~myMaskMatched &&& 0xffff)

/-- The number of positions where the bytes differ: what the byte loops add up. -/
def mismatchCount (a b : List UInt8) : Nat :=
  (List.zipWith (fun x y => decide (x ≠ y)) a b).count true

/-- The variables of `fast_count_mismatches` between its passes: the count, the pointers `a`
and `b` as the bytes from them on, and `len`. -/
structure CountState where
  mismatches : Int
  a : List UInt8
  b : List UInt8
  len : Nat
  deriving DecidableEq, Repr

/-- The SIMD loop over `jumps` blocks of 16 bytes: each block's mismatches are added, and the
loop stops after the block that takes the count above `max`, before `a` and `b` move on. -/
def simdLoop (max : Int) : Nat → Int → List UInt8 → List UInt8 → Int × List UInt8 × List UInt8
  | 0, mismatches, a, b => (mismatches, a, b)
  | jumps + 1, mismatches, a, b =>
      let mismatches := toInt16 (mismatches + simdMismatches (a.take 16) (b.take 16))
      if mismatches > max then (mismatches, a, b)
      else simdLoop max jumps mismatches (a.drop 16) (b.drop 16)

/-- The loop over `jumps` words of 8 bytes: a word that differs as an `int64_t` has its byte
mismatches added, and the loop stops after the word that takes the count above `max`. -/
def wordLoop (max : Int) : Nat → Int → List UInt8 → List UInt8 → Int × List UInt8 × List UInt8
  | 0, mismatches, a, b => (mismatches, a, b)
  | jumps + 1, mismatches, a, b =>
      if a.take 8 ≠ b.take 8 then
        let mismatches := toInt16 (mismatches + mismatchCount (a.take 8) (b.take 8))
        if mismatches > max then (mismatches, a, b)
        else wordLoop max jumps mismatches (a.drop 8) (b.drop 8)
      else wordLoop max jumps mismatches (a.drop 8) (b.drop 8)

/-- The 128-bit SIMD pass, run when `len >= 16`; `len` drops by all its blocks, also when the
loop stopped early. -/
def simdPass (max : Int) (a b : List UInt8) (len : Nat) : CountState :=
  if len ≥ 16 then
    let (mismatches, a, b) := simdLoop max (len / 16) 0 a b
    ⟨mismatches, a, b, len - len / 16 * 16⟩
  else ⟨0, a, b, len⟩

/-- The pass over 8-byte words, run when the count is still at most `max`. -/
def wordPass (max : Int) (s : CountState) : CountState :=
  if s.mismatches ≤ max then
    let (mismatches, a, b) := wordLoop max (s.len / 8) s.mismatches s.a s.b
    ⟨mismatches, a, b, s.len - s.len / 8 * 8⟩
  else s

/-- The pass over the bytes left, run when the count is still at most `max`. -/
def bytePass (max : Int) (s : CountState) : Int :=
  if s.mismatches ≤ max then toInt16 (s.mismatches + mismatchCount (s.a.take s.len) (s.b.take s.len))
  else s.mismatches

/-- `fast_count_mismatches(a, b, len, max)` as the x86-64 build runs it. -/
def fastCountMismatches (a b : List UInt8) (len : Nat) (max : Int) : Int :=
  bytePass max (wordPass max (simdPass max a b len))

section Block

@[simp] theorem testBit_mmMovemaskEpi8_zero (x : UInt8) (xs : List UInt8) :
    (mmMovemaskEpi8 (x :: xs)).testBit 0 = decide (128 ≤ x.toNat) := by
  have : x.toNat < 256 := x.toBitVec.isLt
  rw [mmMovemaskEpi8, Nat.testBit_zero, decide_eq_decide]
  omega

@[simp] theorem testBit_mmMovemaskEpi8_succ (x : UInt8) (xs : List UInt8) (i : Nat) :
    (mmMovemaskEpi8 (x :: xs)).testBit (i + 1) = (mmMovemaskEpi8 xs).testBit i := by
  have : x.toNat < 256 := x.toBitVec.isLt
  rw [mmMovemaskEpi8, Nat.testBit_succ]
  congr 1
  omega

theorem count_testBit_mmMovemaskEpi8 :
    ∀ (v : List UInt8) (n : Nat), v.length ≤ n →
      ((List.range n).map (mmMovemaskEpi8 v).testBit).count true =
        (v.map fun x => decide (128 ≤ x.toNat)).count true
  | [], n, _ => by simp [mmMovemaskEpi8, List.count_eq_zero]
  | x :: xs, n + 1, h => by
      have ih := count_testBit_mmMovemaskEpi8 xs n (by simpa using h)
      rw [List.range_succ_eq_map, List.map_cons, List.map_map]
      simp only [Function.comp_def, Nat.succ_eq_add_one, testBit_mmMovemaskEpi8_succ,
        testBit_mmMovemaskEpi8_zero, List.map_cons, List.count_cons, ih]

theorem testBit_not_mmMovemaskEpi8_cmpeq :
    ∀ (a b : List UInt8), a.length = b.length → ∀ i,
      (decide (i < a.length) && !(mmMovemaskEpi8 (mmCmpeqEpi8 a b)).testBit i) =
        (mmMovemaskEpi8 (List.zipWith (fun x y => if x = y then 0 else 0xFF) a b)).testBit i
  | [], [], _, i => by simp [mmCmpeqEpi8, mmMovemaskEpi8]
  | x :: xs, y :: ys, h, 0 => by
      by_cases hxy : x = y <;> simp [mmCmpeqEpi8, hxy, -Nat.testBit_zero]
  | x :: xs, y :: ys, h, i + 1 => by
      have ih := testBit_not_mmMovemaskEpi8_cmpeq xs ys (by simpa using h) i
      simp only [mmCmpeqEpi8, List.zipWith_cons_cons, testBit_mmMovemaskEpi8_succ,
        List.length_cons, Nat.add_lt_add_iff_right] at ih ⊢
      exact ih

theorem testBit_not_and_ffff (m : UInt32) (i : Nat) :
    (~~~m &&& 0xffff).toNat.testBit i = (decide (i < 16) && !m.toNat.testBit i) := by
  show ((~~~m.toBitVec) &&& 0xffff#32).toNat.testBit i =
    (decide (i < 16) && !m.toBitVec.toNat.testBit i)
  rw [BitVec.testBit_toNat, BitVec.getLsbD_and, BitVec.getLsbD_not, BitVec.getLsbD_ofNat,
    show (0xffff : Nat) = 2 ^ 16 - 1 from rfl, Nat.testBit_two_pow_sub_one, BitVec.testBit_toNat]
  by_cases h : i < 16
  · simp [h, show i < 32 by omega]
  · simp [h]

/-- `_popcnt32((~myMaskMatched) & 0xffff)` counts the differing bytes of a 16-byte block. -/
theorem simdMismatches_eq (a b : List UInt8) (ha : a.length = 16) (hb : b.length = 16) :
    simdMismatches a b = mismatchCount a b := by
  have hbits : (~~~UInt32.ofNat (mmMovemaskEpi8 (mmCmpeqEpi8 a b)) &&& 0xffff).toNat.testBit =
      (mmMovemaskEpi8 (List.zipWith (fun x y => if x = y then 0 else 0xFF) a b)).testBit := by
    funext i
    rw [testBit_not_and_ffff, ← testBit_not_mmMovemaskEpi8_cmpeq a b (ha.trans hb.symm), ha]
    show (decide (i < 16) && !(mmMovemaskEpi8 (mmCmpeqEpi8 a b) % 2 ^ 32).testBit i) = _
    rw [Nat.testBit_mod_two_pow]
    by_cases h : i < 16
    · simp [h, show i < 32 by omega]
    · simp [h]
  rw [simdMismatches, popcnt32, hbits, count_testBit_mmMovemaskEpi8 _ _ (by simp [ha, hb]),
    List.map_zipWith, mismatchCount]
  congr 2
  funext x y
  by_cases hxy : x = y <;> simp [hxy]

end Block

section Count

theorem mismatchCount_le (a b : List UInt8) : mismatchCount a b ≤ a.length :=
  (List.count_le_length _ _).trans (by simp)

theorem mismatchCount_self (a : List UInt8) : mismatchCount a a = 0 := by
  simp [mismatchCount, List.count_eq_zero, List.zipWith_same]

theorem mismatchCount_take_add_drop (a b : List UInt8) (n : Nat) :
    mismatchCount (a.take n) (b.take n) + mismatchCount (a.drop n) (b.drop n) =
      mismatchCount a b := by
  rw [mismatchCount, mismatchCount, mismatchCount, ← List.take_zipWith, ← List.drop_zipWith,
    ← List.count_append, List.take_append_drop]

theorem mismatchCount_take_add (a b : List UInt8) (m n : Nat) :
    mismatchCount (a.take (m + n)) (b.take (m + n)) =
      mismatchCount (a.take m) (b.take m) +
        mismatchCount ((a.drop m).take n) ((b.drop m).take n) := by
  rw [← mismatchCount_take_add_drop (a.take (m + n)) _ m, List.take_take, List.take_take,
    List.drop_take, List.drop_take, Nat.min_eq_left (Nat.le_add_right m n), Nat.add_sub_cancel_left]

theorem mismatchCount_take_of_length {a : List UInt8} (b : List UInt8) {n : Nat} (ha : a.length = n) :
    mismatchCount (a.take n) (b.take n) = mismatchCount a b := by
  rw [← mismatchCount_take_add_drop a b n, List.drop_eq_nil_of_le ha.le]
  simp [mismatchCount]

theorem mismatchCount_take_le (a b : List UInt8) (n : Nat) :
    mismatchCount (a.take n) (b.take n) ≤ mismatchCount a b :=
  (Nat.le_add_right _ _).trans (mismatchCount_take_add_drop a b n).le

theorem toInt16_of_lt {x : Int} (h0 : 0 ≤ x) (h : x < 2 ^ 15) : toInt16 x = x := by
  rw [toInt16, Int.emod_eq_of_lt (by omega) (by omega)]
  omega

end Count

section Loops

/-- What a chunked loop gives back: the count over all its chunks with the pointers past them,
or a count above `max` at which it stopped, no larger than the count over all its chunks. -/
def LoopResult (max : Int) (w jumps : Nat) (m : Int) (a b : List UInt8)
    (r : Int × List UInt8 × List UInt8) : Prop :=
  r = (m + mismatchCount (a.take (w * jumps)) (b.take (w * jumps)),
      a.drop (w * jumps), b.drop (w * jumps)) ∨
    (max < r.1 ∧ r.1 ≤ m + mismatchCount (a.take (w * jumps)) (b.take (w * jumps)))

variable {max : Int} {w jumps : Nat} {m : Int} {a b : List UInt8}

theorem loopResult_zero : LoopResult max w 0 m a b (m, a, b) := .inl (by simp [mismatchCount])

theorem loopResult_stop (h : max < m + mismatchCount (a.take w) (b.take w)) :
    LoopResult max w (jumps + 1) m a b (m + mismatchCount (a.take w) (b.take w), a, b) := by
  rw [LoopResult, Nat.mul_succ, Nat.add_comm, mismatchCount_take_add]
  exact .inr ⟨h, by push_cast; omega⟩

theorem loopResult_next {r : Int × List UInt8 × List UInt8}
    (h : LoopResult max w jumps (m + mismatchCount (a.take w) (b.take w)) (a.drop w) (b.drop w) r) :
    LoopResult max w (jumps + 1) m a b r := by
  rw [LoopResult, Nat.mul_succ, Nat.add_comm, mismatchCount_take_add]
  rcases h with rfl | ⟨hmax, hle⟩
  · left
    simp only [List.drop_drop, Nat.cast_add, add_assoc]
  · exact .inr ⟨hmax, by push_cast; omega⟩

theorem simdLoop_spec (max : Int) :
    ∀ (jumps : Nat) (m : Int) (a b : List UInt8), 16 * jumps ≤ a.length → 16 * jumps ≤ b.length →
      0 ≤ m → m + 16 * jumps < 2 ^ 15 → LoopResult max 16 jumps m a b (simdLoop max jumps m a b)
  | 0, m, a, b, _, _, _, _ => loopResult_zero
  | j + 1, m, a, b, ha, hb, h0, hlt => by
      have hc := simdMismatches_eq (a.take 16) (b.take 16) (List.length_take_of_le (by omega))
        (List.length_take_of_le (by omega))
      have hle : mismatchCount (a.take 16) (b.take 16) ≤ 16 :=
        (mismatchCount_le _ _).trans (List.length_take_le _ _)
      have hwrap : toInt16 (m + simdMismatches (a.take 16) (b.take 16)) =
          m + mismatchCount (a.take 16) (b.take 16) := by
        rw [hc]; exact toInt16_of_lt (by omega) (by omega)
      simp only [simdLoop, hwrap]
      by_cases h : m + mismatchCount (a.take 16) (b.take 16) > max
      · rw [if_pos h]; exact loopResult_stop h
      · rw [if_neg h]
        exact loopResult_next (simdLoop_spec max j _ _ _ (by simp; omega) (by simp; omega)
          (by omega) (by omega))

theorem wordLoop_spec (max : Int) :
    ∀ (jumps : Nat) (m : Int) (a b : List UInt8), 8 * jumps ≤ a.length → 8 * jumps ≤ b.length →
      0 ≤ m → m + 8 * jumps < 2 ^ 15 → LoopResult max 8 jumps m a b (wordLoop max jumps m a b)
  | 0, m, a, b, _, _, _, _ => loopResult_zero
  | j + 1, m, a, b, ha, hb, h0, hlt => by
      have hle : mismatchCount (a.take 8) (b.take 8) ≤ 8 :=
        (mismatchCount_le _ _).trans (List.length_take_le _ _)
      have ih := wordLoop_spec max j (m + mismatchCount (a.take 8) (b.take 8)) (a.drop 8)
        (b.drop 8) (by simp; omega) (by simp; omega) (by omega) (by omega)
      rw [wordLoop]
      by_cases hne : a.take 8 ≠ b.take 8
      · have hwrap : toInt16 (m + mismatchCount (a.take 8) (b.take 8)) =
            m + mismatchCount (a.take 8) (b.take 8) := toInt16_of_lt (by omega) (by omega)
        simp only [if_pos hne, hwrap]
        by_cases h : m + mismatchCount (a.take 8) (b.take 8) > max
        · rw [if_pos h]; exact loopResult_stop h
        · rw [if_neg h]; exact loopResult_next ih
      · have h0 : mismatchCount (a.take 8) (b.take 8) = 0 := by
          rw [not_not.1 hne, mismatchCount_self]
        rw [if_neg hne]
        rw [h0, Nat.cast_zero, add_zero] at ih
        exact loopResult_next (by rwa [h0, Nat.cast_zero, add_zero])

end Loops

section Passes

/-- What holds between the passes: either the count is exact for the bytes passed and the
pointers stand after them, or the count stopped above `max`, no larger than the full count. -/
def Progress (max : Int) (a b : List UInt8) (len : Nat) (s : CountState) : Prop :=
  (s.len ≤ len ∧ s.a = a.drop (len - s.len) ∧ s.b = b.drop (len - s.len) ∧
      s.mismatches = mismatchCount (a.take (len - s.len)) (b.take (len - s.len))) ∨
    (max < s.mismatches ∧ s.mismatches ≤ mismatchCount a b)

private theorem sub_sub_blocks {m len : Nat} (k : Nat) (h : m ≤ len) :
    len - (m - m / k * k) = len - m + k * (m / k) := by
  have := Nat.div_mul_le_self m k
  rw [Nat.mul_comm k]
  omega

variable {max : Int} {a b : List UInt8} {len : Nat}
  (ha : a.length = len) (hb : len ≤ b.length) (hlen : len < 2 ^ 15)
include ha hb hlen

theorem simdPass_progress : Progress max a b len (simdPass max a b len) := by
  rw [simdPass]
  by_cases h16 : len ≥ 16
  · have hj : 16 * (len / 16) ≤ len := Nat.mul_div_le len 16
    have hsub : len - (len - len / 16 * 16) = 16 * (len / 16) := by
      rw [sub_sub_blocks 16 le_rfl, Nat.sub_self, Nat.zero_add]
    have hspec := simdLoop_spec max (len / 16) 0 a b (by omega) (by omega) le_rfl (by omega)
    rw [if_pos h16]
    generalize simdLoop max (len / 16) 0 a b = r at hspec ⊢
    obtain ⟨m1, a1, b1⟩ := r
    rcases hspec with hr | ⟨hmax, hle⟩
    · simp only [Prod.mk.injEq] at hr
      obtain ⟨rfl, rfl, rfl⟩ := hr
      exact .inl ⟨Nat.sub_le _ _, by rw [hsub], by rw [hsub], by rw [hsub, zero_add]⟩
    · have := mismatchCount_take_le a b (16 * (len / 16))
      exact .inr ⟨hmax, by dsimp only at hle ⊢; omega⟩
  · rw [if_neg h16]
    exact .inl ⟨le_rfl, by simp, by simp, by simp [mismatchCount]⟩

theorem wordPass_progress {s : CountState} (hs : Progress max a b len s) :
    Progress max a b len (wordPass max s) := by
  rw [wordPass]
  by_cases hm : s.mismatches ≤ max
  swap
  · rw [if_neg hm]; exact hs
  obtain ⟨hsl, hsa, hsb, hsm⟩ := hs.resolve_right fun h => absurd h.1 (not_lt.2 hm)
  have hj : 8 * (s.len / 8) ≤ s.len := Nat.mul_div_le s.len 8
  have hla : s.a.length = s.len := by rw [hsa, List.length_drop, ha, Nat.sub_sub_self hsl]
  have hlb : s.len ≤ s.b.length := by rw [hsb, List.length_drop]; omega
  have hbound : s.mismatches + 8 * (s.len / 8) < 2 ^ 15 := by
    have := (mismatchCount_le (a.take (len - s.len)) (b.take (len - s.len))).trans
      (List.length_take_le _ _)
    omega
  -- the count when the loop runs to its end, over the bytes passed by then
  have hcount : s.mismatches +
      mismatchCount (s.a.take (8 * (s.len / 8))) (s.b.take (8 * (s.len / 8))) =
      mismatchCount (a.take (len - s.len + 8 * (s.len / 8)))
        (b.take (len - s.len + 8 * (s.len / 8))) := by
    rw [mismatchCount_take_add, hsm, hsa, hsb, Nat.cast_add]
  have hsub := sub_sub_blocks 8 hsl
  have hspec := wordLoop_spec max (s.len / 8) s.mismatches s.a s.b (hla ▸ hj) (hj.trans hlb)
    (hsm ▸ Nat.cast_nonneg _) hbound
  rw [if_pos hm]
  generalize wordLoop max (s.len / 8) s.mismatches s.a s.b = r at hspec ⊢
  obtain ⟨m1, a1, b1⟩ := r
  rcases hspec with hr | ⟨hmax, hle⟩
  · simp only [Prod.mk.injEq] at hr
    obtain ⟨rfl, rfl, rfl⟩ := hr
    exact .inl ⟨(Nat.sub_le _ _).trans hsl, by rw [hsub, hsa, List.drop_drop],
      by rw [hsub, hsb, List.drop_drop], by rw [hsub, ← hcount]⟩
  · exact .inr ⟨hmax, hle.trans (hcount ▸ Nat.cast_le.2 (mismatchCount_take_le a b _))⟩

omit hb in
theorem bytePass_spec {s : CountState} (hs : Progress max a b len s) :
    (mismatchCount a b ≤ max → bytePass max s = mismatchCount a b) ∧
      (max < mismatchCount a b → max < bytePass max s ∧ bytePass max s ≤ mismatchCount a b) := by
  rw [bytePass]
  by_cases hm : s.mismatches ≤ max
  · obtain ⟨hsl, hsa, hsb, hsm⟩ := hs.resolve_right fun h => absurd h.1 (not_lt.2 hm)
    have hall : mismatchCount (a.take (len - s.len)) (b.take (len - s.len)) +
        mismatchCount (s.a.take s.len) (s.b.take s.len) = mismatchCount a b := by
      rw [hsa, hsb, ← mismatchCount_take_add, Nat.sub_add_cancel hsl, mismatchCount_take_of_length b ha]
    have hbound := mismatchCount_le a b
    rw [if_pos hm, hsm, ← Nat.cast_add, hall, toInt16_of_lt (by omega) (by omega)]
    exact ⟨fun _ => rfl, fun h => ⟨h, le_rfl⟩⟩
  · rw [if_neg hm]
    have hle : s.mismatches ≤ mismatchCount a b := by
      rcases hs with ⟨-, -, -, hsm⟩ | ⟨-, hle⟩
      · rw [hsm]; exact Nat.cast_le.2 (mismatchCount_take_le a b _)
      · exact hle
    exact ⟨fun h => absurd (hle.trans h) hm, fun _ => ⟨not_le.1 hm, hle⟩⟩

end Passes

/-- `fast_count_mismatches` on two arrays of `len < 32768` bytes returns the number of
positions where they differ when that number is at most `max`, and otherwise a count above
`max` and no larger: the three passes together count as the plain loop does, and the
`int16_t` count never wraps. -/
theorem fast_count_mismatches_bounded (a b : List UInt8) (len : Nat) (ha : a.length = len)
    (hb : b.length = len) (hlen : len < 32768) (max : Int) :
    (mismatchCount a b ≤ max → fastCountMismatches a b len max = mismatchCount a b) ∧
      (max < mismatchCount a b →
        max < fastCountMismatches a b len max ∧ fastCountMismatches a b len max ≤ mismatchCount a b) :=
  bytePass_spec ha hlen (wordPass_progress ha hb.ge hlen (simdPass_progress ha hb.ge hlen))

/-- Two arrays of 20 bytes that differ in their last byte, counted with `max = 0`. -/
theorem fast_count_mismatches_bounded_twenty :
    (List.replicate 20 (0 : UInt8)).length = 20 ∧
      (List.replicate 19 (0 : UInt8) ++ [1]).length = 20 ∧ 20 < 32768 ∧
      ((mismatchCount (List.replicate 20 0) (List.replicate 19 0 ++ [1]) : Int) ≤ 0 →
        fastCountMismatches (List.replicate 20 0) (List.replicate 19 0 ++ [1]) 20 0 =
          mismatchCount (List.replicate 20 0) (List.replicate 19 0 ++ [1])) ∧
      (0 < (mismatchCount (List.replicate 20 0) (List.replicate 19 0 ++ [1]) : Int) →
        0 < fastCountMismatches (List.replicate 20 0) (List.replicate 19 0 ++ [1]) 20 0 ∧
          fastCountMismatches (List.replicate 20 0) (List.replicate 19 0 ++ [1]) 20 0 ≤
            mismatchCount (List.replicate 20 0) (List.replicate 19 0 ++ [1])) :=
  ⟨rfl, by simp, by decide,
    fast_count_mismatches_bounded (List.replicate 20 0) (List.replicate 19 0 ++ [1]) 20 rfl
      (by simp) (by decide) 0⟩

section OverlapTest

/-- `Q2Perror`: the probability of error of each Phred quality score `0, …, 80`. -/
def q2Perror : List ℚ :=
  [1.0,       0.7943,    0.6309,    0.5012,    0.3981,    0.3162,    0.2512,    0.1995,
   0.1585,    0.1259,    0.1,       0.07943,   0.06310,   0.05012,   0.03981,   0.03162,
   0.02512,   0.01995,   0.01585,   0.01259,   0.01,      0.007943,  0.006310,  0.005012,
   0.003981,  0.003162,  0.002512,  0.001995,  0.001585,  0.001259,  0.001,     0.0007943,
   0.0006310, 0.0005012, 0.0003981, 0.0003162, 0.0002512, 0.0001995, 0.0001585, 0.0001259,
   0.0001,    7.943e-05, 6.310e-05, 5.012e-05, 3.981e-05, 3.162e-05, 2.512e-05, 1.995e-05,
   1.585e-05, 1.259e-05, 1e-05,     7.943e-06, 6.310e-06, 5.012e-06, 3.981e-06, 3.162e-06,
   2.512e-06, 1.995e-06, 1.585e-06, 1.259e-06, 1e-06,     7.943e-07, 6.310e-07, 5.012e-07,
   3.981e-07, 3.1622e-07, 2.512e-07, 1.995e-07, 1.585e-07, 1.259e-07, 1e-07,    7.943e-08,
   6.310e-08, 5.012e-08, 3.981e-08, 3.1622e-08, 2.512e-08, 1.995e-08, 1.585e-08, 1.259e-08,
   1e-08]

/-- `Q2PerrorSize = sizeof(Q2Perror) / sizeof(*Q2Perror)`. -/
def q2PerrorSize : Nat := q2Perror.length

def minOverlap : Nat := 12
def extraTestOverlap : Nat := 2
def maxMismatches : Nat := 3
def extraMismatchesPer1000 : Nat := 150
def maxPerror : ℚ := 0.025

/-- How the overlap test ends short of a verdict: a read of `Q2Perror` outside its entries,
or a `DIE`. -/
inductive Stop
  | q2PerrorOutOfRange (index : Int)
  | die (msg : String)
  deriving DecidableEq, Repr

/-- `Q2Perror[index]`. -/
def readQ2Perror (index : Int) : Except Stop ℚ :=
  match index with
  | .ofNat n => if h : n < q2Perror.length then .ok (q2Perror.get ⟨n, h⟩)
      else .error (.q2PerrorOutOfRange index)
  | .negSucc _ => .error (.q2PerrorOutOfRange index)

/-- `s[k]` of a `std::string`: past the end the model reads `'\0'`, which C++ gives at
`size()` and leaves undefined beyond. -/
def stringAt (s : List Char) (k : Nat) : Char := s.getD k (Char.ofNat 0)

/-- A `char` as the byte `fast_count_mismatches` compares. -/
def toByte (c : Char) : UInt8 := UInt8.ofNat c.toNat

/-- `uint8_t q = quals[k] - qual_offset`. -/
def qualScore (qualOffset : Int) (c : Char) : Nat := ((charValue c - qualOffset) % 256).toNat

/-- The text of the `DIE` on an invalid quality score. -/
def invalidQualityMsg (id1 id2 : String) (qual1 qual2 : Char) (qualOffset : Int) : String :=
  "Invalid quality score for read " ++ id1 ++ " \x27" ++ qual1.toString ++ "\x27 " ++ id2 ++
    " \x27" ++ qual2.toString ++ "\x27 assuming common qual_offset of " ++ toString qualOffset ++
    ". Check the data and make sure it follows a single consistent quality scoring model " ++
    "(phred+64 vs. phred+33)"

/-- What the overlap test reads of a pair and never writes: `qual_offset`, the ids, `seq1` and
`rc_seq2`. -/
structure PairCtx where
  qualOffset : Int
  id1 : String
  id2 : String
  seq1 : List Char
  rcSeq2 : List Char

/-- The variables of the comparison of one overlap, with the two quality strings it may
write; `numMatches` is the source's `matches`, a word Lean keeps for itself. -/
structure Compare where
  numMatches : Nat
  mismatches : Nat
  bothNs : Nat
  nCount : Nat
  overlapChecked : Nat
  perror : ℚ
  abortMerge : Bool
  quals1 : List Char
  revQuals2 : List Char
  deriving DecidableEq

/-- The `N` branches of a mismatch at `k = start_i + i + j`: the quality of the `N` is reset to
`qual_offset`, and the other read's quality is looked up in `Q2Perror`. -/
def nPerror (p : PairCtx) (ps rs : Char) (k j : Nat) (c : Compare) : Except Stop Compare :=
  if ps = 'N' then
    (readQ2Perror (charValue (stringAt c.revQuals2 j) - p.qualOffset)).map fun e =>
      { c with mismatches := c.mismatches + 1, nCount := c.nCount + 1,
               quals1 := c.quals1.set k (toChar p.qualOffset), perror := c.perror + e }
  else if rs = 'N' then
    (readQ2Perror (charValue (stringAt c.quals1 k) - p.qualOffset)).map fun e =>
      { c with nCount := c.nCount + 1, mismatches := c.mismatches + 1,
               revQuals2 := c.revQuals2.set j (toChar p.qualOffset), perror := c.perror + e }
  else .ok c

/-- The `MAX_PERROR > 0.0` block of a mismatch: the `DIE` on a quality score outside
`Q2Perror`, then the probability of error from the difference of the two scores. -/
def qualityPerror (p : PairCtx) (k j : Nat) (c : Compare) : Except Stop Compare :=
  let q1 := qualScore p.qualOffset (stringAt c.quals1 k)
  let q2 := qualScore p.qualOffset (stringAt c.revQuals2 j)
  if q1 < 0 ∨ q2 < 0 ∨ q1 ≥ q2PerrorSize ∨ q2 ≥ q2PerrorSize then
    .error (.die (invalidQualityMsg p.id1 p.id2 (stringAt c.quals1 k) (stringAt c.revQuals2 j)
      p.qualOffset))
  else
    let diffq := if q1 > q2 then q1 - q2 else q2 - q1
    if diffq ≤ 2 then .ok { c with perror := c.perror + 0.5 }
    else (readQ2Perror diffq).map fun e => { c with perror := c.perror + e }

/-- A position where the bases differ. -/
def mismatchPos (p : PairCtx) (ps rs : Char) (k j : Nat) (c : Compare) : Except Stop Compare :=
  (nPerror p ps rs k j { c with mismatches := c.mismatches + 1 }).bind (qualityPerror p k j)

/-- The checks that end each position: more than three `N`s abort the merge, and too many
mismatches end the comparison. The flag says whether the loop breaks. -/
def endChecks (errorMaxMismatch : Nat) (c : Compare) : Compare × Bool :=
  if c.nCount > 3 then ({ c with abortMerge := true }, true)
  else (c, c.mismatches > errorMaxMismatch)

/-- One position `j` of the comparison, the bases `ps = seq1[k]` and `rs = rc_seq2[j]`. Two `N`s
facing each other twice abort the merge. -/
def comparePos (p : PairCtx) (errorMaxMismatch : Nat) (ps rs : Char) (k j : Nat) (c : Compare) :
    Except Stop (Compare × Bool) :=
  if ps = rs then
    let c := { c with numMatches := c.numMatches + 1 }
    if ps = 'N' then
      let c' := { c with nCount := c.nCount + 2, bothNs := c.bothNs + 1 }
      if c.bothNs ≠ 0 then .ok ({ c' with abortMerge := true }, true)
      else .ok (endChecks errorMaxMismatch c')
    else .ok (endChecks errorMaxMismatch c)
  else (mismatchPos p ps rs k j c).map (endChecks errorMaxMismatch)

/-- The loop `for (j = 0; j < overlap; j++)` from position `j`, with `n` positions left and
`base = start_i + i`. -/
def compareLoop (p : PairCtx) (base errorMaxMismatch : Nat) :
    Nat → Nat → Compare → Except Stop Compare
  | 0, _, c => .ok c
  | n + 1, j, c =>
      (comparePos p errorMaxMismatch (stringAt p.seq1 (base + j)) (stringAt p.rcSeq2 j) (base + j) j
          { c with overlapChecked := c.overlapChecked + 1 }).bind fun (c, brk) =>
        if brk then .ok c else compareLoop p base errorMaxMismatch n (j + 1) c

/-- The variables of the slide loop that outlive a shift. -/
structure Slide where
  foundI : Int
  bestI : Int
  abortMerge : Bool
  quals1 : List Char
  revQuals2 : List Char
  deriving DecidableEq

/-- The verdict on the shift `i` with overlap `overlap`: the new `best_i` and `found_i`, and
whether the slide goes on. A second good shift, or a good and an ambiguous one, clear `best_i`
and end the slide. -/
def verdict (overlap thisMaxMismatch errorMaxMismatch i : Nat) (bestI foundI : Int)
    (c : Compare) : Int × Int × Bool :=
  let matchThres := max (overlap - thisMaxMismatch) minOverlap
  if c.numMatches ≥ matchThres ∧ c.overlapChecked = overlap ∧ c.mismatches ≤ thisMaxMismatch ∧
      c.perror / overlap ≤ maxPerror then
    if bestI < 0 ∧ foundI < 0 then (i, foundI, true) else (-1, foundI, false)
  else if c.overlapChecked = overlap ∧ c.mismatches ≤ errorMaxMismatch ∧
      c.perror / overlap ≤ maxPerror * 4 / 3 then
    if bestI ≥ 0 then (-1, i, false) else (bestI, i, true)
  else (bestI, foundI, true)

/-- The body of the slide loop at shift `i`: the prefilter, the comparison and the verdict. The
flag says whether the slide goes on. -/
def slideStep (p : PairCtx) (len startI i : Nat) (s : Slide) : Except Stop (Slide × Bool) :=
  let overlap := len - i
  let thisMaxMismatch := maxMismatches + extraMismatchesPer1000 * overlap / 1000
  let errorMaxMismatch := thisMaxMismatch * 4 / 3 + 1
  if fastCountMismatches ((p.seq1.drop (startI + i)).map toByte) (p.rcSeq2.map toByte) overlap
      errorMaxMismatch > errorMaxMismatch then .ok (s, true)
  else
    (compareLoop p (startI + i) errorMaxMismatch overlap 0
        ⟨0, 0, 0, 0, 0, 0, false, s.quals1, s.revQuals2⟩).map fun c =>
      let v := verdict overlap thisMaxMismatch errorMaxMismatch i s.bestI s.foundI c
      (⟨v.2.1, v.1, c.abortMerge, c.quals1, c.revQuals2⟩, v.2.2)

/-- The loop `for (i = 0; i < len - MIN_OVERLAP + EXTRA_TEST_OVERLAP; i++)` from shift `i`, with
`n` shifts left; it breaks at the top once the merge is aborted. -/
def slideLoop (p : PairCtx) (len startI : Nat) : Nat → Nat → Slide → Except Stop Slide
  | 0, _, s => .ok s
  | n + 1, i, s =>
      if s.abortMerge then .ok s
      else (slideStep p len startI i s).bind fun (s, goOn) =>
        if goOn then slideLoop p len startI n (i + 1) s else .ok s

/-- The overlap test of `merge_reads` on a pair: `rc_seq2`, `rev_quals2`, `len` and `start_i`,
then the slide. -/
def overlapTest (qualOffset : Int) (id1 id2 : String) (seq1 quals1 seq2 quals2 : List Char) :
    Except Stop Slide :=
  match ContigsFile.revcomp seq2 with
  | .error msg => .error (.die msg)
  | .ok rcSeq2 =>
      let revQuals2 := quals2.reverse
      let len := min rcSeq2.length seq1.length
      let startI := if len = seq1.length then 0 else seq1.length - len
      slideLoop ⟨qualOffset, id1, id2, seq1, rcSeq2⟩ len startI
        (len + extraTestOverlap - minOverlap) 0 ⟨-1, -1, false, quals1, revQuals2⟩

end OverlapTest

section Merge

/-- `MAX_MATCH_QUAL = 41 + qual_offset`, a `uint8_t`. -/
def maxMatchQual (qualOffset : Int) : Int := (41 + qualOffset) % 256

/-- The position `j` of the overlap, at `k = start_i + i + j` of `seq1`, with the sequence and
qualities of the first read so far: where the bases agree their qualities add up, capped at
`MAX_MATCH_QUAL`; where they differ the base of higher quality stays, with the difference of
the qualities, at least `2` above `qual_offset`. -/
def mergePos (qualOffset : Int) (rcSeq2 revQuals2 : List Char) (k j : Nat)
    (sq : List Char × List Char) : List Char × List Char :=
  let q1 := charValue (stringAt sq.2 k)
  let q2 := charValue (stringAt revQuals2 j)
  if stringAt sq.1 k = stringAt rcSeq2 j then
    let newQual := (q1 + q2 - qualOffset) % 2 ^ 16
    (sq.1, sq.2.set k
      (toChar (if newQual > maxMatchQual qualOffset then maxMatchQual qualOffset else newQual)))
  else
    let newQual := (if q1 < q2 then q2 - q1 + qualOffset else q1 - q2 + qualOffset) % 2 ^ 8
    (if q1 < q2 then sq.1.set k (stringAt rcSeq2 j) else sq.1,
      sq.2.set k (toChar (if newQual > 2 + qualOffset then newQual else 2 + qualOffset)))

/-- The merge at the shift `i`: each position of the overlap, then the rest of `rc_seq2` and
of `rev_quals2` after the first `start_i + i + overlap` characters of `seq1` and `quals1`. -/
def mergeAt (p : PairCtx) (len startI i : Nat) (quals1 revQuals2 : List Char) :
    List Char × List Char :=
  let overlap := len - i
  let sq := (List.range overlap).foldl
    (fun sq j => mergePos p.qualOffset p.rcSeq2 revQuals2 (startI + i + j) j sq) (p.seq1, quals1)
  (sq.1.take (startI + i + overlap) ++ p.rcSeq2.drop overlap,
    sq.2.take (startI + i + overlap) ++ revQuals2.drop overlap)

/-- What `merge_reads` makes of a pair, with the slide loop `slide`: the merged read, its
sequence and qualities, or `none` when the pair is written as it came. -/
def mergePairWith (slide : PairCtx → Nat → Nat → Nat → Nat → Slide → Except Stop Slide)
    (qualOffset : Int) (id1 id2 : String) (seq1 quals1 seq2 quals2 : List Char) :
    Except Stop (Option (List Char × List Char)) :=
  match ContigsFile.revcomp seq2 with
  | .error msg => .error (.die msg)
  | .ok rcSeq2 =>
      let p : PairCtx := ⟨qualOffset, id1, id2, seq1, rcSeq2⟩
      let len := min rcSeq2.length seq1.length
      let startI := if len = seq1.length then 0 else seq1.length - len
      (slide p len startI (len + extraTestOverlap - minOverlap) 0
          ⟨-1, -1, false, quals1, quals2.reverse⟩).map fun s =>
        if s.bestI ≥ 0 ∧ s.abortMerge = false then
          some (mergeAt p len startI s.bestI.toNat s.quals1 s.revQuals2)
        else none

/-- The body of `merge_reads` for one pair. -/
def mergePair (qualOffset : Int) (id1 id2 : String) (seq1 quals1 seq2 quals2 : List Char) :
    Except Stop (Option (List Char × List Char)) :=
  mergePairWith slideLoop qualOffset id1 id2 seq1 quals1 seq2 quals2

end Merge

section Unfiltered

/-- The body of the slide loop without the prefilter. -/
def slideStepUnfiltered (p : PairCtx) (len startI i : Nat) (s : Slide) :
    Except Stop (Slide × Bool) :=
  let overlap := len - i
  let thisMaxMismatch := maxMismatches + extraMismatchesPer1000 * overlap / 1000
  let errorMaxMismatch := thisMaxMismatch * 4 / 3 + 1
  (compareLoop p (startI + i) errorMaxMismatch overlap 0
      ⟨0, 0, 0, 0, 0, 0, false, s.quals1, s.revQuals2⟩).map fun c =>
    let v := verdict overlap thisMaxMismatch errorMaxMismatch i s.bestI s.foundI c
    (⟨v.2.1, v.1, c.abortMerge, c.quals1, c.revQuals2⟩, v.2.2)

/-- The slide loop without the prefilter. -/
def slideLoopUnfiltered (p : PairCtx) (len startI : Nat) : Nat → Nat → Slide → Except Stop Slide
  | 0, _, s => .ok s
  | n + 1, i, s =>
      if s.abortMerge then .ok s
      else (slideStepUnfiltered p len startI i s).bind fun (s, goOn) =>
        if goOn then slideLoopUnfiltered p len startI n (i + 1) s else .ok s

/-- The body of `merge_reads` for one pair, without the prefilter. -/
def mergePairUnfiltered (qualOffset : Int) (id1 id2 : String)
    (seq1 quals1 seq2 quals2 : List Char) : Except Stop (Option (List Char × List Char)) :=
  mergePairWith slideLoopUnfiltered qualOffset id1 id2 seq1 quals1 seq2 quals2

theorem slideStep_eq (p : PairCtx) (len startI i : Nat) (s : Slide) :
    slideStep p len startI i s =
      let errorMaxMismatch := (maxMismatches + extraMismatchesPer1000 * (len - i) / 1000) * 4 / 3 + 1
      if fastCountMismatches ((p.seq1.drop (startI + i)).map toByte) (p.rcSeq2.map toByte) (len - i)
          errorMaxMismatch > errorMaxMismatch then .ok (s, true)
      else slideStepUnfiltered p len startI i s := rfl

end Unfiltered

section Safety

/-- A quality character that `Q2Perror` has an entry for: `qual_offset + 0, …, qual_offset + 80`. -/
def ValidQual (qualOffset : Int) (c : Char) : Prop :=
  qualOffset ≤ charValue c ∧ charValue c ≤ qualOffset + 80

instance (qualOffset : Int) : DecidablePred (ValidQual qualOffset) :=
  fun c => inferInstanceAs (Decidable (qualOffset ≤ charValue c ∧ charValue c ≤ qualOffset + 80))

/-- A quality string of length `n` in range throughout. -/
def QualsValid (qualOffset : Int) (n : Nat) (q : List Char) : Prop :=
  q.length = n ∧ ∀ c ∈ q, ValidQual qualOffset c

theorem q2PerrorSize_eq : q2PerrorSize = 81 := rfl

theorem readQ2Perror_of_lt {n : Nat} (h : n < q2PerrorSize) :
    readQ2Perror n = .ok (q2Perror.get ⟨n, h⟩) := dif_pos h

theorem readQ2Perror_of_valid {qualOffset : Int} {c : Char} (h : ValidQual qualOffset c) :
    ∃ e, readQ2Perror (charValue c - qualOffset) = .ok e := by
  obtain ⟨h0, h1⟩ := h
  rw [← Int.toNat_of_nonneg (sub_nonneg.2 h0)]
  exact ⟨_, readQ2Perror_of_lt (by rw [q2PerrorSize_eq]; omega)⟩

theorem charValue_le (c : Char) : charValue c ≤ 127 := by
  unfold charValue; split <;> omega

theorem qualScore_lt_of_valid {qualOffset : Int} {c : Char} (h : ValidQual qualOffset c) :
    qualScore qualOffset c < q2PerrorSize := by
  obtain ⟨h0, h1⟩ := h
  rw [qualScore, Int.emod_eq_of_lt (by omega) (by omega), q2PerrorSize_eq]
  omega

theorem charValue_toChar {x : Int} (h0 : 0 ≤ x) (h : x < 128) : charValue (toChar x) = x := by
  have hx : (x % 256).toNat < 128 := by rw [Int.emod_eq_of_lt h0 (by omega)]; omega
  have hc : (toChar x).toNat = (x % 256).toNat := by
    rw [toChar, Char.ofNat, dif_pos (Or.inl (by omega))]; rfl
  rw [charValue, hc, Nat.mod_eq_of_lt (by omega), if_pos hx, Int.toNat_of_nonneg (by omega),
    Int.emod_eq_of_lt h0 (by omega)]

theorem validQual_toChar {qualOffset : Int} (h0 : 0 ≤ qualOffset) (h : qualOffset < 128) :
    ValidQual qualOffset (toChar qualOffset) := by
  rw [ValidQual, charValue_toChar h0 h]; omega

theorem QualsValid.set {qualOffset : Int} {n : Nat} {q : List Char} {c : Char}
    (h : QualsValid qualOffset n q) (hc : ValidQual qualOffset c) (k : Nat) :
    QualsValid qualOffset n (q.set k c) :=
  ⟨by rw [List.length_set, h.1], fun x hx => (List.mem_or_eq_of_mem_set hx).elim (h.2 x) (· ▸ hc)⟩

theorem QualsValid.validQual_stringAt {qualOffset : Int} {n k : Nat} {q : List Char}
    (h : QualsValid qualOffset n q) (hk : k < n) : ValidQual qualOffset (stringAt q k) := by
  rw [stringAt, List.getD_eq_getElem?_getD, List.getElem?_eq_getElem (h.1 ▸ hk), Option.getD_some]
  exact h.2 _ (List.getElem_mem _)

/-- The two quality strings, `quals1` of length `n1` and `rev_quals2` of length `n2`, in range. -/
def QualsOk (p : PairCtx) (n1 n2 : Nat) (q1 q2 : List Char) : Prop :=
  QualsValid p.qualOffset n1 q1 ∧ QualsValid p.qualOffset n2 q2

@[simp] theorem endChecks_quals1 (e : Nat) (c : Compare) : (endChecks e c).1.quals1 = c.quals1 := by
  unfold endChecks; split <;> rfl

@[simp] theorem endChecks_revQuals2 (e : Nat) (c : Compare) :
    (endChecks e c).1.revQuals2 = c.revQuals2 := by
  unfold endChecks; split <;> rfl

variable {p : PairCtx} {n1 n2 k j : Nat}

theorem nPerror_ok (ps rs : Char) {c : Compare} (hoff : 0 ≤ p.qualOffset ∧ p.qualOffset < 128)
    (hv : QualsOk p n1 n2 c.quals1 c.revQuals2)
    (hk : k < n1) (hj : j < n2) :
    ∃ c', nPerror p ps rs k j c = .ok c' ∧ QualsOk p n1 n2 c'.quals1 c'.revQuals2 := by
  unfold nPerror
  by_cases hps : ps = 'N'
  · obtain ⟨e, he⟩ := readQ2Perror_of_valid (hv.2.validQual_stringAt hj)
    rw [if_pos hps, he]
    exact ⟨_, rfl, hv.1.set (validQual_toChar hoff.1 hoff.2) k, hv.2⟩
  · rw [if_neg hps]
    by_cases hrs : rs = 'N'
    · obtain ⟨e, he⟩ := readQ2Perror_of_valid (hv.1.validQual_stringAt hk)
      rw [if_pos hrs, he]
      exact ⟨_, rfl, hv.1, hv.2.set (validQual_toChar hoff.1 hoff.2) j⟩
    · rw [if_neg hrs]
      exact ⟨c, rfl, hv⟩

theorem qualityPerror_perror {c : Compare} (hv : QualsOk p n1 n2 c.quals1 c.revQuals2)
    (hk : k < n1) (hj : j < n2) : ∃ x, qualityPerror p k j c = .ok { c with perror := x } := by
  have h1 := qualScore_lt_of_valid (hv.1.validQual_stringAt hk)
  have h2 := qualScore_lt_of_valid (hv.2.validQual_stringAt hj)
  rw [q2PerrorSize_eq] at h1 h2
  unfold qualityPerror
  rw [q2PerrorSize_eq, if_neg (by omega)]
  dsimp only
  split_ifs <;> first
    | rw [readQ2Perror_of_lt (by rw [q2PerrorSize_eq]; omega)]; exact ⟨_, rfl⟩
    | exact ⟨_, rfl⟩

theorem qualityPerror_ok {c : Compare} (hv : QualsOk p n1 n2 c.quals1 c.revQuals2)
    (hk : k < n1) (hj : j < n2) :
    ∃ c', qualityPerror p k j c = .ok c' ∧ c'.quals1 = c.quals1 ∧ c'.revQuals2 = c.revQuals2 := by
  obtain ⟨x, hx⟩ := qualityPerror_perror hv hk hj
  exact ⟨_, hx, rfl, rfl⟩

theorem mismatchPos_ok (ps rs : Char) {c : Compare} (hoff : 0 ≤ p.qualOffset ∧ p.qualOffset < 128)
    (hv : QualsOk p n1 n2 c.quals1 c.revQuals2)
    (hk : k < n1) (hj : j < n2) :
    ∃ c', mismatchPos p ps rs k j c = .ok c' ∧ QualsOk p n1 n2 c'.quals1 c'.revQuals2 := by
  obtain ⟨c1, h1, hv1⟩ := nPerror_ok ps rs (c := { c with mismatches := c.mismatches + 1 }) hoff hv
    hk hj
  obtain ⟨c2, h2, hq1, hq2⟩ := qualityPerror_ok hv1 hk hj
  refine ⟨c2, ?_, hq1 ▸ hq2 ▸ hv1⟩
  rw [mismatchPos, h1]
  exact h2

theorem comparePos_ok (e : Nat) (ps rs : Char) (c : Compare)
    (hoff : 0 ≤ p.qualOffset ∧ p.qualOffset < 128) (hv : QualsOk p n1 n2 c.quals1 c.revQuals2)
    (hk : k < n1) (hj : j < n2) :
    ∃ r, comparePos p e ps rs k j c = .ok r ∧ QualsOk p n1 n2 r.1.quals1 r.1.revQuals2 := by
  unfold comparePos
  by_cases heq : ps = rs
  · rw [if_pos heq]
    dsimp only
    by_cases hN : ps = 'N'
    · rw [if_pos hN]
      split
      · exact ⟨_, rfl, hv⟩
      · exact ⟨_, rfl, by simpa using hv⟩
    · rw [if_neg hN]
      exact ⟨_, rfl, by simpa using hv⟩
  · obtain ⟨c', h, hv'⟩ := mismatchPos_ok ps rs hoff hv hk hj
    rw [if_neg heq, h]
    exact ⟨_, rfl, by simpa using hv'⟩

theorem compareLoop_ok (base e : Nat) (hoff : 0 ≤ p.qualOffset ∧ p.qualOffset < 128) :
    ∀ (n j : Nat) (c : Compare), base + j + n ≤ n1 → j + n ≤ n2 →
      QualsOk p n1 n2 c.quals1 c.revQuals2 →
      ∃ c', compareLoop p base e n j c = .ok c' ∧ QualsOk p n1 n2 c'.quals1 c'.revQuals2
  | 0, _, c, _, _, hv => ⟨c, rfl, hv⟩
  | n + 1, j, c, h1, h2, hv => by
      obtain ⟨⟨c1, b⟩, hr, hv1⟩ := comparePos_ok e (stringAt p.seq1 (base + j))
        (stringAt p.rcSeq2 j) { c with overlapChecked := c.overlapChecked + 1 } hoff hv
        (by omega : base + j < n1) (by omega : j < n2)
      rw [compareLoop, hr]
      cases b
      · exact compareLoop_ok base e hoff n (j + 1) c1 (by omega) (by omega) hv1
      · exact ⟨c1, rfl, hv1⟩

theorem slideStep_ok {len startI i : Nat} {s : Slide}
    (hoff : 0 ≤ p.qualOffset ∧ p.qualOffset < 128) (hv : QualsOk p n1 n2 s.quals1 s.revQuals2)
    (h1 : startI + len ≤ n1) (h2 : len ≤ n2) (hi : i ≤ len) :
    ∃ r, slideStep p len startI i s = .ok r ∧ QualsOk p n1 n2 r.1.quals1 r.1.revQuals2 := by
  unfold slideStep
  dsimp only
  split
  · exact ⟨_, rfl, hv⟩
  · obtain ⟨c, hc, hvc⟩ := compareLoop_ok (startI + i)
      ((maxMismatches + extraMismatchesPer1000 * (len - i) / 1000) * 4 / 3 + 1) hoff (len - i)
      0 ⟨0, 0, 0, 0, 0, 0, false, s.quals1, s.revQuals2⟩ (by omega) (by omega) hv
    rw [hc]
    exact ⟨_, rfl, hvc⟩

theorem slideLoop_ok {len startI : Nat} (hoff : 0 ≤ p.qualOffset ∧ p.qualOffset < 128)
    (h1 : startI + len ≤ n1) (h2 : len ≤ n2) :
    ∀ (n i : Nat) (s : Slide), i + n ≤ len → QualsOk p n1 n2 s.quals1 s.revQuals2 →
      ∃ s', slideLoop p len startI n i s = .ok s'
  | 0, _, s, _, _ => ⟨s, rfl⟩
  | n + 1, i, s, hi, hv => by
      rw [slideLoop]
      split
      · exact ⟨s, rfl⟩
      · obtain ⟨⟨s1, b⟩, hr, hv1⟩ := slideStep_ok (i := i) hoff hv h1 h2 (by omega)
        rw [hr]
        cases b
        · exact ⟨s1, rfl⟩
        · exact slideLoop_ok hoff h1 h2 n (i + 1) s1 (by omega) hv1

/-- The overlap test on a pair whose quality strings are as long as the reads and hold only
scores `0, …, 80` above `qual_offset`: it reads `Q2Perror` in range only and ends without a
`DIE`, for any bases the reverse complement accepts. -/
theorem overlapTest_ok (qualOffset : Int) (id1 id2 : String) {seq1 quals1 seq2 quals2 rcSeq2 : List Char}
    (hoff : 0 ≤ qualOffset ∧ qualOffset < 128) (hrc : ContigsFile.revcomp seq2 = .ok rcSeq2)
    (hq1 : quals1.length = seq1.length) (hq2 : quals2.length = seq2.length)
    (hv1 : ∀ c ∈ quals1, ValidQual qualOffset c) (hv2 : ∀ c ∈ quals2, ValidQual qualOffset c) :
    ∃ s, overlapTest qualOffset id1 id2 seq1 quals1 seq2 quals2 = .ok s := by
  have hlen := ContigsFile.length_of_revcomp_eq_ok hrc
  have hstart : (if min rcSeq2.length seq1.length = seq1.length then 0
      else seq1.length - min rcSeq2.length seq1.length) + min rcSeq2.length seq1.length ≤
        seq1.length := by
    split <;> omega
  rw [overlapTest, hrc]
  exact slideLoop_ok (p := ⟨qualOffset, id1, id2, seq1, rcSeq2⟩) hoff hstart (Nat.min_le_left _ _)
    _ 0 _ (by unfold extraTestOverlap minOverlap; omega) ⟨⟨hq1, hv1⟩, ⟨by rw [List.length_reverse, hq2, hlen], fun c hc =>
      hv2 c (List.mem_reverse.1 hc)⟩⟩

/-- Two pairs at `qual_offset = 64` with a quality `#` (Phred+33) in them. In the first, an `N`
at the start of `seq1` faces an `A` whose quality is `#`: the overlap test reads
`Q2Perror[35 - 64]`, before any check of the quality. In the second, the reads agree at every
position and the qualities are all `#`: the test takes the overlap at shift `0` without a
`DIE`. -/
theorem q2Perror_read_before_quality_check :
    overlapTest 64 "r0/1" "r0/2" "NAAAAAAAAAAA".toList "IIIIIIIIIIII".toList
        "TTTTTTTTTTTT".toList "IIIIIIIIIII#".toList = .error (.q2PerrorOutOfRange (-29)) ∧
      (overlapTest 64 "r0/1" "r0/2" "ACGTTGCAAGCT".toList "############".toList
        "AGCTTGCAACGT".toList "############".toList).map Slide.bestI = .ok 0 :=
  ⟨rfl, by with_unfolding_all rfl⟩

end Safety

section Prefilter

theorem mismatchCount_cons (x y : UInt8) (a b : List UInt8) :
    mismatchCount (x :: a) (y :: b) = (if x = y then 0 else 1) + mismatchCount a b := by
  by_cases h : x = y <;> simp [mismatchCount, List.count_cons, h]
  omega

theorem stringAt_eq_getElem {s : List Char} {k : Nat} (h : k < s.length) : stringAt s k = s[k] := by
  rw [stringAt, List.getD_eq_getElem?_getD, List.getElem?_eq_getElem h, Option.getD_some]

theorem stringAt_mem {s : List Char} {k : Nat} (h : k < s.length) : stringAt s k ∈ s :=
  stringAt_eq_getElem h ▸ List.getElem_mem h

theorem drop_eq_stringAt_cons {s : List Char} {k : Nat} (h : k < s.length) :
    s.drop k = stringAt s k :: s.drop (k + 1) := by
  rw [stringAt_eq_getElem h]
  exact List.drop_eq_getElem_cons h

theorem mismatchCount_map_cons_le (x y : Char) (a b : List Char) :
    mismatchCount ((x :: a).map toByte) ((y :: b).map toByte) ≤
      (if x = y then 0 else 1) + mismatchCount (a.map toByte) (b.map toByte) := by
  rw [List.map_cons, List.map_cons, mismatchCount_cons]
  by_cases h : x = y
  · simp [h]
  · rw [if_neg h]
    split <;> omega

theorem lt_mismatchCount_of_fast {a b : List UInt8} {len : Nat} {max : Int} (ha : a.length = len)
    (hb : len ≤ b.length) (hlen : len < 2 ^ 15) (h : max < fastCountMismatches a b len max) :
    max < mismatchCount a b := by
  refine not_le.1 fun hle => absurd h (not_lt.2 ?_)
  rw [fastCountMismatches,
    (bytePass_spec ha hlen (wordPass_progress ha hb hlen (simdPass_progress ha hb hlen))).1 hle]
  exact hle

variable {p : PairCtx} {n1 n2 : Nat}

theorem comparePos_plain (e : Nat) {ps rs : Char} {k j : Nat} {c : Compare} (hps : ps ≠ 'N')
    (hrs : rs ≠ 'N') (hv : QualsOk p n1 n2 c.quals1 c.revQuals2) (hk : k < n1) (hj : j < n2)
    (hn : c.nCount = 0) :
    ∃ c', comparePos p e ps rs k j c = .ok (c', decide (e < c'.mismatches)) ∧ c'.nCount = 0 ∧
      c'.abortMerge = c.abortMerge ∧ c'.quals1 = c.quals1 ∧ c'.revQuals2 = c.revQuals2 ∧
      c'.mismatches = c.mismatches + (if ps = rs then 0 else 1) := by
  unfold comparePos
  by_cases heq : ps = rs
  · rw [if_pos heq]
    dsimp only
    rw [if_neg hps, endChecks, if_neg (by simp [hn])]
    exact ⟨_, rfl, hn, rfl, rfl, rfl, by simp [heq]⟩
  · obtain ⟨x, hx⟩ := qualityPerror_perror (c := { c with mismatches := c.mismatches + 1 }) hv hk hj
    refine ⟨{ c with mismatches := c.mismatches + 1, perror := x }, ?_, hn, rfl, rfl, rfl,
      by simp [heq]⟩
    rw [if_neg heq, mismatchPos, nPerror, if_neg hps, if_neg hrs]
    show Except.map (endChecks e) (qualityPerror p k j { c with mismatches := c.mismatches + 1 }) = _
    rw [hx, Except.map, endChecks, if_neg (by simp [hn])]

theorem compareLoop_plain (hN1 : 'N' ∉ p.seq1) (hN2 : 'N' ∉ p.rcSeq2) (base e : Nat) :
    ∀ (n j : Nat) (c : Compare), base + j + n = p.seq1.length → j + n ≤ p.rcSeq2.length →
      base + j + n ≤ n1 → j + n ≤ n2 → QualsOk p n1 n2 c.quals1 c.revQuals2 → c.nCount = 0 →
      ∃ c', compareLoop p base e n j c = .ok c' ∧ c'.abortMerge = c.abortMerge ∧
        c'.quals1 = c.quals1 ∧ c'.revQuals2 = c.revQuals2 ∧
        (e < c'.mismatches ∨ c.mismatches + mismatchCount ((p.seq1.drop (base + j)).map toByte)
          ((p.rcSeq2.drop j).map toByte) ≤ c'.mismatches)
  | 0, j, c, h1, _, _, _, _, _ => ⟨c, rfl, rfl, rfl, rfl, .inr (by
      rw [List.drop_eq_nil_of_le (by omega : p.seq1.length ≤ base + j)]; simp [mismatchCount])⟩
  | n + 1, j, c, h1, h2, hn1, hn2, hv, hn => by
      have hps : stringAt p.seq1 (base + j) ≠ 'N' := fun h => hN1 (h ▸ stringAt_mem (by omega))
      have hrs : stringAt p.rcSeq2 j ≠ 'N' := fun h => hN2 (h ▸ stringAt_mem (by omega))
      obtain ⟨c1, hc1, hn', ha1, hq1, hr1, hm1⟩ := comparePos_plain e hps hrs (k := base + j) (j := j)
        (c := { c with overlapChecked := c.overlapChecked + 1 }) hv (by omega) (by omega) hn
      have hcount := mismatchCount_map_cons_le (stringAt p.seq1 (base + j)) (stringAt p.rcSeq2 j)
        (p.seq1.drop (base + (j + 1))) (p.rcSeq2.drop (j + 1))
      rw [← Nat.add_assoc, ← drop_eq_stringAt_cons (by omega), ← drop_eq_stringAt_cons (by omega),
        Nat.add_assoc] at hcount
      rw [compareLoop, hc1]
      by_cases hb : e < c1.mismatches
      · exact ⟨c1, by rw [decide_eq_true hb]; rfl, ha1, hq1, hr1, .inl hb⟩
      · obtain ⟨c2, hc2, ha2, hq2, hr2, hm2⟩ := compareLoop_plain hN1 hN2 base e n (j + 1) c1
          (by omega) (by omega) (by omega) (by omega) (hq1 ▸ hr1 ▸ hv) hn'
        refine ⟨c2, by rw [decide_eq_false hb]; exact hc2, ha2.trans ha1, hq2.trans hq1,
          hr2.trans hr1, ?_⟩
        simp only at hm1 ha1 hq1 hr1
        omega

theorem verdict_of_lt {overlap thisMaxMismatch e i : Nat} {bestI foundI : Int} {c : Compare}
    (ht : thisMaxMismatch ≤ e) (h : e < c.mismatches) :
    verdict overlap thisMaxMismatch e i bestI foundI c = (bestI, foundI, true) := by
  unfold verdict
  dsimp only
  rw [if_neg fun h' => absurd h'.2.2.1 (by omega), if_neg fun h' => absurd h'.2.1 (by omega)]

section Shift

variable (hN1 : 'N' ∉ p.seq1) (hN2 : 'N' ∉ p.rcSeq2) {len startI : Nat}
  (hst : startI + len = p.seq1.length) (hrc : len ≤ p.rcSeq2.length) (h1 : startI + len ≤ n1)
  (h2 : len ≤ n2)
include hN1 hN2 hst hrc h1 h2

theorem slideStepUnfiltered_plain {i : Nat} {s : Slide}
    (hv : QualsOk p n1 n2 s.quals1 s.revQuals2) (hi : i ≤ len) :
    ∃ r, slideStepUnfiltered p len startI i s = .ok r ∧ r.1.quals1 = s.quals1 ∧
      r.1.revQuals2 = s.revQuals2 ∧
      (s.abortMerge = false → (maxMismatches + extraMismatchesPer1000 * (len - i) / 1000) * 4 / 3 + 1 <
        mismatchCount ((p.seq1.drop (startI + i)).map toByte) (p.rcSeq2.map toByte) →
        r = (s, true)) := by
  obtain ⟨c, hc, ha, hq1, hq2, hm⟩ := compareLoop_plain hN1 hN2 (startI + i)
    ((maxMismatches + extraMismatchesPer1000 * (len - i) / 1000) * 4 / 3 + 1) (len - i) 0
    ⟨0, 0, 0, 0, 0, 0, false, s.quals1, s.revQuals2⟩ (by omega) (by omega) (by omega) (by omega)
    hv rfl
  refine ⟨_, by rw [slideStepUnfiltered, hc]; rfl, hq1, hq2, fun hs hlt => ?_⟩
  have hlt' : (maxMismatches + extraMismatchesPer1000 * (len - i) / 1000) * 4 / 3 + 1 <
      c.mismatches := hm.elim id fun h => by
    rw [Nat.add_zero, List.drop_zero] at h; dsimp only at h; omega
  obtain ⟨foundI, bestI, abortMerge, quals1, revQuals2⟩ := s
  simp only at hs ha hq1 hq2
  subst hs
  have ht : maxMismatches + extraMismatchesPer1000 * (len - i) / 1000 ≤
      (maxMismatches + extraMismatchesPer1000 * (len - i) / 1000) * 4 / 3 + 1 := by omega
  simp only [verdict_of_lt ht hlt', ha, hq1, hq2]

theorem slideStep_eq_unfiltered (hlen : p.seq1.length < 2 ^ 15) {i : Nat} {s : Slide}
    (hv : QualsOk p n1 n2 s.quals1 s.revQuals2) (hi : i ≤ len) (hs : s.abortMerge = false) :
    slideStep p len startI i s = slideStepUnfiltered p len startI i s := by
  obtain ⟨r, hr, -, -, hskip⟩ := slideStepUnfiltered_plain hN1 hN2 hst hrc h1 h2 hv hi
  rw [slideStep_eq]
  dsimp only
  split
  · next hpre =>
    have hmc := lt_mismatchCount_of_fast (by rw [List.length_map, List.length_drop]; omega)
      (by rw [List.length_map]; omega) (by omega) hpre
    rw [hr, hskip hs (by exact_mod_cast hmc)]
  · rfl

/-- Without `N`, the slide loop with the prefilter and the one without it agree. -/
theorem slideLoop_eq_unfiltered (hlen : p.seq1.length < 2 ^ 15) :
    ∀ (n i : Nat) (s : Slide), i + n ≤ len → QualsOk p n1 n2 s.quals1 s.revQuals2 →
      slideLoop p len startI n i s = slideLoopUnfiltered p len startI n i s
  | 0, _, _, _, _ => rfl
  | n + 1, i, s, hi, hv => by
      rw [slideLoop, slideLoopUnfiltered]
      by_cases ha : s.abortMerge = true
      · rw [if_pos ha, if_pos ha]
      · obtain ⟨⟨s1, b⟩, hr, hq1, hq2, -⟩ :=
          slideStepUnfiltered_plain hN1 hN2 hst hrc h1 h2 hv (i := i) (by omega)
        rw [if_neg ha, if_neg ha, slideStep_eq_unfiltered hN1 hN2 hst hrc h1 h2 hlen hv (by omega)
          (by simpa using ha), hr]
        cases b
        · rfl
        · exact slideLoop_eq_unfiltered hlen n (i + 1) s1 (by omega) (hq1 ▸ hq2 ▸ hv)

end Shift

theorem swapBases_ne_N {c : Char} (hc : c ∈ ['A', 'C', 'G', 'T']) : ContigsFile.swapBases c ≠ 'N' := by
  simp only [List.mem_cons, List.mem_singleton, List.not_mem_nil, or_false] at hc
  rcases hc with rfl | rfl | rfl | rfl <;> decide

/-- On a pair of reads of `A`, `C`, `G` and `T` with every quality score in range,
`merge_reads` merges, or not, exactly as it would without the prefilter: same merged sequence,
same qualities. -/
theorem prefilter_keeps_outcome_without_N (qualOffset : Int) (id1 id2 : String)
    (seq1 quals1 seq2 quals2 : List Char) (hs1 : ∀ c ∈ seq1, c ∈ ['A', 'C', 'G', 'T'])
    (hs2 : ∀ c ∈ seq2, c ∈ ['A', 'C', 'G', 'T']) (hq1 : quals1.length = seq1.length)
    (hq2 : quals2.length = seq2.length) (hv1 : ∀ c ∈ quals1, ValidQual qualOffset c)
    (hv2 : ∀ c ∈ quals2, ValidQual qualOffset c) (hlen : seq1.length < 2 ^ 15) :
    mergePair qualOffset id1 id2 seq1 quals1 seq2 quals2 =
      mergePairUnfiltered qualOffset id1 id2 seq1 quals1 seq2 quals2 := by
  have hrc := ContigsFile.revcomp_eq_swapBases fun c hc =>
    (show ['A', 'C', 'G', 'T'] ⊆ ['A', 'C', 'G', 'T', 'N'] by decide) (hs2 c hc)
  have hN1 : 'N' ∉ seq1 := fun h => absurd (hs1 _ h) (by decide)
  have hN2 : 'N' ∉ (seq2.map ContigsFile.swapBases).reverse := by
    rw [List.mem_reverse, List.mem_map]
    rintro ⟨c, hc, h⟩
    exact swapBases_ne_N (hs2 c hc) h
  have hrcl : ((seq2.map ContigsFile.swapBases).reverse).length = seq2.length := by simp
  rw [mergePair, mergePairUnfiltered, mergePairWith, mergePairWith, hrc]
  generalize (seq2.map ContigsFile.swapBases).reverse = rcSeq2 at hN2 hrcl ⊢
  have hst : (if min rcSeq2.length seq1.length = seq1.length then 0
      else seq1.length - min rcSeq2.length seq1.length) + min rcSeq2.length seq1.length =
        seq1.length := by
    split <;> omega
  dsimp only
  rw [slideLoop_eq_unfiltered (p := ⟨qualOffset, id1, id2, seq1, rcSeq2⟩) hN1 hN2 hst
    (Nat.min_le_left _ _) hst.le (Nat.min_le_left _ _) hlen _ 0 _
    (by unfold extraTestOverlap minOverlap; omega)
    ⟨⟨hq1, hv1⟩, ⟨by rw [List.length_reverse, hq2, hrcl], fun c hc => hv2 c (List.mem_reverse.1 hc)⟩⟩]

theorem prefilter_keeps_outcome_without_N_GGGG :
    ((∀ c ∈ "GGGGACGTTGCAAGCT".toList, c ∈ ['A', 'C', 'G', 'T']) ∧
        (∀ c ∈ "TCGAAGCTTGCAACGT".toList, c ∈ ['A', 'C', 'G', 'T']) ∧
        ∀ c ∈ "IIIIIIIIIIIIIIII".toList, ValidQual 33 c) ∧
      mergePair 33 "r0/1" "r0/2" "GGGGACGTTGCAAGCT".toList "IIIIIIIIIIIIIIII".toList
          "TCGAAGCTTGCAACGT".toList "IIIIIIIIIIIIIIII".toList =
        mergePairUnfiltered 33 "r0/1" "r0/2" "GGGGACGTTGCAAGCT".toList "IIIIIIIIIIIIIIII".toList
          "TCGAAGCTTGCAACGT".toList "IIIIIIIIIIIIIIII".toList :=
  ⟨⟨by decide, by decide, by decide⟩,
    prefilter_keeps_outcome_without_N 33 "r0/1" "r0/2" _ _ _ _ (by decide) (by decide) rfl rfl
      (by decide) (by decide) (by decide)⟩

/-- `seq1 = NNNNACGTTGCAAGCT` and `rc_seq2 = ACGTTGCAAGCTTCGA`, every quality `I` at
`qual_offset = 33`. The reads agree at shift 4. At shift 0 the prefilter counts 14 mismatches,
above its limit 7, and skips it, so the pair is merged at shift 4. Without the prefilter the
comparison at shift 0 meets the four `N`s of `seq1` first, and the fourth aborts the merge. -/
theorem prefilter_hides_N_abort :
    (∀ c ∈ "IIIIIIIIIIIIIIII".toList, ValidQual 33 c) ∧
      mergePair 33 "r0/1" "r0/2" "NNNNACGTTGCAAGCT".toList "IIIIIIIIIIIIIIII".toList
          "TCGAAGCTTGCAACGT".toList "IIIIIIIIIIIIIIII".toList =
        .ok (some ("NNNNACGTTGCAAGCTTCGA".toList, "IIIIJJJJJJJJJJJJIIII".toList)) ∧
      mergePairUnfiltered 33 "r0/1" "r0/2" "NNNNACGTTGCAAGCT".toList "IIIIIIIIIIIIIIII".toList
          "TCGAAGCTTGCAACGT".toList "IIIIIIIIIIIIIIII".toList = .ok none :=
  ⟨by decide, by with_unfolding_all rfl, by with_unfolding_all rfl⟩

end Prefilter

end Mhm2Proxy.MergeReads
