import Mhm2Proxy.PackedReads
import Mathlib.Algebra.Order.Field.Rat
import Mathlib.Data.List.Sort
import Mathlib.Tactic.Linarith
import Mathlib.Algebra.Order.BigOperators.Group.List

/-! The choice of an extension in the local assembly (`localassm_core.cpp`). `count_mers` adds a
vote for the base after each k-mer of a read to the k-mer's `MerFreqs`, and `set_ext` rates the
four bases by their votes and picks one, a fork `F` or a dead end `X`. Before it counts,
`count_mers` estimates the number of k-mers to size its hash table. The `double` thresholds
are held as rationals: for an `int` depth, `0.2 * depth` and `0.5 * depth` are within rounding of
the exact value and never cross an integer, so every comparison with a count comes out the same. -/

namespace Mhm2Proxy.LocalAssm

/-- Modelled from the spec: `LASSM_MIN_VIABLE_DEPTH`, the `0.2` of `min_viable = max(0.2·D, 2)`. -/
def lassmMinViableDepth : ℚ := 1 / 5

/-- Modelled from the spec: `LASSM_MIN_EXPECTED_DEPTH`, the `0.5` of
`min_expected = max(0.5·D, 2)`. -/
def lassmMinExpectedDepth : ℚ := 1 / 2

/-- `ExtCounts`: the votes for each base, in `uint16_t` counters. -/
structure ExtCounts where
  countA : Nat
  countC : Nat
  countG : Nat
  countT : Nat
  deriving DecidableEq, Repr

/-- `ExtCounts::inc_with_limit`: the sum, saturated at the largest `uint16_t`. -/
def incWithLimit (count1 count2 : Nat) : Nat := min (count1 + count2) 65535

/-- `ExtCounts::inc`: a vote for `ext`; other characters change nothing. -/
def ExtCounts.inc (e : ExtCounts) (ext : Char) (count : Nat) : ExtCounts :=
  match ext with
  | 'A' => { e with countA := incWithLimit e.countA count }
  | 'C' => { e with countC := incWithLimit e.countC count }
  | 'G' => { e with countG := incWithLimit e.countG count }
  | 'T' => { e with countT := incWithLimit e.countT count }
  | _ => e

/-- `MerFreqs`: the high-quality and all votes of a k-mer's extensions. -/
structure MerFreqs where
  hiQExts : ExtCounts
  lowQExts : ExtCounts
  deriving DecidableEq, Repr

/-- The vote of `count_mers` for the extension `ext` read with quality `qual`: a vote in
`low_q_exts` from `LASSM_MIN_QUAL` up and one in `hi_q_exts` from `LASSM_MIN_HI_QUAL` up. -/
def MerFreqs.countExt (mf : MerFreqs) (ext : Char) (qual lassmMinQual lassmMinHiQual : Int) :
    MerFreqs :=
  let mf := if qual ≥ lassmMinQual then { mf with lowQExts := mf.lowQExts.inc ext 1 } else mf
  if qual ≥ lassmMinHiQual then { mf with hiQExts := mf.hiQExts.inc ext 1 } else mf

/-- `MerFreqs::MerBase`. -/
structure MerBase where
  base : Char
  nvotesHiQ : Nat
  nvotes : Nat
  rating : Nat
  deriving DecidableEq, Repr

/-- `min_viable = max(LASSM_MIN_VIABLE_DEPTH * depth, 2.0)`. -/
def minViable (depth : Int) : ℚ := max (lassmMinViableDepth * depth) 2

/-- `min_expected_depth = max(LASSM_MIN_EXPECTED_DEPTH * depth, 2.0)`. -/
def minExpectedDepth (depth : Int) : ℚ := max (lassmMinExpectedDepth * depth) 2

/-- `MerBase::get_base_rating`: the rating ladder from 0 to 7. -/
def MerBase.getBaseRating (mb : MerBase) (depth : Int) : Nat :=
  let minViable := minViable depth
  let minExpectedDepth := minExpectedDepth depth
  let nvotes : ℚ := mb.nvotes
  let nvotesHiQ : ℚ := mb.nvotesHiQ
  if mb.nvotes = 0 then 0
  else if mb.nvotes = 1 then 1
  else if nvotes < minViable then 2
  else if minExpectedDepth > nvotes ∧ nvotes ≥ minViable ∧ nvotesHiQ < minViable then 3
  else if minExpectedDepth > nvotes ∧ nvotes ≥ minViable ∧ nvotesHiQ ≥ minViable then 4
  else if nvotes ≥ minExpectedDepth ∧ nvotesHiQ < minViable then 5
  else if nvotes ≥ minExpectedDepth ∧ minViable < nvotesHiQ ∧ nvotesHiQ < minExpectedDepth then 6
  else 7

/-- The comparator of the `sort` in `set_ext`: rating, then high-quality votes, then votes, all
descending, and `true` on equal keys. -/
def sortCmp (elem1 elem2 : MerBase) : Bool :=
  if elem1.rating ≠ elem2.rating then elem1.rating > elem2.rating
  else if elem1.nvotesHiQ ≠ elem2.nvotesHiQ then elem1.nvotesHiQ > elem2.nvotesHiQ
  else if elem1.nvotes ≠ elem2.nvotes then elem1.nvotes > elem2.nvotes
  else true

/-- The four bases of `set_ext`, rated, in the order of `mer_bases`. -/
def MerFreqs.merBases (mf : MerFreqs) (seqDepth : Int) : List MerBase :=
  ([⟨'A', mf.hiQExts.countA, mf.lowQExts.countA, 0⟩, ⟨'C', mf.hiQExts.countC, mf.lowQExts.countC, 0⟩,
    ⟨'G', mf.hiQExts.countG, mf.lowQExts.countG, 0⟩, ⟨'T', mf.hiQExts.countT, mf.lowQExts.countT, 0⟩] :
      List MerBase).map fun mb => { mb with rating := mb.getBaseRating seqDepth }

/-- The choice of `set_ext` from the sorted bases, for a top rating at least the runner-up's. -/
def chooseExt (lassmRatingThres : Nat) (m0 m1 m2 : MerBase) : Char :=
  let topRating := m0.rating
  let runnerUpRating := m1.rating
  if topRating > lassmRatingThres then
    if topRating ≤ 3 then (if runnerUpRating = 0 then m0.base else 'X')
    else if topRating < 6 then (if runnerUpRating < 3 then m0.base else 'X')
    else if topRating = 6 then (if runnerUpRating < 4 then m0.base else 'X')
    else if runnerUpRating < 7 then m0.base
    else if m2.rating = 7 ∨ m0.nvotes = m1.nvotes then 'F'
    else if m0.nvotes > m1.nvotes then m0.base
    else if m1.nvotes > m0.nvotes then m1.base
    else 'X'
  else 'X'

/-- `MerFreqs::set_ext(seq_depth)`: the extension chosen, or the "top_rating < runner_up" `DIE`.
The `std::sort` is an insertion sort under the code's comparator; as that comparator is true on
equal keys, the order of bases with equal rating and votes is unspecified. -/
def MerFreqs.setExt (mf : MerFreqs) (seqDepth : Int) (lassmRatingThres : Nat) :
    Except String Char :=
  match (mf.merBases seqDepth).insertionSort (fun a b => sortCmp a b = true) with
  | m0 :: m1 :: m2 :: _ =>
      if m0.rating < m1.rating then
        .error ("top_rating " ++ toString m0.rating ++ " < " ++ toString m1.rating ++ "\n")
      else .ok (chooseExt lassmRatingThres m0 m1 m2)
  | _ => .ok 'X'

/-- One more high-quality vote for `b`: both of its counters go up by one. -/
def MerFreqs.hiQVote (mf : MerFreqs) (b : Char) : MerFreqs :=
  { hiQExts := mf.hiQExts.inc b 1, lowQExts := mf.lowQExts.inc b 1 }

/-- Depth 10: the viable threshold is 2 and the expected one 5. `A` has 2 high-quality votes of
5 and rates 7, as `nvotes_hi_q = min_viable` falls through the ladder; `C` has 5 low-quality votes
and rates 5. For every `LASSM_RATING_THRES` below 7, `set_ext` picks `A`. One more high-quality
vote for `A` gives 3 of 6, rating 6; with the runner-up at 5, `set_ext` gives `X`. -/
theorem set_ext_not_monotone (lassmRatingThres : Nat) :
    (⟨⟨2, 0, 0, 0⟩, ⟨5, 5, 0, 0⟩⟩ : MerFreqs).setExt 10 lassmRatingThres =
        .ok (if lassmRatingThres < 7 then 'A' else 'X') ∧
      (MerFreqs.hiQVote ⟨⟨2, 0, 0, 0⟩, ⟨5, 5, 0, 0⟩⟩ 'A').setExt 10 lassmRatingThres = .ok 'X' := by
  have hbefore : (⟨⟨2, 0, 0, 0⟩, ⟨5, 5, 0, 0⟩⟩ : MerFreqs).merBases 10 =
      [⟨'A', 2, 5, 7⟩, ⟨'C', 0, 5, 5⟩, ⟨'G', 0, 0, 0⟩, ⟨'T', 0, 0, 0⟩] := by
    with_unfolding_all rfl
  have hafter : (MerFreqs.hiQVote ⟨⟨2, 0, 0, 0⟩, ⟨5, 5, 0, 0⟩⟩ 'A').merBases 10 =
      [⟨'A', 3, 6, 6⟩, ⟨'C', 0, 5, 5⟩, ⟨'G', 0, 0, 0⟩, ⟨'T', 0, 0, 0⟩] := by
    with_unfolding_all rfl
  rw [MerFreqs.setExt, MerFreqs.setExt, hbefore, hafter]
  constructor
  · show Except.ok (chooseExt lassmRatingThres ⟨'A', 2, 5, 7⟩ ⟨'C', 0, 5, 5⟩ ⟨'G', 0, 0, 0⟩) = _
    by_cases h : lassmRatingThres < 7 <;> simp [chooseExt, h]
  · show Except.ok (chooseExt lassmRatingThres ⟨'A', 3, 6, 6⟩ ⟨'C', 0, 5, 5⟩ ⟨'G', 0, 0, 0⟩) = _
    simp [chooseExt]

section CountMers

open PackedReads (charValue)
open Istream (toSizeT sizeMax toSizeT_neg_one toSizeT_cast toSizeT_natCast toInt32 toInt32_congr
  toInt32_emod toInt32_of_lt toInt32_add)

/-- A read of the local assembly as `count_mers` reads it: its bases and qualities. -/
structure ReadSeq where
  seq : List Char
  quals : List Char
  deriving DecidableEq, Repr

/-- `mers_ht`: the k-mers met so far with their votes, in the order they were inserted. -/
abbrev MerMap := List (List Char × MerFreqs)

/-- `MerFreqs` with no votes, as `count_mers` inserts a new k-mer. -/
def MerFreqs.zero : MerFreqs := ⟨⟨0, 0, 0, 0⟩, ⟨0, 0, 0, 0⟩⟩

/-- `mers_ht.find(mer)`, with `insert({mer, {0}})` when it is not there. -/
def findOrInsert (ht : MerMap) (mer : List Char) : MerMap :=
  if ht.any fun e => e.1 = mer then ht else ht ++ [(mer, MerFreqs.zero)]

variable (merLen : Nat) (qualOffset lassmMinQual lassmMinHiQual : Int)

/-- One `start` of the inner loop of `count_mers` on the read `r`: a k-mer holding an `N` is
skipped; any other is found or inserted, and the base after it, unless `N`, votes with its
quality. -/
def countMer (r : ReadSeq) (ht : MerMap) (start : Nat) : MerMap :=
  let mer := (r.seq.drop start).take merLen
  if 'N' ∈ mer then ht
  else
    let ht := findOrInsert ht mer
    let ext := r.seq.getD (start + merLen) (Char.ofNat 0)
    if ext = 'N' then ht
    else
      let qual := charValue (r.quals.getD (start + merLen) (Char.ofNat 0)) - qualOffset
      ht.map fun e =>
        if e.1 = mer then (e.1, e.2.countExt ext qual lassmMinQual lassmMinHiQual) else e

/-- One read of `count_mers`: none of it if `mer_len >= length`, else the `length - mer_len`
k-mers that a base follows. -/
def countRead (ht : MerMap) (r : ReadSeq) : MerMap :=
  if merLen ≥ r.seq.length then ht
  else (List.range (r.seq.length - merLen)).foldl
    (countMer merLen qualOffset lassmMinQual lassmMinHiQual r) ht

variable (lassmMaxCountMersReads : Nat)

/-- The read loop of `count_mers` after `numReads` reads, with `numReadsTotal = reads.size()`:
once past `LASSM_MAX_COUNT_MERS_READS` reads it breaks, and `excess_reads` gains the reads
over the limit. -/
def countReads (numReadsTotal : Nat) : Nat → List ReadSeq → MerMap → MerMap × Nat
  | _, [], ht => (ht, 0)
  | numReads, r :: rs, ht =>
      if numReads + 1 > lassmMaxCountMersReads then
        (ht, numReadsTotal - lassmMaxCountMersReads)
      else
        countReads numReadsTotal (numReads + 1) rs
          (countRead merLen qualOffset lassmMinQual lassmMinHiQual ht r)

/-- `max_mers += reads[i].seq.length() - mer_len`: the difference and the sum are taken in
`size_t`, and the sum is stored back in the `int`. -/
def addMers (maxMers : Int) (r : ReadSeq) : Int :=
  toInt32 ((toSizeT maxMers + toSizeT (r.seq.length - merLen : Int)) % 2 ^ 64 : Nat)

/-- `max_mers`, the rough estimate of `count_mers` over its first
`min(reads.size(), LASSM_MAX_COUNT_MERS_READS)` reads. -/
def maxMersEstimate (reads : List ReadSeq) : Int :=
  (reads.take (min reads.length lassmMaxCountMersReads)).foldl (addMers merLen) 0

/-- The capacity `mers_ht.reserve(max_mers)` receives, a `size_t`. -/
def reserveCapacity (reads : List ReadSeq) : Nat :=
  toSizeT (maxMersEstimate merLen lassmMaxCountMersReads reads)

/-- `mers_ht.reserve(capacity)`. The table's type is not under `src/`: the model takes the
largest capacity it can allocate, `maxReserve`, past which `reserve` throws. -/
def reserve (maxReserve capacity : Nat) : Except String Unit :=
  if capacity ≤ maxReserve then .ok () else .error "mers_ht.reserve failed"

/-- `count_mers`: `mers_ht.reserve(max_mers)`, then the k-mers with their votes and the
extension `set_ext` chose for each, and what `excess_reads` gains. -/
def countMers (maxReserve : Nat) (reads : List ReadSeq) (seqDepth : Int) (lassmRatingThres : Nat) :
    Except String (List (List Char × MerFreqs × Char)) × Nat :=
  match reserve maxReserve (reserveCapacity merLen lassmMaxCountMersReads reads) with
  | .error e => (.error e, 0)
  | .ok () =>
      let counted := countReads merLen qualOffset lassmMinQual lassmMinHiQual
        lassmMaxCountMersReads reads.length 0 reads []
      (counted.1.mapM fun e =>
          (e.2.setExt seqDepth lassmRatingThres).map fun ext => (e.1, e.2, ext),
        counted.2)

/-- The k-mer positions the read loop of `count_mers` visits: `max(0, length - mer_len)` for
each read it counts. -/
def kmerPositions (reads : List ReadSeq) : Nat :=
  ((reads.take lassmMaxCountMersReads).map fun r => r.seq.length - merLen).sum

theorem addMers_eq (m : Int) (r : ReadSeq) :
    addMers merLen m r = toInt32 (m + (r.seq.length - merLen : Int)) := by
  have h : (2 : Int) ^ 32 ∣ 2 ^ 64 := pow_dvd_pow 2 (by decide)
  apply toInt32_congr
  rw [Int.natCast_mod, Int.natCast_add, Nat.cast_pow, Nat.cast_ofNat, toSizeT_cast, toSizeT_cast,
    Int.emod_emod_of_dvd _ h, Int.add_emod, Int.emod_emod_of_dvd _ h, Int.emod_emod_of_dvd _ h,
    ← Int.add_emod]

theorem foldl_addMers (a : Int) :
    ∀ rs : List ReadSeq, rs.foldl (addMers merLen) (toInt32 a) =
      toInt32 (a + (rs.map fun r => (r.seq.length - merLen : Int)).sum)
  | [] => by simp
  | r :: rs => by
      rw [List.foldl_cons, addMers_eq, toInt32_add, foldl_addMers, List.map_cons, List.sum_cons,
        Int.add_assoc]

theorem maxMersEstimate_eq (reads : List ReadSeq) :
    maxMersEstimate merLen lassmMaxCountMersReads reads =
      toInt32 (((reads.take lassmMaxCountMersReads).map
        fun r => (r.seq.length - merLen : Int)).sum) := by
  rw [maxMersEstimate, ← List.take_take, List.take_of_length_le (List.length_take_le' _ _),
    ← Int.zero_add (List.sum _), ← foldl_addMers]
  rfl

theorem sum_sub_of_le :
    ∀ {rs : List ReadSeq}, (∀ r ∈ rs, merLen ≤ r.seq.length) →
      (rs.map fun r => (r.seq.length - merLen : Int)).sum =
        ((rs.map fun r => r.seq.length - merLen).sum : Nat)
  | [], _ => rfl
  | r :: rs, h => by
      rw [List.map_cons, List.sum_cons, sum_sub_of_le fun r' hr => h r' (List.mem_cons_of_mem _ hr),
        List.map_cons, List.sum_cons, Nat.cast_add, Nat.cast_sub (h r (List.mem_cons_self _ _))]

theorem reserveCapacity_of_le {reads : List ReadSeq}
    (h : ∀ r ∈ reads.take lassmMaxCountMersReads, merLen ≤ r.seq.length)
    (hfit : kmerPositions merLen lassmMaxCountMersReads reads < 2 ^ 31) :
    reserveCapacity merLen lassmMaxCountMersReads reads =
      kmerPositions merLen lassmMaxCountMersReads reads := by
  rw [reserveCapacity, maxMersEstimate_eq, sum_sub_of_le merLen h, toInt32_of_lt (by omega)
    (by exact_mod_cast hfit)]
  exact toSizeT_natCast (lt_trans hfit (by decide))

theorem kmerPositions_le {reads : List ReadSeq} {readLen : Nat}
    (h : ∀ r ∈ reads.take lassmMaxCountMersReads, r.seq.length ≤ readLen) :
    kmerPositions merLen lassmMaxCountMersReads reads ≤ lassmMaxCountMersReads * readLen :=
  calc ((reads.take lassmMaxCountMersReads).map fun r => r.seq.length - merLen).sum
      ≤ ((reads.take lassmMaxCountMersReads).map fun _ => readLen).sum :=
        List.sum_le_sum fun r hr => (Nat.sub_le _ _).trans (h r hr)
    _ = (reads.take lassmMaxCountMersReads).length * readLen := by simp
    _ ≤ lassmMaxCountMersReads * readLen := Nat.mul_le_mul_right _ (List.length_take_le _ _)

theorem findOrInsert_length (ht : MerMap) (mer : List Char) :
    (findOrInsert ht mer).length ≤ ht.length + 1 := by
  unfold findOrInsert
  split <;> simp

theorem countMer_length (r : ReadSeq) (ht : MerMap) (start : Nat) :
    (countMer merLen qualOffset lassmMinQual lassmMinHiQual r ht start).length ≤ ht.length + 1 := by
  unfold countMer
  dsimp only
  split
  · omega
  · split
    · exact findOrInsert_length _ _
    · rw [List.length_map]
      exact findOrInsert_length _ _

theorem foldl_countMer_length (r : ReadSeq) :
    ∀ (starts : List Nat) (ht : MerMap),
      (starts.foldl (countMer merLen qualOffset lassmMinQual lassmMinHiQual r) ht).length ≤
        ht.length + starts.length
  | [], _ => by simp
  | start :: starts, ht => by
      have := countMer_length merLen qualOffset lassmMinQual lassmMinHiQual r ht start
      have := foldl_countMer_length r starts
        (countMer merLen qualOffset lassmMinQual lassmMinHiQual r ht start)
      rw [List.foldl_cons, List.length_cons]
      omega

theorem countRead_length (ht : MerMap) (r : ReadSeq) :
    (countRead merLen qualOffset lassmMinQual lassmMinHiQual ht r).length ≤
      ht.length + (r.seq.length - merLen) := by
  unfold countRead
  split
  · omega
  · simpa using foldl_countMer_length merLen qualOffset lassmMinQual lassmMinHiQual r
      (List.range (r.seq.length - merLen)) ht

theorem countReads_length (numReadsTotal : Nat) :
    ∀ (numReads : Nat) (reads : List ReadSeq) (ht : MerMap),
      (countReads merLen qualOffset lassmMinQual lassmMinHiQual lassmMaxCountMersReads numReadsTotal
          numReads reads ht).1.length ≤
        ht.length + kmerPositions merLen (lassmMaxCountMersReads - numReads) reads
  | _, [], _ => by simp [countReads]
  | numReads, r :: rs, ht => by
      unfold countReads
      split
      · exact Nat.le_add_right _ _
      · have hr := countRead_length merLen qualOffset lassmMinQual lassmMinHiQual ht r
        have := countReads_length numReadsTotal (numReads + 1) rs
          (countRead merLen qualOffset lassmMinQual lassmMinHiQual ht r)
        have htake : lassmMaxCountMersReads - numReads =
            lassmMaxCountMersReads - (numReads + 1) + 1 := by omega
        rw [kmerPositions, htake, List.take_succ_cons, List.map_cons, List.sum_cons]
        rw [kmerPositions] at this
        omega

/-- One read `A` at `mer_len = 2`: `length - mer_len` is `2 ^ 64 - 1` as a `size_t` and `-1`
once folded into the `int`, so `reserve` receives the largest `size_t` where the read has no
k-mer position. This holds for every `LASSM_MAX_COUNT_MERS_READS` from 1 up. -/
theorem short_read_wraps_reserve (lassmMaxCountMersReads : Nat) :
    maxMersEstimate 2 (lassmMaxCountMersReads + 1) [⟨['A'], ['I']⟩] = -1 ∧
      reserveCapacity 2 (lassmMaxCountMersReads + 1) [⟨['A'], ['I']⟩] = sizeMax ∧
      kmerPositions 2 (lassmMaxCountMersReads + 1) [⟨['A'], ['I']⟩] = 0 := by
  have hest : maxMersEstimate 2 (lassmMaxCountMersReads + 1) [⟨['A'], ['I']⟩] = -1 := by
    rw [maxMersEstimate_eq, List.take_succ_cons, List.take_nil]
    rfl
  exact ⟨hest, by rw [reserveCapacity, hest, toSizeT_neg_one], by simp [kmerPositions]⟩

end CountMers

end Mhm2Proxy.LocalAssm
