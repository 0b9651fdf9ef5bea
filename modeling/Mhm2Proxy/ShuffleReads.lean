import Mhm2Proxy.Istream
import Mathlib.Algebra.Order.Ring.Nat
import Mathlib.Algebra.BigOperators.Group.List
import Mathlib.Algebra.BigOperators.Ring.List
import Mathlib.Data.List.Count

namespace Mhm2Proxy.ShuffleReads

open Istream (toInt32 toInt32_of_lt)

/-! `shuffle_reads` moves every read pair to the process that holds the contig most of its
k-mers hit. `compute_read_locations` gives each mapped read a target from a shared counter,
`move_reads_to_targets` looks the target up for each pair and sends the pair through an
aggregating store, and the store's update function appends the pair on its target. The
updates arrive in any order; each arrives once. -/

/-- A `PackedRead`: its id, negative for the first read of a pair, and its packed bases and
qualities. -/
structure PackedRead where
  readId : Int
  bytes : List UInt8
  deriving DecidableEq, Repr

/-- The update `{packed_read1, packed_read2}` that `move_reads_to_targets` sends to process
`target` through `read_seq_store`. -/
structure PairUpdate where
  target : Nat
  read1 : PackedRead
  read2 : PackedRead
  deriving DecidableEq, Repr

/-- `ceil((double)total / rank_n())` on totals below `2 ^ 53`, which the double holds exactly:
the rounded quotient has the ceiling of the exact one, since the fraction of a quotient `q + f`
that is not whole is at least `q / total`, over half the spacing of the doubles near `q`. -/
def ceilDiv (a b : Nat) : Nat := (a + b - 1) / b

/-- `int block = ceil((double)total / rank_n())`: the ceiling, or `INT_MIN` when it is past
`INT_MAX`, which is what the x86 conversion `cvttsd2si` gives (C++ leaves it undefined). -/
def intBlock (total rankN : Nat) : Int :=
  if ceilDiv total rankN < 2 ^ 31 then ceilDiv total rankN else -2 ^ 31

/-- The target `read_slot / block` of the read at `slot`: the `int64_t` quotient, truncated
toward zero, passed to the rpc as its `int target`. -/
def slotTarget (block : Int) (slot : Nat) : Int := toInt32 (Int.tdiv slot block)

/-- The inserts into `read_to_target_map` that `compute_read_locations` makes on one process:
the read ids of its cid map in turn, the first at the slot its fetch-add returned and each next
one two slots on, each with the target of its slot. -/
def readSlots (block : Int) : Nat → List Int → List (Int × Int)
  | _, [] => []
  | slot, readId :: ids => (readId, slotTarget block slot) :: readSlots block (slot + 2) ids

/-- The values the fetch-adds on the shared read counter return when the processes apply them
in `order`, process `r` adding `counts r`. -/
def fetchAddBases (counts : Nat → Nat) : Nat → List Nat → List (Nat × Nat)
  | _, [] => []
  | counter, r :: rs => (r, counter) :: fetchAddBases counts (counter + counts r) rs

/-- `compute_read_locations`: all inserts into `read_to_target_map`, process by process in the
order of their fetch-adds. `entries r` are the read ids in the cid map of process `r`, one per
(cid, read) entry, and each counts for two reads. -/
def readLocations (rankN : Nat) (entries : Nat → List Int) (order : List Nat) :
    List (Int × Int) :=
  let counts := fun r => 2 * (entries r).length
  let block := intBlock ((List.range rankN).map counts).sum rankN
  (fetchAddBases counts 0 order).flatMap fun e => readSlots block e.2 (entries e.1)

/-- The lookup the rpc of `move_reads_to_targets` makes in `read_to_target_map`, built by the
inserts `inserts` in the order they arrived: `insert` keeps the first target of a read, and
the lookup gives `-1` for a read that is not there. -/
def findTarget (inserts : List (Int × Int)) (readId : Int) : Int :=
  match inserts.find? fun e => e.1 = readId with
  | some e => e.2
  | none => -1

/-- The loop of `move_reads_to_targets` over one `PackedReads`: reads `i` and `i + 1` for
`i = 0, 2, 4, …`, with the `DIE` of `operator[]` when a list of odd length runs out. -/
def readPairsFrom (size : Nat) : Nat → List PackedRead →
    Except String (List (PackedRead × PackedRead))
  | _, [] => .ok []
  | i, [_] => .error ("Array index out of bound " ++ toString (i + 1) ++ " >= " ++ toString size)
  | i, r1 :: r2 :: rest => do
      let pairs ← readPairsFrom size (i + 2) rest
      pure ((r1, r2) :: pairs)

/-- The `.then` callback's target for a pair: the one `read_to_target_map` holds, or
`randint(0, rank_n() - 1)` when the read is not there, and a `DIE` when it is out of range. -/
def pickTarget (rankN : Nat) (found : Int) (random : Nat) : Except String Nat :=
  let target : Int := if found = -1 then random else found
  if target < 0 ∨ rankN ≤ target then .error ("target out of range " ++ toString target)
  else .ok target.toNat

/-- `move_reads_to_targets` on one process: the updates it sends, pair by pair. `random k` is
the value `randint` gives for the `k`-th pair, if it is asked. -/
def moveReadsToTargets (rankN : Nat) (inserts : List (Int × Int)) (random : Nat → Nat)
    (packedReadsList : List (List PackedRead)) : Except String (List PairUpdate) := do
  let pairs ← packedReadsList.mapM fun reads => readPairsFrom reads.length 0 reads
  pairs.flatten.enum.mapM fun e => do
    let target ← pickTarget rankN (findTarget inserts e.2.1.readId.natAbs) (random e.1)
    pure ⟨target, e.2.1, e.2.2⟩

/-- The update function of `read_seq_store`, run on the target: push both reads. -/
def applyUpdate (newPackedReads : Nat → List PackedRead) (u : PairUpdate) :
    Nat → List PackedRead :=
  Function.update newPackedReads u.target (newPackedReads u.target ++ [u.read1, u.read2])

/-- The new read list of every process after the updates arrive in the order `delivered`. -/
def deliverUpdates (delivered : List PairUpdate) : Nat → List PackedRead :=
  delivered.foldl applyUpdate fun _ => []

/-- The check at the end of `shuffle_reads`: `true` when it warns "Not all reads shuffled",
the reads after the shuffle not adding up to the reads before. -/
def notAllReadsShuffled (rankN : Nat) (packedReadsLists : Nat → List (List PackedRead))
    (newPackedReads : Nat → List PackedRead) : Bool :=
  ((List.range rankN).map fun q => (newPackedReads q).length).sum !=
    ((List.range rankN).map fun p => ((packedReadsLists p).map List.length).sum).sum

/-- The reads of a list of pairs, as `merge_reads` lays them out: each pair at two adjacent
positions, its first read first. -/
def pairReads (pairs : List (PackedRead × PackedRead)) : List PackedRead :=
  pairs.flatMap fun p => [p.1, p.2]

@[simp] theorem pairReads_cons (p : PackedRead × PackedRead) (ps : List (PackedRead × PackedRead)) :
    pairReads (p :: ps) = p.1 :: p.2 :: pairReads ps := rfl

@[simp] theorem length_pairReads (pairs : List (PackedRead × PackedRead)) :
    (pairReads pairs).length = 2 * pairs.length := by
  induction pairs with
  | nil => rfl
  | cons p ps ih => simp only [pairReads_cons, List.length_cons, ih]; omega

@[simp] theorem pairReads_append (ps qs : List (PackedRead × PackedRead)) :
    pairReads (ps ++ qs) = pairReads ps ++ pairReads qs := List.flatMap_append _ _ _

theorem flatten_map_pairReads (pairs : List (List (PackedRead × PackedRead))) :
    (pairs.map pairReads).flatten = pairReads pairs.flatten := by
  induction pairs with
  | nil => rfl
  | cons ps pairs ih => rw [List.map_cons, List.flatten_cons, ih, List.flatten_cons, pairReads_append]

theorem flatten_map_comp_pairReads {α : Type} (l : List α)
    (g : α → List (PackedRead × PackedRead)) :
    (l.map fun x => pairReads (g x)).flatten = pairReads (l.map g).flatten := by
  rw [← flatten_map_pairReads, List.map_map]
  rfl

theorem sum_map_length {α : Type} (l : List Nat) (g : Nat → List α) :
    (l.map fun q => (g q).length).sum = (l.map g).flatten.length := by
  rw [List.length_flatten, List.map_map]
  rfl

section Locations

theorem fetchAddBases_le (counts : Nat → Nat) :
    ∀ {order : List Nat} {counter r base : Nat}, (r, base) ∈ fetchAddBases counts counter order →
      base + counts r ≤ counter + (order.map counts).sum
  | [], _, _, _, h => by simp [fetchAddBases] at h
  | r' :: rs, counter, r, base, h => by
      rcases List.mem_cons.1 h with h | h
      · cases h
        simp
      · have := fetchAddBases_le counts h
        simp only [List.map_cons, List.sum_cons]
        omega

theorem le_mul_ceilDiv {a b : Nat} (hb : 0 < b) : a ≤ b * ceilDiv a b := by
  have h1 := Nat.div_add_mod (a + b - 1) b
  have h2 := Nat.mod_lt (a + b - 1) hb
  unfold ceilDiv
  omega

theorem slot_div_lt {rankN total slot : Nat} (hn : 0 < rankN) (hslot : slot < total) :
    slot / ceilDiv total rankN < rankN := by
  have hmul := le_mul_ceilDiv (a := total) hn
  have hpos : 0 < ceilDiv total rankN := Nat.pos_of_ne_zero fun h0 => by rw [h0] at hmul; omega
  exact (Nat.div_lt_iff_lt_mul hpos).2 (by omega)

theorem intBlock_of_lt {total rankN : Nat} (h : ceilDiv total rankN < 2 ^ 31) :
    intBlock total rankN = ceilDiv total rankN := if_pos h

theorem slotTarget_natCast {b slot : Nat} (h : slot / b < 2 ^ 31) :
    slotTarget b slot = (slot / b : Nat) := by
  rw [slotTarget, ← Int.ofNat_tdiv, toInt32_of_lt (Int.natCast_nonneg _) (by exact_mod_cast h)]

theorem readSlots_target_lt {rankN total : Nat} (hn : 0 < rankN) (hrank : rankN < 2 ^ 31) :
    ∀ {ids : List Int} {slot : Nat} {e : Int × Int}, slot + 2 * ids.length ≤ total →
      e ∈ readSlots (ceilDiv total rankN) slot ids → 0 ≤ e.2 ∧ e.2 < rankN
  | [], _, _, _, h => by simp [readSlots] at h
  | i :: ids, slot, e, hle, h => by
      simp only [List.length_cons] at hle
      rcases List.mem_cons.1 h with rfl | h
      · have hlt : slot / ceilDiv total rankN < rankN := slot_div_lt hn (by omega)
        simp only [slotTarget_natCast (show slot / ceilDiv total rankN < 2 ^ 31 by omega)]
        exact ⟨Int.natCast_nonneg _, by exact_mod_cast hlt⟩
      · exact readSlots_target_lt hn hrank (by omega) h

theorem readLocations_target_lt {rankN : Nat} {entries : Nat → List Int} {order : List Nat}
    (hn : 0 < rankN) (hrank : rankN < 2 ^ 31) (horder : order.Perm (List.range rankN))
    (hblock : ceilDiv ((List.range rankN).map fun r => 2 * (entries r).length).sum rankN < 2 ^ 31)
    {e : Int × Int} (he : e ∈ readLocations rankN entries order) : 0 ≤ e.2 ∧ e.2 < rankN := by
  simp only [readLocations, intBlock_of_lt hblock] at he
  obtain ⟨⟨r, base⟩, hrb, he⟩ := List.mem_flatMap.1 he
  have hle := fetchAddBases_le (fun r => 2 * (entries r).length) hrb
  rw [(horder.map _).sum_eq] at hle
  exact readSlots_target_lt hn hrank (by simpa using hle) he

theorem findTarget_range {rankN : Nat} {inserts : List (Int × Int)}
    (hins : ∀ e ∈ inserts, 0 ≤ e.2 ∧ e.2 < rankN) (readId : Int) :
    findTarget inserts readId = -1 ∨
      (0 ≤ findTarget inserts readId ∧ findTarget inserts readId < rankN) := by
  unfold findTarget
  split
  · rename_i e he
    exact .inr (hins e (List.mem_of_find?_eq_some he))
  · exact .inl rfl

theorem flatMap_fetchAddBases (counts : Nat → Nat) :
    ∀ (order : List Nat) (counter : Nat),
      ((fetchAddBases counts counter order).flatMap fun e => List.range' e.2 (counts e.1)) =
        List.range' counter (order.map counts).sum
  | [], _ => rfl
  | r :: rs, c => by
      rw [fetchAddBases, List.flatMap_cons, flatMap_fetchAddBases counts rs (c + counts r),
        List.range'_append_1, List.map_cons, List.sum_cons, Nat.add_comm]

theorem map_snd_readSlots (block : Int) :
    ∀ (slot : Nat) (ids : List Int),
      (readSlots block slot ids).map Prod.snd =
        (List.range' slot ids.length 2).map (slotTarget block)
  | _, [] => rfl
  | slot, _ :: ids => by
      rw [readSlots, List.map_cons, map_snd_readSlots block (slot + 2) ids, List.length_cons,
        List.range'_succ, List.map_cons]

theorem flatMap_slots (entries : Nat → List Int) :
    ∀ (order : List Nat) (counter : Nat),
      ((fetchAddBases (fun r => 2 * (entries r).length) counter order).flatMap fun e =>
          List.range' e.2 (entries e.1).length 2) =
        List.range' counter (order.map fun r => (entries r).length).sum 2
  | [], _ => rfl
  | r :: rs, c => by
      rw [fetchAddBases, List.flatMap_cons, flatMap_slots entries rs (c + 2 * (entries r).length),
        List.range'_append, List.map_cons, List.sum_cons, Nat.add_comm]

theorem count_div_range' {b : Nat} (hb : 0 < b) (q : Nat) :
    ∀ n, ((List.range' 0 n 2).map (· / b)).count q ≤
      min n ((q * b + b + 1) / 2) - min n ((q * b + 1) / 2)
  | 0 => by simp
  | n + 1 => by
      have ih := count_div_range' hb q n
      have hq : 2 * n / b = q ↔ (q * b + 1) / 2 ≤ n ∧ n < (q * b + b + 1) / 2 := by
        have hlo := Nat.le_div_iff_mul_le (x := q) (y := 2 * n) hb
        have hhi := Nat.div_lt_iff_lt_mul (x := 2 * n) (y := q + 1) hb
        rw [Nat.add_mul, Nat.one_mul] at hhi
        clear ih
        omega
      have hle : (q * b + 1) / 2 ≤ (q * b + b + 1) / 2 := by omega
      rw [List.range'_concat, List.map_append, List.count_append, List.map_singleton,
        List.count_singleton, Nat.zero_add]
      simp only [beq_iff_eq, hq]
      generalize (q * b + 1) / 2 = lo at *
      generalize (q * b + b + 1) / 2 = hi at *
      split_ifs with h
      · -- the slot `2 * n` falls in block `q`, between the two bounds
        rw [Nat.min_eq_left h.2, Nat.min_eq_right (Nat.le_succ_of_le h.1)]
        rw [Nat.min_eq_left h.2.le, Nat.min_eq_right h.1] at ih
        omega
      · -- it falls below the block, or above it
        rcases Nat.lt_or_ge n lo with hl | hl
        · rw [Nat.min_eq_left (Nat.le_trans hl hle), Nat.min_eq_left hl]
          rw [Nat.min_eq_left (Nat.le_trans hl.le hle), Nat.min_eq_left hl.le] at ih
          omega
        · have hh : hi ≤ n := Nat.le_of_not_lt fun h' => h ⟨hl, h'⟩
          rw [Nat.min_eq_right (Nat.le_succ_of_le hh), Nat.min_eq_right (Nat.le_succ_of_le hl)]
          rw [Nat.min_eq_right hh, Nat.min_eq_right hl] at ih
          omega

theorem count_map_natCast_le {l : List Nat} {m : Nat} (h : ∀ n, l.count n ≤ m) (q : Int) :
    (l.map fun n : Nat => (n : Int)).count q ≤ m := by
  by_cases hq : 0 ≤ q
  · obtain ⟨n, rfl⟩ := Int.eq_ofNat_of_zero_le hq
    rw [List.count_map_of_injective _ _ Nat.cast_injective]
    exact h n
  · rw [List.count_eq_zero_of_not_mem fun hmem => ?_]
    · exact Nat.zero_le m
    obtain ⟨n, -, rfl⟩ := List.mem_map.1 hmem
    exact hq (Int.natCast_nonneg n)

theorem count_slots_le {total rankN n : Nat} (hn : 0 < rankN) (hn2 : 2 * n = total) (q : Nat) :
    ((List.range' 0 n 2).map (· / ceilDiv total rankN)).count q ≤ (ceilDiv total rankN + 1) / 2 := by
  have hmul := le_mul_ceilDiv (a := total) hn
  rcases Nat.eq_zero_or_pos (ceilDiv total rankN) with h0 | hb
  · -- no read at all: the block is empty and so is the list of slots
    rw [h0, Nat.mul_zero] at hmul
    rw [show n = 0 by omega]
    simp
  · have := count_div_range' hb q n
    omega

/-- `compute_read_locations` on every process at once, for every order of the fetch-adds on
the shared counter, when `block = ⌈total / rank_n()⌉` fits in an `int`. The ranges the
fetch-adds return are disjoint and cover `[0, total)`, every target `read_slot / block` is a
process, and no process is the target of more than `⌈block / 2⌉` read ids. The totals are those
the double holds exactly, and `rank_n()` is an `int`. -/
theorem read_locations_in_range (rankN : Nat) (hn : 0 < rankN) (hrank : rankN < 2 ^ 31)
    (entries : Nat → List Int) (order : List Nat) (horder : order.Perm (List.range rankN))
    (htotal : ((List.range rankN).map fun r => 2 * (entries r).length).sum < 2 ^ 53)
    (hblock : ceilDiv ((List.range rankN).map fun r => 2 * (entries r).length).sum rankN <
      2 ^ 31) :
    ((fetchAddBases (fun r => 2 * (entries r).length) 0 order).flatMap fun e =>
        List.range' e.2 (2 * (entries e.1).length)) =
      List.range ((List.range rankN).map fun r => 2 * (entries r).length).sum ∧
    (∀ e ∈ readLocations rankN entries order, 0 ≤ e.2 ∧ e.2 < rankN) ∧
    ∀ q : Int, ((readLocations rankN entries order).map Prod.snd).count q ≤
      (ceilDiv ((List.range rankN).map fun r => 2 * (entries r).length).sum rankN + 1) / 2 := by
  have htot := (horder.map fun r => 2 * (entries r).length).sum_eq
  refine ⟨?_, fun e he => readLocations_target_lt hn hrank horder hblock he, fun q => ?_⟩
  · rw [flatMap_fetchAddBases (fun r => 2 * (entries r).length) order 0, htot]
    exact (List.range_eq_range' _).symm
  · have hsum : 2 * (order.map fun r => (entries r).length).sum =
        ((List.range rankN).map fun r => 2 * (entries r).length).sum := by
      rw [← htot, List.sum_map_mul_left]
    have hslots : (readLocations rankN entries order).map Prod.snd =
        ((List.range' 0 (order.map fun r => (entries r).length).sum 2).map
          (· / ceilDiv ((List.range rankN).map fun r => 2 * (entries r).length).sum rankN)).map
            fun n : Nat => (n : Int) := by
      simp only [readLocations, intBlock_of_lt hblock, List.map_flatMap, map_snd_readSlots]
      rw [← List.map_flatMap, flatMap_slots entries order 0, List.map_map]
      refine List.map_congr_left fun s hs => ?_
      obtain ⟨i, hi, rfl⟩ := List.mem_range'.1 hs
      have := slot_div_lt hn
        (show 0 + 2 * i < ((List.range rankN).map fun r => 2 * (entries r).length).sum by omega)
      exact slotTarget_natCast (by omega)
    rw [hslots]
    exact count_map_natCast_le (count_slots_le hn hsum) q

/-- Two processes, the fetch-add of process 1 first: process 0 has one entry and process 1 two,
so the total is 6 and the block 3. -/
theorem read_locations_in_range_two :
    ((fetchAddBases (fun r => 2 * (List.replicate (r + 1) (r : Int)).length) 0 [1, 0]).flatMap
        fun e => List.range' e.2 (2 * (List.replicate (e.1 + 1) (e.1 : Int)).length)) =
      List.range ((List.range 2).map fun r => 2 * (List.replicate (r + 1) (r : Int)).length).sum ∧
    (∀ e ∈ readLocations 2 (fun r => List.replicate (r + 1) (r : Int)) [1, 0],
      0 ≤ e.2 ∧ e.2 < 2) ∧
    ∀ q : Int,
      ((readLocations 2 (fun r => List.replicate (r + 1) (r : Int)) [1, 0]).map Prod.snd).count q ≤
        (ceilDiv ((List.range 2).map fun r => 2 * (List.replicate (r + 1) (r : Int)).length).sum 2 +
          1) / 2 :=
  read_locations_in_range 2 (by decide) (by decide) (fun r => List.replicate (r + 1) (r : Int))
    [1, 0] (by decide) (by decide) (by decide)

theorem readSlots_append (block : Int) :
    ∀ (slot : Nat) (ids ids' : List Int), readSlots block slot (ids ++ ids') =
      readSlots block slot ids ++ readSlots block (slot + 2 * ids.length) ids'
  | _, [], _ => rfl
  | slot, i :: ids, ids' => by
      rw [List.cons_append, readSlots, readSlots, readSlots_append block (slot + 2) ids ids',
        List.length_cons, List.cons_append, Nat.mul_succ, Nat.add_right_comm, Nat.add_assoc]

theorem fst_mem_readSlots {block : Int} :
    ∀ {slot : Nat} {ids : List Int} {e : Int × Int}, e ∈ readSlots block slot ids → e.1 ∈ ids
  | _, [], _, h => by simp [readSlots] at h
  | _, i :: ids, _, h => by
      rcases List.mem_cons.1 h with rfl | h
      · exact List.mem_cons_self _ _
      · exact List.mem_cons_of_mem _ (fst_mem_readSlots h)

theorem readLocations_one (ids : List Int) (readId : Int) :
    readLocations 1 (fun _ => ids ++ [readId]) [0] =
      readSlots (intBlock (2 * (ids.length + 1)) 1) 0 ids ++
        [(readId, slotTarget (intBlock (2 * (ids.length + 1)) 1) (2 * ids.length))] := by
  simp [readLocations, fetchAddBases, readSlots_append, readSlots]

/-- One process with `2 ^ 30 + 1` entries: the total `2 ^ 31 + 2` gives a block past `INT_MAX`,
which converts to `INT_MIN`, and the last entry, at slot `2 ^ 31`, gets the target `-1`. -/
theorem read_location_negative :
    ((0 : Int), (-1 : Int)) ∈ readLocations 1 (fun _ => List.replicate (2 ^ 30) 0 ++ [0]) [0] := by
  rw [readLocations_one, List.length_replicate]
  exact List.mem_append_right _ (List.mem_singleton.2 (by decide))

end Locations

section Move

theorem readPairsFrom_pairReads (size : Nat) :
    ∀ (pairs : List (PackedRead × PackedRead)) (i : Nat),
      readPairsFrom size i (pairReads pairs) = .ok pairs
  | [], _ => rfl
  | p :: ps, i => by
      rw [pairReads_cons, readPairsFrom, readPairsFrom_pairReads size ps]
      rfl

theorem readPairsFrom_of_odd (size : Nat) :
    ∀ (reads : List PackedRead) (i : Nat), reads.length % 2 = 1 →
      readPairsFrom size i reads = .error ("Array index out of bound " ++
        toString (i + reads.length) ++ " >= " ++ toString size)
  | [], _, h => absurd h (by decide)
  | [_], _, _ => rfl
  | _ :: _ :: rest, i, h => by
      have hrest : rest.length % 2 = 1 := by simp only [List.length_cons] at h; omega
      rw [readPairsFrom, readPairsFrom_of_odd size rest (i + 2) hrest, List.length_cons,
        List.length_cons, show i + (rest.length + 1 + 1) = i + 2 + rest.length by omega]
      rfl

theorem pickTarget_ok {rankN : Nat} {found : Int} {random : Nat}
    (hfound : found = -1 ∨ (0 ≤ found ∧ found < rankN)) (hrandom : random < rankN) :
    ∃ t, pickTarget rankN found random = .ok t ∧ t < rankN := by
  unfold pickTarget
  by_cases h : found = -1
  · refine ⟨random, ?_, hrandom⟩
    simp only [h, if_true]
    rw [if_neg (by omega)]
    rfl
  · refine ⟨found.toNat, ?_, by omega⟩
    simp only [h, if_false]
    rw [if_neg (by omega)]

theorem mapM_ok_of {α β γ ε : Type} (g : α → Except ε β) (k : β → γ) (m : α → γ)
    (Q : β → Prop) :
    ∀ l : List α, (∀ a ∈ l, ∃ b, g a = .ok b ∧ k b = m a ∧ Q b) →
      ∃ bs, l.mapM g = .ok bs ∧ bs.map k = l.map m ∧ ∀ b ∈ bs, Q b
  | [], _ => ⟨[], rfl, rfl, by simp⟩
  | a :: l, hl => by
      obtain ⟨b, hb, hk, hq⟩ := hl a (List.mem_cons_self _ _)
      obtain ⟨bs, hbs, hks, hqs⟩ :=
        mapM_ok_of g k m Q l fun a' h => hl a' (List.mem_cons_of_mem _ h)
      refine ⟨b :: bs, by rw [List.mapM_cons, hb, hbs]; rfl, by simp [hk, hks], ?_⟩
      simpa [hq] using hqs

theorem moveReadsToTargets_pair (rankN : Nat) (inserts : List (Int × Int)) (random : Nat → Nat)
    (r1 r2 : PackedRead) :
    moveReadsToTargets rankN inserts random [pairReads [(r1, r2)]] =
      (pickTarget rankN (findTarget inserts r1.readId.natAbs) (random 0)).map
        fun t => [⟨t, r1, r2⟩] := by
  show ((pickTarget rankN (findTarget inserts r1.readId.natAbs) (random 0) >>= fun t =>
    pure (⟨t, r1, r2⟩ : PairUpdate)) >>= fun u => pure [u]) = _
  cases pickTarget rankN (findTarget inserts r1.readId.natAbs) (random 0) <;> rfl

/-- `move_reads_to_targets` on a process whose lists hold pairs at adjacent positions never
dies: it sends each pair once, in order, to a process. -/
theorem moveReadsToTargets_ok {rankN : Nat} {inserts : List (Int × Int)} {random : Nat → Nat}
    (hins : ∀ e ∈ inserts, 0 ≤ e.2 ∧ e.2 < rankN) (hrandom : ∀ k, random k < rankN)
    (pairs : List (List (PackedRead × PackedRead))) :
    ∃ us, moveReadsToTargets rankN inserts random (pairs.map pairReads) = .ok us ∧
      us.map (fun u => (u.read1, u.read2)) = pairs.flatten ∧ ∀ u ∈ us, u.target < rankN := by
  have hpairs : (pairs.map pairReads).mapM (fun reads => readPairsFrom reads.length 0 reads) =
      .ok pairs := by
    induction pairs with
    | nil => rfl
    | cons p ps ih => rw [List.map_cons, List.mapM_cons, readPairsFrom_pairReads, ih]; rfl
  obtain ⟨us, hus, hmap, htarget⟩ := mapM_ok_of
    (fun e => do
      let target ← pickTarget rankN (findTarget inserts e.2.1.readId.natAbs) (random e.1)
      pure (⟨target, e.2.1, e.2.2⟩ : PairUpdate))
    (fun u => (u.read1, u.read2)) Prod.snd (fun u => u.target < rankN) pairs.flatten.enum
    fun e _ => by
      obtain ⟨t, ht, hlt⟩ := pickTarget_ok (findTarget_range hins e.2.1.readId.natAbs)
        (hrandom e.1)
      exact ⟨⟨t, e.2.1, e.2.2⟩, by dsimp only; rw [ht]; rfl, rfl, hlt⟩
  refine ⟨us, ?_, by rw [hmap, List.enum_map_snd], htarget⟩
  rw [moveReadsToTargets, hpairs]
  exact hus

end Move

section Deliver

theorem foldl_applyUpdate (q : Nat) :
    ∀ (delivered : List PairUpdate) (init : Nat → List PackedRead),
      delivered.foldl applyUpdate init q =
        init q ++ pairReads ((delivered.filter fun u => u.target = q).map
          fun u => (u.read1, u.read2))
  | [], _ => by simp [pairReads]
  | u :: us, init => by
      rw [List.foldl_cons, foldl_applyUpdate q us, List.filter_cons]
      by_cases h : u.target = q
      · subst h
        simp [applyUpdate, pairReads]
      · simp [applyUpdate, Function.update_noteq (Ne.symm h), h]

/-- Sorting a list by targets below `rankN` loses and adds nothing. -/
theorem flatten_filter_target_perm {α : Type} (f : α → Nat) :
    ∀ (rankN : Nat) (xs : List α), (∀ x ∈ xs, f x < rankN) →
      ((List.range rankN).map fun q => xs.filter fun x => f x = q).flatten.Perm xs
  | 0, [], _ => by simp
  | 0, x :: _, h => absurd (h x (List.mem_cons_self _ _)) (Nat.not_lt_zero _)
  | n + 1, xs, h => by
      have hlow : ((List.range n).map fun q => xs.filter fun x => f x = q) =
          (List.range n).map fun q => (xs.filter fun x => f x < n).filter fun x => f x = q := by
        refine List.map_congr_left fun q hq => ?_
        rw [List.filter_filter]
        refine List.filter_congr fun x _ => ?_
        have := List.mem_range.1 hq
        by_cases hx : f x = q <;> simp [hx, this]
      have hhigh : (xs.filter fun x => f x = n) = xs.filter fun x => !decide (f x < n) :=
        List.filter_congr fun x hx => by
          have := h x hx
          by_cases hq : f x = n
          · simp [hq]
          · simp [hq]
            omega
      rw [List.range_succ, List.map_append, List.flatten_append, hlow, List.map_singleton,
        List.flatten_singleton, hhigh]
      refine ((flatten_filter_target_perm f n _ fun x hx => ?_).append_right _).trans
        (List.filter_append_perm _ xs)
      simpa using (List.mem_filter.1 hx).2

end Deliver

end Mhm2Proxy.ShuffleReads
