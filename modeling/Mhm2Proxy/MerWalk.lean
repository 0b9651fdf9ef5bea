import Mhm2Proxy.MerVotes

/-! The walks of the local assembly (`localassm_core.cpp`). `walk_mers` follows the extensions
`count_mers` chose, from the last `mer_len` bases of a contig, until a fork, a dead end, an
unknown mer, a mer it has already left, or `walk_len_limit` steps. `iterative_walks` walks again
from the contig's end with `mer_len` shifted up after a fork or a repeat and down after a dead
end, and keeps the longest walk. `extend_ctg` appends the walk on the right, then prepends the
reverse complement of the walk from the contig's reverse complement. -/

namespace Mhm2Proxy.LocalAssm

open PackedReads (charValue)
open ContigsFile (revcomp)

/-- `mers_ht` once `count_mers` has chosen the extensions: each k-mer met, its votes and its
`ext`. -/
abbrev ExtTable := List (List Char × MerFreqs × Char)

/-- `mers_ht.find(mer)`, read for its `ext`. -/
def findExt (mersHt : ExtTable) (mer : List Char) : Option Char :=
  (mersHt.find? fun e => e.1 = mer).map fun e => e.2.2

theorem findExt_eq_some {mersHt : ExtTable} {mer : List Char} {b : Char}
    (h : findExt mersHt mer = some b) : ∃ e ∈ mersHt, e.1 = mer ∧ e.2.2 = b := by
  obtain ⟨e, he, rfl⟩ := Option.map_eq_some'.1 h
  exact ⟨e, List.mem_of_find?_eq_some he, by simpa using List.find?_some he, rfl⟩

section WalkMers

/-- The mers a walk leaves, in order: each step drops the first base and appends the new one. -/
def stepMers : List Char → List Char → List (List Char)
  | _, [] => []
  | mer, b :: ext => mer :: stepMers (mer.drop 1 ++ [b]) ext

/-- The mer a walk ends on. -/
def lastMer : List Char → List Char → List Char
  | mer, [] => mer
  | mer, b :: ext => lastMer (mer.drop 1 ++ [b]) ext

theorem length_stepMers : ∀ (mer ext : List Char), (stepMers mer ext).length = ext.length
  | _, [] => rfl
  | _, _ :: ext => congrArg (· + 1) (length_stepMers _ ext)

variable (mersHt : ExtTable)

/-- The loop of `walk_mers` with `n` of its `walk_len_limit` iterations left and
`loop_check_ht` holding `loopCheck`: it returns `walk_result` and `walk`. -/
def walkMersLoop : Nat → List (List Char) → List Char → List Char → Char × List Char
  | 0, _, _, walk => ('X', walk)
  | n + 1, loopCheck, mer, walk =>
      if mer ∈ loopCheck then ('R', walk)
      else match findExt mersHt mer with
        | none => ('X', walk)
        | some ext =>
            if ext = 'F' ∨ ext = 'X' then (ext, walk)
            else walkMersLoop n (mer :: loopCheck) (mer.drop 1 ++ [ext]) (walk ++ [ext])

/-- `walk_mers(mers_ht, mer, walk, mer_len, walk_len_limit)`: its result and the `walk` it
leaves. It does not read `mer_len`. -/
def walkMers (mer walk : List Char) (walkLenLimit : Int) : Char × List Char :=
  walkMersLoop mersHt walkLenLimit.toNat [] mer walk

/-- `ext` steps through `mers_ht` from `mer`: each base is the extension chosen for the mer it
leaves, and neither `F` nor `X`. -/
def Follows : List Char → List Char → Prop
  | _, [] => True
  | mer, b :: ext =>
      findExt mersHt mer = some b ∧ b ≠ 'F' ∧ b ≠ 'X' ∧ Follows (mer.drop 1 ++ [b]) ext

/-- What `walk_mers` does from `mer`, with `n` steps allowed and `loop_check_ht` holding
`loopCheck`, when it appends `ext` and returns `res`. -/
structure WalkSpec (n : Nat) (loopCheck : List (List Char)) (mer ext : List Char) (res : Char) :
    Prop where
  follows : Follows mersHt mer ext
  nodup : (stepMers mer ext).Nodup
  fresh : ∀ w ∈ stepMers mer ext, w ∉ loopCheck
  length_le : ext.length ≤ n
  stop : res = 'R' ∧ lastMer mer ext ∈ stepMers mer ext ++ loopCheck ∨
    res = 'F' ∧ findExt mersHt (lastMer mer ext) = some 'F' ∨
    res = 'X' ∧ (ext.length = n ∨ findExt mersHt (lastMer mer ext) = none ∨
      findExt mersHt (lastMer mer ext) = some 'X')

variable {mersHt}

theorem WalkSpec.nil {n : Nat} {loopCheck : List (List Char)} {mer : List Char} {res : Char}
    (h : res = 'R' ∧ mer ∈ loopCheck ∨ res = 'F' ∧ findExt mersHt mer = some 'F' ∨
      res = 'X' ∧ (n = 0 ∨ findExt mersHt mer = none ∨ findExt mersHt mer = some 'X')) :
    WalkSpec mersHt n loopCheck mer [] res where
  follows := trivial
  nodup := List.nodup_nil
  fresh := fun _ h => nomatch h
  length_le := Nat.zero_le _
  stop := by
    rcases h with ⟨rfl, h⟩ | ⟨rfl, h⟩ | ⟨rfl, h⟩
    · exact .inl ⟨rfl, h⟩
    · exact .inr (.inl ⟨rfl, h⟩)
    · exact .inr (.inr ⟨rfl, by rcases h with h | h <;> [exact .inl h.symm; exact .inr h]⟩)

theorem WalkSpec.cons {n : Nat} {loopCheck : List (List Char)} {mer ext : List Char} {b res : Char}
    (hlc : mer ∉ loopCheck) (hb : findExt mersHt mer = some b) (hF : b ≠ 'F') (hX : b ≠ 'X')
    (h : WalkSpec mersHt n (mer :: loopCheck) (mer.drop 1 ++ [b]) ext res) :
    WalkSpec mersHt (n + 1) loopCheck mer (b :: ext) res where
  follows := ⟨hb, hF, hX, h.follows⟩
  nodup := List.nodup_cons.2 ⟨fun hm => h.fresh mer hm (List.mem_cons_self _ _), h.nodup⟩
  fresh := fun w hw hwl => by
    rcases List.mem_cons.1 hw with rfl | hw
    · exact hlc hwl
    · exact h.fresh w hw (List.mem_cons_of_mem _ hwl)
  length_le := Nat.succ_le_succ h.length_le
  stop := by
    rcases h.stop with ⟨hr, hm⟩ | hf | ⟨hr, hx⟩
    · refine .inl ⟨hr, ?_⟩
      simp only [stepMers, lastMer, List.mem_append, List.mem_cons] at hm ⊢
      tauto
    · exact .inr (.inl hf)
    · exact .inr (.inr ⟨hr, by
        rcases hx with hx | hx <;> [exact .inl (by simp [hx]); exact .inr hx]⟩)

/-- The loop of `walk_mers` appends a walk that meets its spec. -/
theorem walkMersLoop_spec : ∀ (n : Nat) (loopCheck : List (List Char)) (mer walk : List Char),
    ∃ ext, (walkMersLoop mersHt n loopCheck mer walk).2 = walk ++ ext ∧
      WalkSpec mersHt n loopCheck mer ext (walkMersLoop mersHt n loopCheck mer walk).1
  | 0, _, _, walk => ⟨[], (List.append_nil walk).symm, WalkSpec.nil (.inr (.inr ⟨rfl, .inl rfl⟩))⟩
  | n + 1, loopCheck, mer, walk => by
      by_cases hlc : mer ∈ loopCheck
      · rw [walkMersLoop, if_pos hlc]
        exact ⟨[], (List.append_nil walk).symm, WalkSpec.nil (.inl ⟨rfl, hlc⟩)⟩
      rw [walkMersLoop, if_neg hlc]
      cases hb : findExt mersHt mer with
      | none =>
        exact ⟨[], (List.append_nil walk).symm, WalkSpec.nil (.inr (.inr ⟨rfl, .inr (.inl hb)⟩))⟩
      | some b =>
        dsimp only
        by_cases hFX : b = 'F' ∨ b = 'X'
        · rw [if_pos hFX]
          refine ⟨[], (List.append_nil walk).symm, WalkSpec.nil ?_⟩
          rcases hFX with rfl | rfl
          · exact .inr (.inl ⟨rfl, hb⟩)
          · exact .inr (.inr ⟨rfl, .inr (.inr hb)⟩)
        · rw [if_neg hFX]
          obtain ⟨ext, hext, hspec⟩ := walkMersLoop_spec n (mer :: loopCheck) (mer.drop 1 ++ [b])
            (walk ++ [b])
          exact ⟨b :: ext, by rw [hext, List.append_assoc, List.singleton_append],
            hspec.cons hlc hb (fun h => hFX (.inl h)) (fun h => hFX (.inr h))⟩

theorem Follows.stepMers_mem {mer ext : List Char} (h : Follows mersHt mer ext) :
    ∀ w ∈ stepMers mer ext, w ∈ mersHt.map Prod.fst := by
  induction ext generalizing mer with
  | nil => exact fun _ hw => nomatch hw
  | cons b ext ih =>
    rintro w (_ | ⟨_, hw⟩)
    · obtain ⟨e, he, rfl, -⟩ := findExt_eq_some h.1
      exact List.mem_map_of_mem _ he
    · exact ih h.2.2.2 w hw

variable (mersHt) in
/-- `walk_mers` from `mer` with an empty `walk`: every base it appends is the extension chosen
for the mer it leaves, it leaves no mer twice, so the walk is no longer than `mers_ht` has
entries, whatever `walk_len_limit`; it returns `R` only on a mer it has left, `F` only at a
fork, and `X` at a dead end, at an unknown mer or at the limit. -/
theorem walk_mers_spec (mer : List Char) (walkLenLimit : Int) :
    WalkSpec mersHt walkLenLimit.toNat [] mer (walkMers mersHt mer [] walkLenLimit).2
        (walkMers mersHt mer [] walkLenLimit).1 ∧
      (walkMers mersHt mer [] walkLenLimit).2.length ≤ mersHt.length := by
  obtain ⟨ext, hext, hspec⟩ : ∃ ext, (walkMers mersHt mer [] walkLenLimit).2 = [] ++ ext ∧
      WalkSpec mersHt walkLenLimit.toNat [] mer ext (walkMers mersHt mer [] walkLenLimit).1 :=
    walkMersLoop_spec _ [] mer []
  rw [List.nil_append] at hext
  rw [hext]
  refine ⟨hspec, ?_⟩
  have hsub := List.subperm_of_subset hspec.nodup (hspec.follows.stepMers_mem)
  rw [← length_stepMers mer ext, ← List.length_map mersHt Prod.fst]
  exact hsub.length_le

theorem Follows.window {mer ext : List Char} (h : Follows mersHt mer ext) (hmer : mer ≠ []) :
    ∀ i (hi : i < ext.length),
      findExt mersHt (((mer ++ ext).drop i).take mer.length) = some ext[i] ∧
        ext[i] ≠ 'F' ∧ ext[i] ≠ 'X' := by
  induction ext generalizing mer with
  | nil => exact fun i hi => absurd hi (Nat.not_lt_zero i)
  | cons b ext ih =>
    obtain ⟨c, t, rfl⟩ := List.exists_cons_of_ne_nil hmer
    rintro (_ | i) hi
    · exact ⟨by rw [List.drop_zero, List.take_left]; exact h.1, h.2.1, h.2.2.1⟩
    · have hnext := ih h.2.2.2 (by simp) i (Nat.lt_of_succ_lt_succ hi)
      simp only [List.drop_succ_cons, List.drop_zero, List.append_assoc, List.singleton_append,
        List.length_append, List.length_singleton] at hnext
      simpa [List.length_cons] using hnext

theorem Follows.forall_mem {Q : Char → Prop}
    (hQ : ∀ w b, findExt mersHt w = some b → b ≠ 'F' → b ≠ 'X' → Q b) {mer ext : List Char}
    (h : Follows mersHt mer ext) : ∀ c ∈ ext, Q c := by
  induction ext generalizing mer with
  | nil => exact fun _ hc => nomatch hc
  | cons b ext ih =>
    intro c hc
    rcases List.mem_cons.1 hc with rfl | hc
    · exact hQ mer c h.1 h.2.1 h.2.2.1
    · exact ih h.2.2.2 c hc

end WalkMers

section IterativeWalks

/-- `term_counts`: the walks that ended at a dead end (`X`), at a fork (`F`) and on a repeat
(`R`). -/
structure TermCounts where
  countX : Nat
  countF : Nat
  countR : Nat
  deriving DecidableEq, Repr

/-- The count of `term_counts` that a walk ending with `walkResult` raises. -/
def TermCounts.record (tc : TermCounts) (walkResult : Char) : TermCounts :=
  if walkResult = 'X' then { tc with countX := tc.countX + 1 }
  else if walkResult = 'F' then { tc with countF := tc.countF + 1 }
  else { tc with countR := tc.countR + 1 }

/-- `WalkMetrics`: the statistics `extend_ctg` and `iterative_walks` keep. -/
structure WalkMetrics where
  sumClen : Nat
  numSides : Nat
  numReads : Nat
  maxNumReads : Nat
  termCounts : TermCounts
  numWalks : Nat
  maxWalkLen : Nat
  sumExt : Nat
  excessReads : Nat
  deriving DecidableEq, Repr

variable (lassmShiftSize : Int)

/-- The end of an iteration of the `mer_len` loop of `iterative_walks`: the `shift` of the next
one, or `none` where the loop breaks. A dead end shifts down unless the loop was shifting up; a
fork or a repeat shifts up unless it was shifting down or `mer_len` is past the sequence. -/
def nextShift (walkResult : Char) (shift merLen seqLen : Int) : Option Int :=
  if walkResult = 'X' then (if shift = lassmShiftSize then none else some (-lassmShiftSize))
  else if shift = -lassmShiftSize then none
  else if merLen > seqLen then none
  else some lassmShiftSize

variable (qualOffset lassmMinQual lassmMinHiQual : Int)
  (lassmMaxCountMersReads maxReserve lassmRatingThres lassmMinKmerLen : Nat)
  (seq : List Char) (seqDepth : Int) (reads : List ReadSeq) (walkLenLimit : Int)

/-- The walk of `walk_mers` at `mer_len` from the end of `seq`: from
`mer = seq.substr(seq.length() - mer_len)` with an empty `walk`. -/
def walkFromEnd (mersHt : ExtTable) (merLen : Int) : Char × List Char :=
  walkMers mersHt (seq.drop (seq.length - merLen.toNat)) [] walkLenLimit

/-- The body of the `mer_len` loop of `iterative_walks`: `count_mers` at `mer_len`, the walk
from the end of `seq`, the longest walk and the statistics after it, and the next `shift`. -/
def walkStep (merLen shift : Int) (longestWalk : List Char) (wm : WalkMetrics) :
    Except String (List Char × WalkMetrics × Option Int) := do
  let counted := countMers merLen.toNat qualOffset lassmMinQual lassmMinHiQual
    lassmMaxCountMersReads maxReserve reads seqDepth lassmRatingThres
  let mersHt ← counted.1
  let w := walkFromEnd seq walkLenLimit mersHt merLen
  pure (if w.2.length > longestWalk.length then w.2 else longestWalk,
    { wm with termCounts := wm.termCounts.record w.1, excessReads := wm.excessReads + counted.2 },
    nextShift lassmShiftSize w.1 shift merLen seq.length)

/-- The `mer_len` loop of `iterative_walks` with `fuel` iterations allowed. -/
def iterativeWalksLoop (maxMerLen : Int) : Nat → Int → Int → List Char → WalkMetrics →
    Except String (List Char × WalkMetrics)
  | 0, _, _, longestWalk, wm => .ok (longestWalk, wm)
  | fuel + 1, merLen, shift, longestWalk, wm =>
      if (lassmMinKmerLen : Int) ≤ merLen ∧ merLen ≤ maxMerLen then
        match walkStep lassmShiftSize qualOffset lassmMinQual lassmMinHiQual lassmMaxCountMersReads maxReserve
            lassmRatingThres seq seqDepth reads walkLenLimit merLen shift longestWalk wm with
        | .error e => .error e
        | .ok (longestWalk, wm, none) => .ok (longestWalk, wm)
        | .ok (longestWalk, wm, some shift) =>
            iterativeWalksLoop maxMerLen fuel (merLen + shift) shift longestWalk wm
      else .ok (longestWalk, wm)

/-- `iterative_walks(seq, seq_depth, reads, max_mer_len, kmer_len, qual_offset, walk_len_limit,
...)`: the longest walk from the end of `seq`, and the statistics after it. Its loop is given
`min(max_mer_len, |seq|) - LASSM_MIN_KMER_LEN + 1` iterations, which it never runs out of
(`iterative_walks_terminates`). -/
def iterativeWalks (maxMerLen kmerLen : Int) (wm : WalkMetrics) :
    Except String (List Char × WalkMetrics) := do
  let maxMerLen := min maxMerLen seq.length
  let r ← iterativeWalksLoop lassmShiftSize qualOffset lassmMinQual lassmMinHiQual
    lassmMaxCountMersReads maxReserve lassmRatingThres lassmMinKmerLen seq seqDepth reads walkLenLimit
    maxMerLen (maxMerLen - lassmMinKmerLen + 1).toNat kmerLen 0 [] wm
  if r.1 ≠ [] then
    pure (r.1, { r.2 with
      numWalks := r.2.numWalks + 1, maxWalkLen := max r.2.maxWalkLen r.1.length,
      sumExt := r.2.sumExt + r.1.length })
  else pure r

/-- `P` holds of the walk at every `mer_len` from `LASSM_MIN_KMER_LEN` to `maxMerLen`. -/
def EveryWalk (P : List Char → Prop) (maxMerLen : Int) : Prop :=
  ∀ merLen : Int, (lassmMinKmerLen : Int) ≤ merLen → merLen ≤ maxMerLen → ∀ mersHt,
    (countMers merLen.toNat qualOffset lassmMinQual lassmMinHiQual lassmMaxCountMersReads maxReserve reads
      seqDepth lassmRatingThres).1 = .ok mersHt →
    P (walkFromEnd seq walkLenLimit mersHt merLen).2

/-- `mers_ht.reserve` succeeds at every `mer_len` from `LASSM_MIN_KMER_LEN` to `maxMerLen`. -/
def ReserveFits (maxMerLen : Int) : Prop :=
  ∀ merLen : Int, (lassmMinKmerLen : Int) ≤ merLen → merLen ≤ maxMerLen →
    reserveCapacity merLen.toNat lassmMaxCountMersReads reads ≤ maxReserve

/-- Reads `mers_ht` has room for: the first `LASSM_MAX_COUNT_MERS_READS` are from `maxMerLen` to
`readLen` bases long, and that many reads of `readLen` bases fit in an `int` and in what
`mers_ht` can reserve. -/
def ReadsFit (readLen : Nat) (maxMerLen : Int) : Prop :=
  (∀ r ∈ reads.take lassmMaxCountMersReads, maxMerLen ≤ r.seq.length ∧ r.seq.length ≤ readLen) ∧
    lassmMaxCountMersReads * readLen < 2 ^ 31 ∧ lassmMaxCountMersReads * readLen ≤ maxReserve

/-- Every base of `walk` follows the `mer_len` bases before it in `seq ++ walk`, in one of `reads`
and with a quality of at least `LASSM_MIN_QUAL`, for one `mer_len` from `LASSM_MIN_KMER_LEN` to
`|seq|`. -/
def ReadBacked (walk : List Char) : Prop :=
  walk = [] ∨ ∃ merLen, lassmMinKmerLen ≤ merLen ∧ merLen ≤ seq.length ∧
    ∀ i (hi : i < walk.length), Voted merLen qualOffset lassmMinQual reads
      (((seq ++ walk).drop (seq.length - merLen + i)).take merLen) walk[i]

/-- The iterations the `mer_len` loop can still run: what is left of the range in the direction
of `shift`, or all of it before the first walk. -/
def loopMeasure (maxMerLen merLen shift : Int) : Nat :=
  if 0 < shift then (maxMerLen - merLen + 1).toNat
  else if shift < 0 then (merLen - lassmMinKmerLen + 1).toNat
  else (maxMerLen - lassmMinKmerLen + 1).toNat

variable {lassmShiftSize qualOffset lassmMinQual lassmMinHiQual lassmMaxCountMersReads maxReserve
  lassmRatingThres lassmMinKmerLen seq seqDepth reads walkLenLimit}

theorem ReadsFit.reserveFits {readLen : Nat} {maxMerLen : Int}
    (h : ReadsFit lassmMaxCountMersReads maxReserve reads readLen maxMerLen) :
    ReserveFits lassmMaxCountMersReads maxReserve lassmMinKmerLen reads maxMerLen := by
  intro merLen hmin hmax
  obtain ⟨hlen, hfit, hres⟩ := h
  have hle : kmerPositions merLen.toNat lassmMaxCountMersReads reads ≤
      lassmMaxCountMersReads * readLen :=
    kmerPositions_le merLen.toNat lassmMaxCountMersReads fun r hr => (hlen r hr).2
  rw [reserveCapacity_of_le merLen.toNat lassmMaxCountMersReads
    (fun r hr => by have := (hlen r hr).1; omega) (by omega)]
  omega

theorem ReadBacked.mono {walk : List Char} {reads' : List ReadSeq}
    (h : ReadBacked qualOffset lassmMinQual lassmMinKmerLen seq reads walk)
    (hsub : ∀ r ∈ reads, r ∈ reads') :
    ReadBacked qualOffset lassmMinQual lassmMinKmerLen seq reads' walk :=
  h.imp id fun ⟨merLen, hmin, hmax, hv⟩ => ⟨merLen, hmin, hmax, fun i hi => (hv i hi).mono hsub⟩

theorem nextShift_eq_some {walkResult : Char} {shift merLen seqLen s : Int}
    (hshift : shift = 0 ∨ shift = lassmShiftSize ∨ shift = -lassmShiftSize)
    (h : nextShift lassmShiftSize walkResult shift merLen seqLen = some s) :
    s ≠ 0 ∧ (shift ≠ 0 → s = shift) ∧ (s = lassmShiftSize ∨ s = -lassmShiftSize) := by
  unfold nextShift at h
  split_ifs at h <;> cases h <;> omega

theorem loopMeasure_next {maxMerLen merLen shift s : Int}
    (hrange : (lassmMinKmerLen : Int) ≤ merLen ∧ merLen ≤ maxMerLen) (hs : s ≠ 0)
    (hdir : shift ≠ 0 → s = shift) :
    loopMeasure lassmMinKmerLen maxMerLen (merLen + s) s + 1 ≤
      loopMeasure lassmMinKmerLen maxMerLen merLen shift := by
  unfold loopMeasure
  split_ifs <;> omega

theorem walkStep_eq_ok {merLen shift : Int} {longestWalk : List Char} {wm : WalkMetrics}
    {r : List Char × WalkMetrics × Option Int}
    (h : walkStep lassmShiftSize qualOffset lassmMinQual lassmMinHiQual lassmMaxCountMersReads maxReserve
      lassmRatingThres seq seqDepth reads walkLenLimit merLen shift longestWalk wm = .ok r) :
    ∃ mersHt, (countMers merLen.toNat qualOffset lassmMinQual lassmMinHiQual
        lassmMaxCountMersReads maxReserve reads seqDepth lassmRatingThres).1 = .ok mersHt ∧
      r = (if (walkFromEnd seq walkLenLimit mersHt merLen).2.length > longestWalk.length then
          (walkFromEnd seq walkLenLimit mersHt merLen).2 else longestWalk,
        { wm with
          termCounts := wm.termCounts.record (walkFromEnd seq walkLenLimit mersHt merLen).1,
          excessReads := wm.excessReads + (countMers merLen.toNat qualOffset lassmMinQual
            lassmMinHiQual lassmMaxCountMersReads maxReserve reads seqDepth lassmRatingThres).2 },
        nextShift lassmShiftSize (walkFromEnd seq walkLenLimit mersHt merLen).1 shift merLen
          seq.length) := by
  unfold walkStep at h
  dsimp only at h
  cases hc : (countMers merLen.toNat qualOffset lassmMinQual lassmMinHiQual lassmMaxCountMersReads maxReserve
    reads seqDepth lassmRatingThres).1 with
  | error e => rw [hc] at h; cases h
  | ok mersHt => rw [hc] at h; cases h; exact ⟨mersHt, rfl, rfl⟩

theorem iterativeWalksLoop_fuel_add (maxMerLen : Int) :
    ∀ (fuel k : Nat) (merLen shift : Int) (longestWalk : List Char) (wm : WalkMetrics),
      (shift = 0 ∨ shift = lassmShiftSize ∨ shift = -lassmShiftSize) →
      loopMeasure lassmMinKmerLen maxMerLen merLen shift ≤ fuel →
      iterativeWalksLoop lassmShiftSize qualOffset lassmMinQual lassmMinHiQual
          lassmMaxCountMersReads maxReserve lassmRatingThres lassmMinKmerLen seq seqDepth reads walkLenLimit
          maxMerLen (fuel + k) merLen shift longestWalk wm =
        iterativeWalksLoop lassmShiftSize qualOffset lassmMinQual lassmMinHiQual
          lassmMaxCountMersReads maxReserve lassmRatingThres lassmMinKmerLen seq seqDepth reads walkLenLimit
          maxMerLen fuel merLen shift longestWalk wm
  | 0, 0, _, _, _, _, _, _ => rfl
  | 0, k + 1, merLen, shift, _, _, _, hμ => by
      have hout : ¬((lassmMinKmerLen : Int) ≤ merLen ∧ merLen ≤ maxMerLen) := by
        unfold loopMeasure at hμ
        split_ifs at hμ <;> omega
      rw [Nat.zero_add, iterativeWalksLoop, iterativeWalksLoop, if_neg hout]
  | fuel + 1, k, merLen, shift, longestWalk, wm, hshift, hμ => by
      rw [Nat.add_right_comm, iterativeWalksLoop, iterativeWalksLoop]
      split_ifs with hrange
      · cases hs : walkStep lassmShiftSize qualOffset lassmMinQual lassmMinHiQual
            lassmMaxCountMersReads maxReserve lassmRatingThres seq seqDepth reads walkLenLimit merLen shift
            longestWalk wm with
        | error e => rfl
        | ok r =>
          obtain ⟨longestWalk', wm', _ | s⟩ := r
          · rfl
          · obtain ⟨mersHt, -, hr⟩ := walkStep_eq_ok hs
            obtain ⟨hs0, hdir, hS⟩ := nextShift_eq_some hshift (congrArg (·.2.2) hr).symm
            exact iterativeWalksLoop_fuel_add maxMerLen fuel k (merLen + s) s _ _ (.inr hS)
              (Nat.le_of_succ_le_succ ((loopMeasure_next hrange hs0 hdir).trans hμ))
      · rfl

/-- The `mer_len` loop of `iterative_walks` ends by its own test or a `break` within
`min(max_mer_len, |seq|) - LASSM_MIN_KMER_LEN + 1` iterations, whatever `LASSM_SHIFT_SIZE`: after
the first walk the shift keeps its sign, so `mer_len` crosses the range one way only. Allowing the
loop more iterations changes nothing. -/
theorem iterative_walks_terminates (maxMerLen kmerLen : Int) (wm : WalkMetrics) (k : Nat) :
    iterativeWalksLoop lassmShiftSize qualOffset lassmMinQual lassmMinHiQual lassmMaxCountMersReads maxReserve
        lassmRatingThres lassmMinKmerLen seq seqDepth reads walkLenLimit (min maxMerLen seq.length)
        ((min maxMerLen seq.length - lassmMinKmerLen + 1).toNat + k) kmerLen 0 [] wm =
      iterativeWalksLoop lassmShiftSize qualOffset lassmMinQual lassmMinHiQual
        lassmMaxCountMersReads maxReserve lassmRatingThres lassmMinKmerLen seq seqDepth reads walkLenLimit
        (min maxMerLen seq.length) (min maxMerLen seq.length - lassmMinKmerLen + 1).toNat kmerLen 0
        [] wm :=
  iterativeWalksLoop_fuel_add _ _ k kmerLen 0 [] wm (.inl rfl) (by simp [loopMeasure])

theorem iterativeWalksLoop_inv (P : List Char → Prop) {maxMerLen : Int}
    (hP : EveryWalk qualOffset lassmMinQual lassmMinHiQual lassmMaxCountMersReads maxReserve lassmRatingThres
      lassmMinKmerLen seq seqDepth reads walkLenLimit P maxMerLen) :
    ∀ (fuel : Nat) (merLen shift : Int) (longestWalk : List Char) (wm : WalkMetrics)
      {r : List Char × WalkMetrics}, P longestWalk →
      iterativeWalksLoop lassmShiftSize qualOffset lassmMinQual lassmMinHiQual
        lassmMaxCountMersReads maxReserve lassmRatingThres lassmMinKmerLen seq seqDepth reads walkLenLimit
        maxMerLen fuel merLen shift longestWalk wm = .ok r → P r.1
  | 0, _, _, _, _, _, h, hr => by cases hr; exact h
  | fuel + 1, merLen, shift, longestWalk, wm, r, h, hr => by
      rw [iterativeWalksLoop] at hr
      split_ifs at hr with hrange
      · cases hs : walkStep lassmShiftSize qualOffset lassmMinQual lassmMinHiQual
            lassmMaxCountMersReads maxReserve lassmRatingThres seq seqDepth reads walkLenLimit merLen shift
            longestWalk wm with
        | error e => rw [hs] at hr; cases hr
        | ok r' =>
          obtain ⟨mersHt, hht, rfl⟩ := walkStep_eq_ok hs
          have hlw : P (if (walkFromEnd seq walkLenLimit mersHt merLen).2.length >
              longestWalk.length then (walkFromEnd seq walkLenLimit mersHt merLen).2
              else longestWalk) := by
            split_ifs
            exacts [hP merLen hrange.1 hrange.2 mersHt hht, h]
          rw [hs] at hr
          cases hn : nextShift lassmShiftSize (walkFromEnd seq walkLenLimit mersHt merLen).1 shift
              merLen seq.length with
          | none => rw [hn] at hr; cases hr; exact hlw
          | some s => rw [hn] at hr; exact iterativeWalksLoop_inv P hP fuel _ _ _ _ hlw hr
      · cases hr
        exact h

theorem iterativeWalks_eq_ok {maxMerLen kmerLen : Int} {wm : WalkMetrics}
    {r : List Char × WalkMetrics}
    (h : iterativeWalks lassmShiftSize qualOffset lassmMinQual lassmMinHiQual
      lassmMaxCountMersReads maxReserve lassmRatingThres lassmMinKmerLen seq seqDepth reads walkLenLimit
      maxMerLen kmerLen wm = .ok r) :
    ∃ r0, iterativeWalksLoop lassmShiftSize qualOffset lassmMinQual lassmMinHiQual
        lassmMaxCountMersReads maxReserve lassmRatingThres lassmMinKmerLen seq seqDepth reads walkLenLimit
        (min maxMerLen seq.length) (min maxMerLen seq.length - lassmMinKmerLen + 1).toNat kmerLen 0
        [] wm = .ok r0 ∧ r.1 = r0.1 := by
  unfold iterativeWalks at h
  dsimp only at h
  cases hl : iterativeWalksLoop lassmShiftSize qualOffset lassmMinQual lassmMinHiQual
      lassmMaxCountMersReads maxReserve lassmRatingThres lassmMinKmerLen seq seqDepth reads walkLenLimit
      (min maxMerLen seq.length) (min maxMerLen seq.length - lassmMinKmerLen + 1).toNat kmerLen 0
      [] wm with
  | error e => rw [hl] at h; cases h
  | ok r0 =>
    rw [hl] at h
    refine ⟨r0, rfl, ?_⟩
    dsimp only [bind, Except.bind] at h
    split_ifs at h <;> cases h <;> rfl

/-- A property of the empty walk and of the walk at every `mer_len` in the loop's range holds of
the walk `iterative_walks` returns. -/
theorem iterativeWalks_inv (P : List Char → Prop) {maxMerLen kmerLen : Int} {wm : WalkMetrics}
    {r : List Char × WalkMetrics} (hnil : P [])
    (hP : EveryWalk qualOffset lassmMinQual lassmMinHiQual lassmMaxCountMersReads maxReserve lassmRatingThres
      lassmMinKmerLen seq seqDepth reads walkLenLimit P (min maxMerLen seq.length))
    (h : iterativeWalks lassmShiftSize qualOffset lassmMinQual lassmMinHiQual
      lassmMaxCountMersReads maxReserve lassmRatingThres lassmMinKmerLen seq seqDepth reads walkLenLimit
      maxMerLen kmerLen wm = .ok r) :
    P r.1 := by
  obtain ⟨r0, hl, hr⟩ := iterativeWalks_eq_ok h
  exact hr ▸ iterativeWalksLoop_inv P hP _ _ _ _ _ hnil hl

theorem walkStep_ok (merLen shift : Int) (longestWalk : List Char) (wm : WalkMetrics)
    (hres : reserveCapacity merLen.toNat lassmMaxCountMersReads reads ≤ maxReserve) :
    ∃ r, walkStep lassmShiftSize qualOffset lassmMinQual lassmMinHiQual lassmMaxCountMersReads maxReserve
      lassmRatingThres seq seqDepth reads walkLenLimit merLen shift longestWalk wm = .ok r := by
  obtain ⟨mersHt, hht⟩ := countMers_ok merLen.toNat qualOffset lassmMinQual lassmMinHiQual
    lassmMaxCountMersReads maxReserve reads seqDepth lassmRatingThres hres
  unfold walkStep
  dsimp only
  rw [hht]
  exact ⟨_, rfl⟩

theorem iterativeWalksLoop_ok {maxMerLen : Int}
    (hres : ReserveFits lassmMaxCountMersReads maxReserve lassmMinKmerLen reads maxMerLen) :
    ∀ (fuel : Nat) (merLen shift : Int) (longestWalk : List Char) (wm : WalkMetrics),
      ∃ r, iterativeWalksLoop lassmShiftSize qualOffset lassmMinQual lassmMinHiQual
        lassmMaxCountMersReads maxReserve lassmRatingThres lassmMinKmerLen seq seqDepth reads walkLenLimit
        maxMerLen fuel merLen shift longestWalk wm = .ok r
  | 0, _, _, _, _ => ⟨_, rfl⟩
  | fuel + 1, merLen, shift, longestWalk, wm => by
      rw [iterativeWalksLoop]
      split_ifs with hrange
      · obtain ⟨⟨longestWalk', wm', _ | s⟩, hr⟩ :=
          walkStep_ok merLen shift longestWalk wm (hres merLen hrange.1 hrange.2)
        · rw [hr]
          exact ⟨_, rfl⟩
        · rw [hr]
          exact iterativeWalksLoop_ok hres fuel _ _ _ _
      · exact ⟨_, rfl⟩

theorem iterativeWalks_ok {maxMerLen : Int}
    (hres : ReserveFits lassmMaxCountMersReads maxReserve lassmMinKmerLen reads maxMerLen)
    (kmerLen : Int) (wm : WalkMetrics) :
    ∃ r, iterativeWalks lassmShiftSize qualOffset lassmMinQual lassmMinHiQual
      lassmMaxCountMersReads maxReserve lassmRatingThres lassmMinKmerLen seq seqDepth reads walkLenLimit
      maxMerLen kmerLen wm = .ok r := by
  obtain ⟨r0, h0⟩ : ∃ r0, iterativeWalksLoop lassmShiftSize qualOffset lassmMinQual lassmMinHiQual
      lassmMaxCountMersReads maxReserve lassmRatingThres lassmMinKmerLen seq seqDepth reads walkLenLimit
      (min maxMerLen seq.length) (min maxMerLen seq.length - lassmMinKmerLen + 1).toNat kmerLen 0
      [] wm = .ok r0 :=
    iterativeWalksLoop_ok (fun m hmin hmax => hres m hmin (hmax.trans (min_le_left _ _))) _ _ _ _ _
  unfold iterativeWalks
  dsimp only
  rw [h0]
  dsimp only [bind, Except.bind]
  split_ifs <;> exact ⟨_, rfl⟩

theorem walkFromEnd_bases {merLen : Int} {mersHt : ExtTable}
    (hht : (countMers merLen.toNat qualOffset lassmMinQual lassmMinHiQual lassmMaxCountMersReads maxReserve
      reads seqDepth lassmRatingThres).1 = .ok mersHt) :
    ∀ c ∈ (walkFromEnd seq walkLenLimit mersHt merLen).2, c ∈ ['A', 'C', 'G', 'T'] :=
  (walk_mers_spec mersHt _ walkLenLimit).1.follows.forall_mem fun _ b hb hF hX => by
    obtain ⟨e, he, -, rfl⟩ := findExt_eq_some hb
    rcases countMers_sound hht he with h | h | ⟨h, -⟩
    exacts [absurd h hF, absurd h hX, h]

theorem iterativeWalks_bases {maxMerLen kmerLen : Int} {wm : WalkMetrics}
    {r : List Char × WalkMetrics}
    (h : iterativeWalks lassmShiftSize qualOffset lassmMinQual lassmMinHiQual
      lassmMaxCountMersReads maxReserve lassmRatingThres lassmMinKmerLen seq seqDepth reads walkLenLimit
      maxMerLen kmerLen wm = .ok r) :
    ∀ c ∈ r.1, c ∈ ['A', 'C', 'G', 'T'] :=
  iterativeWalks_inv (fun w => ∀ c ∈ w, c ∈ ['A', 'C', 'G', 'T']) (fun _ h => nomatch h)
    (fun _ _ _ _ hht => walkFromEnd_bases hht) h

theorem walkFromEnd_readBacked (h0 : 0 < lassmMinKmerLen) {merLen : Int}
    (hmin : (lassmMinKmerLen : Int) ≤ merLen) (hmax : merLen ≤ seq.length) {mersHt : ExtTable}
    (hht : (countMers merLen.toNat qualOffset lassmMinQual lassmMinHiQual lassmMaxCountMersReads maxReserve
      reads seqDepth lassmRatingThres).1 = .ok mersHt) :
    ReadBacked qualOffset lassmMinQual lassmMinKmerLen seq (reads.take lassmMaxCountMersReads)
      (walkFromEnd seq walkLenLimit mersHt merLen).2 := by
  have hmer : (seq.drop (seq.length - merLen.toNat)).length = merLen.toNat := by
    rw [List.length_drop]; omega
  have hfollows :=
    (walk_mers_spec mersHt (seq.drop (seq.length - merLen.toNat)) walkLenLimit).1.follows
  refine .inr ⟨merLen.toNat, by omega, by omega, fun i hi => ?_⟩
  obtain ⟨hf, hF, hX⟩ := hfollows.window (by rw [← List.length_pos, hmer]; omega) i hi
  rw [hmer, ← List.drop_append_of_le_length (by omega), List.drop_drop] at hf
  obtain ⟨e, he, he1, he2⟩ := findExt_eq_some hf
  rcases countMers_sound hht he with h | h | ⟨-, hv⟩
  · exact absurd (he2 ▸ h) hF
  · exact absurd (he2 ▸ h) hX
  · rw [he1, he2] at hv
    exact hv

end IterativeWalks

section ExtendCtg

/-- `CtgWithReads`: a contig with the reads that may extend it at its left and at its right end.
The reads on the left are held in the orientation of the contig's reverse complement. -/
structure CtgWithReads where
  cid : Int
  seq : List Char
  depth : Float
  readsLeft : List ReadSeq
  readsRight : List ReadSeq

variable (lassmShiftSize qualOffset lassmMinQual lassmMinHiQual : Int)
  (lassmMaxCountMersReads maxReserve lassmRatingThres lassmMinKmerLen : Nat) (doubleToInt : Float → Int)
  (maxKmerLen kmerLen walkLenLimit : Int)

/-- The right half of `extend_ctg`: with reads on the right, the walk from the contig's end is
appended to it. The `double` depth is passed as an `int`; `doubleToInt` is that conversion. -/
def extendRight (ctg : CtgWithReads) (wm : WalkMetrics) :
    Except String (CtgWithReads × WalkMetrics) :=
  if ctg.readsRight ≠ [] then do
    let wm := { wm with
      numSides := wm.numSides + 1, numReads := wm.numReads + ctg.readsRight.length,
      maxNumReads := max wm.maxNumReads ctg.readsRight.length }
    let r ← iterativeWalks lassmShiftSize qualOffset lassmMinQual lassmMinHiQual
      lassmMaxCountMersReads maxReserve lassmRatingThres lassmMinKmerLen ctg.seq (doubleToInt ctg.depth)
      ctg.readsRight walkLenLimit maxKmerLen kmerLen wm
    pure (if r.1 ≠ [] then { ctg with seq := ctg.seq ++ r.1 } else ctg, r.2)
  else pure (ctg, wm)

/-- The left half of `extend_ctg`: with reads on the left, the walk from the end of the contig's
reverse complement is reverse-complemented and put in front of the contig. -/
def extendLeft (ctg : CtgWithReads) (wm : WalkMetrics) :
    Except String (CtgWithReads × WalkMetrics) :=
  if ctg.readsLeft ≠ [] then do
    let wm := { wm with
      numSides := wm.numSides + 1, numReads := wm.numReads + ctg.readsLeft.length,
      maxNumReads := max wm.maxNumReads ctg.readsLeft.length }
    let seqRc ← revcomp ctg.seq
    let r ← iterativeWalks lassmShiftSize qualOffset lassmMinQual lassmMinHiQual
      lassmMaxCountMersReads maxReserve lassmRatingThres lassmMinKmerLen seqRc (doubleToInt ctg.depth)
      ctg.readsLeft walkLenLimit maxKmerLen kmerLen wm
    if r.1 ≠ [] then do
      let leftWalk ← revcomp r.1
      pure ({ ctg with seq := leftWalk ++ ctg.seq }, r.2)
    else pure (ctg, r.2)
  else pure (ctg, wm)

/-- `extend_ctg(ctg, wm, insert_avg, insert_stddev, max_kmer_len, kmer_len, qual_offset,
walk_len_limit, ...)`: the contig extended on the right, then on the left, and the statistics
after. It reads neither `insert_avg` nor `insert_stddev`. -/
def extendCtg (ctg : CtgWithReads) (wm : WalkMetrics) :
    Except String (CtgWithReads × WalkMetrics) := do
  let r ← extendRight lassmShiftSize qualOffset lassmMinQual lassmMinHiQual lassmMaxCountMersReads maxReserve
    lassmRatingThres lassmMinKmerLen doubleToInt maxKmerLen kmerLen walkLenLimit ctg
    { wm with sumClen := wm.sumClen + ctg.seq.length }
  extendLeft lassmShiftSize qualOffset lassmMinQual lassmMinHiQual lassmMaxCountMersReads maxReserve
    lassmRatingThres lassmMinKmerLen doubleToInt maxKmerLen kmerLen walkLenLimit r.1 r.2

variable {lassmShiftSize qualOffset lassmMinQual lassmMinHiQual lassmMaxCountMersReads maxReserve
  lassmRatingThres lassmMinKmerLen doubleToInt maxKmerLen kmerLen walkLenLimit}

theorem extendRight_eq_ok {ctg : CtgWithReads} {wm : WalkMetrics} {r : CtgWithReads × WalkMetrics}
    (h : extendRight lassmShiftSize qualOffset lassmMinQual lassmMinHiQual lassmMaxCountMersReads maxReserve
      lassmRatingThres lassmMinKmerLen doubleToInt maxKmerLen kmerLen walkLenLimit ctg wm = .ok r) :
    ∃ rightWalk, r.1 = { ctg with seq := ctg.seq ++ rightWalk } ∧
      (rightWalk = [] ∨ ∃ wm0 r0, iterativeWalks lassmShiftSize qualOffset lassmMinQual
        lassmMinHiQual lassmMaxCountMersReads maxReserve lassmRatingThres lassmMinKmerLen ctg.seq
        (doubleToInt ctg.depth) ctg.readsRight walkLenLimit maxKmerLen kmerLen wm0 = .ok r0 ∧
        r0.1 = rightWalk) := by
  unfold extendRight at h
  split_ifs at h
  · obtain ⟨r0, hw, h⟩ := except_bind_eq_ok h
    cases h
    refine ⟨r0.1, ?_, .inr ⟨_, r0, hw, rfl⟩⟩
    split_ifs with hne
    · rfl
    · rw [not_not.1 hne, List.append_nil]
  · cases h
    exact ⟨[], by rw [List.append_nil], .inl rfl⟩

theorem extendLeft_eq_ok {ctg : CtgWithReads} {wm : WalkMetrics} {r : CtgWithReads × WalkMetrics}
    (h : extendLeft lassmShiftSize qualOffset lassmMinQual lassmMinHiQual lassmMaxCountMersReads maxReserve
      lassmRatingThres lassmMinKmerLen doubleToInt maxKmerLen kmerLen walkLenLimit ctg wm = .ok r) :
    ∃ leftWalk leftRc, revcomp leftWalk = .ok leftRc ∧ r.1 = { ctg with seq := leftRc ++ ctg.seq } ∧
      (leftWalk = [] ∨ ∃ seqRc wm0 r0, revcomp ctg.seq = .ok seqRc ∧ iterativeWalks lassmShiftSize
        qualOffset lassmMinQual lassmMinHiQual lassmMaxCountMersReads maxReserve lassmRatingThres
        lassmMinKmerLen seqRc (doubleToInt ctg.depth) ctg.readsLeft walkLenLimit maxKmerLen kmerLen
        wm0 = .ok r0 ∧ r0.1 = leftWalk) := by
  unfold extendLeft at h
  split_ifs at h
  · obtain ⟨seqRc, hrc, h⟩ := except_bind_eq_ok h
    obtain ⟨r0, hw, h⟩ := except_bind_eq_ok h
    split_ifs at h with hne
    · obtain ⟨leftRc, hl, h⟩ := except_bind_eq_ok h
      cases h
      exact ⟨r0.1, leftRc, hl, rfl, .inr ⟨seqRc, _, r0, hrc, hw, rfl⟩⟩
    · cases h
      exact ⟨[], [], rfl, by rw [List.nil_append], .inl rfl⟩
  · cases h
    exact ⟨[], [], rfl, by rw [List.nil_append], .inl rfl⟩

theorem extendCtg_eq_ok {ctg : CtgWithReads} {wm : WalkMetrics} {r : CtgWithReads × WalkMetrics}
    (h : extendCtg lassmShiftSize qualOffset lassmMinQual lassmMinHiQual lassmMaxCountMersReads maxReserve
      lassmRatingThres lassmMinKmerLen doubleToInt maxKmerLen kmerLen walkLenLimit ctg wm = .ok r) :
    ∃ r1, extendRight lassmShiftSize qualOffset lassmMinQual lassmMinHiQual lassmMaxCountMersReads maxReserve
        lassmRatingThres lassmMinKmerLen doubleToInt maxKmerLen kmerLen walkLenLimit ctg
        { wm with sumClen := wm.sumClen + ctg.seq.length } = .ok r1 ∧
      extendLeft lassmShiftSize qualOffset lassmMinQual lassmMinHiQual lassmMaxCountMersReads maxReserve
        lassmRatingThres lassmMinKmerLen doubleToInt maxKmerLen kmerLen walkLenLimit r1.1 r1.2 =
        .ok r := by
  unfold extendCtg at h
  exact except_bind_eq_ok h

/-- What `extend_ctg` returns, with the reads that back each walk taken from any lists that hold
the reads `count_mers` counts on that side. -/
theorem extendCtg_readBacked (h0 : 0 < lassmMinKmerLen) {ctg : CtgWithReads} {wm : WalkMetrics}
    {r : CtgWithReads × WalkMetrics}
    (h : extendCtg lassmShiftSize qualOffset lassmMinQual lassmMinHiQual lassmMaxCountMersReads maxReserve
      lassmRatingThres lassmMinKmerLen doubleToInt maxKmerLen kmerLen walkLenLimit ctg wm = .ok r)
    {readsL readsR : List ReadSeq}
    (hR : ∀ x ∈ ctg.readsRight.take lassmMaxCountMersReads, x ∈ readsR)
    (hL : ∀ x ∈ ctg.readsLeft.take lassmMaxCountMersReads, x ∈ readsL) :
    ∃ rightWalk leftWalk leftRc, r.1 = { ctg with seq := leftRc ++ ctg.seq ++ rightWalk } ∧
      revcomp leftWalk = .ok leftRc ∧ (∀ c ∈ rightWalk ++ leftWalk, c ∈ ['A', 'C', 'G', 'T']) ∧
      ReadBacked qualOffset lassmMinQual lassmMinKmerLen ctg.seq readsR rightWalk ∧
      (leftWalk = [] ∨ ∃ seqRc, revcomp (ctg.seq ++ rightWalk) = .ok seqRc ∧
        ReadBacked qualOffset lassmMinQual lassmMinKmerLen seqRc readsL leftWalk) := by
  obtain ⟨r1, h1, h2⟩ := extendCtg_eq_ok h
  obtain ⟨rightWalk, hr1, hright⟩ := extendRight_eq_ok h1
  obtain ⟨leftWalk, leftRc, hrc, hr, hleft⟩ := extendLeft_eq_ok h2
  have hbases : ∀ {s : List Char} {rs : List ReadSeq} {w : List Char}, (w = [] ∨ ∃ wm0 r0,
      iterativeWalks lassmShiftSize qualOffset lassmMinQual lassmMinHiQual lassmMaxCountMersReads maxReserve
        lassmRatingThres lassmMinKmerLen s (doubleToInt ctg.depth) rs walkLenLimit maxKmerLen
        kmerLen wm0 = .ok r0 ∧ r0.1 = w) → (∀ c ∈ w, c ∈ ['A', 'C', 'G', 'T']) ∧
      ReadBacked qualOffset lassmMinQual lassmMinKmerLen s (rs.take lassmMaxCountMersReads) w := by
    rintro s rs w (rfl | ⟨wm0, r0, hw, rfl⟩)
    · exact ⟨(fun _ h => nomatch h), .inl rfl⟩
    · exact iterativeWalks_inv (fun w => (∀ c ∈ w, c ∈ ['A', 'C', 'G', 'T']) ∧
          ReadBacked qualOffset lassmMinQual lassmMinKmerLen s (rs.take lassmMaxCountMersReads) w)
        ⟨(fun _ h => nomatch h), .inl rfl⟩
        (fun _ hmin hmax _ hht => ⟨walkFromEnd_bases hht,
          walkFromEnd_readBacked h0 hmin (hmax.trans (min_le_right _ _)) hht⟩) hw
  obtain ⟨hrb, hrr⟩ := hbases hright
  rw [hr1] at hleft hr
  refine ⟨rightWalk, leftWalk, leftRc, by rw [hr, List.append_assoc], hrc, ?_, hrr.mono hR, ?_⟩
  · rcases hleft with rfl | ⟨seqRc, wm0, r0, -, hw, hr0⟩
    · simpa using hrb
    · have := (hbases (.inr ⟨wm0, r0, hw, hr0⟩)).1
      exact fun c hc => (List.mem_append.1 hc).elim (hrb c) (this c)
  · rcases hleft with rfl | ⟨seqRc, wm0, r0, hseq, hw, hr0⟩
    · exact .inl rfl
    · exact .inr ⟨seqRc, hseq, (hbases (.inr ⟨wm0, r0, hw, hr0⟩)).2.mono hL⟩

/-- `extend_ctg` appends a walk on the right and puts the reverse complement of a walk on the
left, and changes nothing else of the contig. Both walks hold only `A`, `C`, `G` and `T`. Every
base of the right walk follows the `mer_len` bases before it in the contig so extended, for one
`mer_len` from `LASSM_MIN_KMER_LEN` up, in one of the reads on the right that `count_mers`
counts, with a quality of at least `LASSM_MIN_QUAL`; every base of the left walk does the same in
the reverse complement of the contig after its right extension, with the reads on the left. -/
theorem extend_ctg_read_backed (h0 : 0 < lassmMinKmerLen) {ctg : CtgWithReads} {wm : WalkMetrics}
    {r : CtgWithReads × WalkMetrics}
    (h : extendCtg lassmShiftSize qualOffset lassmMinQual lassmMinHiQual lassmMaxCountMersReads maxReserve
      lassmRatingThres lassmMinKmerLen doubleToInt maxKmerLen kmerLen walkLenLimit ctg wm = .ok r) :
    ∃ rightWalk leftWalk leftRc, r.1 = { ctg with seq := leftRc ++ ctg.seq ++ rightWalk } ∧
      revcomp leftWalk = .ok leftRc ∧ (∀ c ∈ rightWalk ++ leftWalk, c ∈ ['A', 'C', 'G', 'T']) ∧
      ReadBacked qualOffset lassmMinQual lassmMinKmerLen ctg.seq
        (ctg.readsRight.take lassmMaxCountMersReads) rightWalk ∧
      (leftWalk = [] ∨ ∃ seqRc, revcomp (ctg.seq ++ rightWalk) = .ok seqRc ∧
        ReadBacked qualOffset lassmMinQual lassmMinKmerLen seqRc
          (ctg.readsLeft.take lassmMaxCountMersReads) leftWalk) :=
  extendCtg_readBacked h0 h (fun _ hx => hx) fun _ hx => hx

/-- The contig `ACGTC` with two copies of a read on each side. -/
def ctgTwoSides : CtgWithReads :=
  ⟨0, "ACGTC".toList, 10,
    [⟨"GACGTTA".toList, "IIIIIII".toList⟩, ⟨"GACGTTA".toList, "IIIIIII".toList⟩],
    [⟨"CGTCAGT".toList, "IIIIIII".toList⟩, ⟨"CGTCAGT".toList, "IIIIIII".toList⟩]⟩

/-- At `mer_len` 3 the right walk from `GTC` takes `A`, `G`, `T` and ends at a dead end; the
left walk from the end of the reverse complement takes `T`, `A`. The contig grows to
`TAACGTCAGT`. -/
theorem extend_ctg_read_backed_two_sides :
    0 < 3 ∧ ∃ rightWalk leftWalk leftRc,
      ({ ctgTwoSides with seq := "TAACGTCAGT".toList } : CtgWithReads) =
        { ctgTwoSides with seq := leftRc ++ ctgTwoSides.seq ++ rightWalk } ∧
      revcomp leftWalk = .ok leftRc ∧ (∀ c ∈ rightWalk ++ leftWalk, c ∈ ['A', 'C', 'G', 'T']) ∧
      ReadBacked 33 10 3 ctgTwoSides.seq (ctgTwoSides.readsRight.take 1000) rightWalk ∧
      (leftWalk = [] ∨ ∃ seqRc, revcomp (ctgTwoSides.seq ++ rightWalk) = .ok seqRc ∧
        ReadBacked 33 10 3 seqRc (ctgTwoSides.readsLeft.take 1000) leftWalk) :=
  ⟨by decide, extend_ctg_read_backed (by decide)
    (show extendCtg 1 33 10 20 1000 1000000 2 3 (fun _ => 0) 5 3 10 ctgTwoSides
        ⟨0, 0, 0, 0, ⟨0, 0, 0⟩, 0, 0, 0, 0⟩ =
      .ok ({ ctgTwoSides with seq := "TAACGTCAGT".toList }, ⟨5, 2, 4, 2, ⟨2, 0, 0⟩, 2, 3, 5, 0⟩)
      by with_unfolding_all rfl)⟩

theorem extendRight_ok (ctg : CtgWithReads)
    (hres : ReserveFits lassmMaxCountMersReads maxReserve lassmMinKmerLen ctg.readsRight maxKmerLen)
    (wm : WalkMetrics) :
    ∃ r, extendRight lassmShiftSize qualOffset lassmMinQual lassmMinHiQual
      lassmMaxCountMersReads maxReserve lassmRatingThres lassmMinKmerLen doubleToInt maxKmerLen kmerLen
      walkLenLimit ctg wm = .ok r := by
  unfold extendRight
  split_ifs
  · exact except_bind_ok (iterativeWalks_ok hres _ _) fun _ _ => ⟨_, rfl⟩
  · exact ⟨_, rfl⟩

theorem mem_acgtn_of_mem_acgt {c : Char} (h : c ∈ ['A', 'C', 'G', 'T']) :
    c ∈ ['A', 'C', 'G', 'T', 'N'] := by
  simp only [List.mem_cons, List.mem_singleton, List.not_mem_nil, or_false] at h ⊢
  tauto

theorem extendLeft_ok {ctg : CtgWithReads} (hseq : ∀ c ∈ ctg.seq, c ∈ ['A', 'C', 'G', 'T', 'N'])
    (hres : ReserveFits lassmMaxCountMersReads maxReserve lassmMinKmerLen ctg.readsLeft maxKmerLen)
    (wm : WalkMetrics) :
    ∃ r, extendLeft lassmShiftSize qualOffset lassmMinQual lassmMinHiQual
      lassmMaxCountMersReads maxReserve lassmRatingThres lassmMinKmerLen doubleToInt maxKmerLen kmerLen
      walkLenLimit ctg wm = .ok r := by
  unfold extendLeft
  split_ifs
  · refine except_bind_ok ⟨_, ContigsFile.revcomp_eq_swapBases hseq⟩ fun _ _ =>
      except_bind_ok (iterativeWalks_ok hres _ _) fun r hr => ?_
    split_ifs
    · exact except_bind_ok ⟨_, ContigsFile.revcomp_eq_swapBases fun c hc =>
        mem_acgtn_of_mem_acgt (iterativeWalks_bases hr c hc)⟩ fun _ _ => ⟨_, rfl⟩
    · exact ⟨_, rfl⟩
  · exact ⟨_, rfl⟩

theorem seq_extendRight_mem {ctg : CtgWithReads} {wm : WalkMetrics}
    {r1 : CtgWithReads × WalkMetrics} (hseq : ∀ c ∈ ctg.seq, c ∈ ['A', 'C', 'G', 'T', 'N'])
    (h1 : extendRight lassmShiftSize qualOffset lassmMinQual lassmMinHiQual
      lassmMaxCountMersReads maxReserve lassmRatingThres lassmMinKmerLen doubleToInt maxKmerLen kmerLen
      walkLenLimit ctg wm = .ok r1) :
    ∀ c ∈ r1.1.seq, c ∈ ['A', 'C', 'G', 'T', 'N'] := by
  obtain ⟨rightWalk, hr1, hright⟩ := extendRight_eq_ok h1
  rw [hr1]
  intro c hc
  rcases List.mem_append.1 hc with hc | hc
  · exact hseq c hc
  · rcases hright with rfl | ⟨wm0, r0, hw, rfl⟩
    · cases hc
    · exact mem_acgtn_of_mem_acgt (iterativeWalks_bases hw c hc)

theorem readsLeft_extendRight {ctg : CtgWithReads} {wm : WalkMetrics}
    {r1 : CtgWithReads × WalkMetrics}
    (h1 : extendRight lassmShiftSize qualOffset lassmMinQual lassmMinHiQual
      lassmMaxCountMersReads maxReserve lassmRatingThres lassmMinKmerLen doubleToInt maxKmerLen
      kmerLen walkLenLimit ctg wm = .ok r1) :
    r1.1.readsLeft = ctg.readsLeft := by
  obtain ⟨_, hr1, -⟩ := extendRight_eq_ok h1
  rw [hr1]

theorem extendCtg_ok {ctg : CtgWithReads} (hseq : ∀ c ∈ ctg.seq, c ∈ ['A', 'C', 'G', 'T', 'N'])
    (hright : ReserveFits lassmMaxCountMersReads maxReserve lassmMinKmerLen ctg.readsRight
      maxKmerLen)
    (hleft : ReserveFits lassmMaxCountMersReads maxReserve lassmMinKmerLen ctg.readsLeft maxKmerLen)
    (wm : WalkMetrics) :
    ∃ r, extendCtg lassmShiftSize qualOffset lassmMinQual lassmMinHiQual
      lassmMaxCountMersReads maxReserve lassmRatingThres lassmMinKmerLen doubleToInt maxKmerLen
      kmerLen walkLenLimit ctg wm = .ok r :=
  except_bind_ok (extendRight_ok _ hright _) fun _ h1 =>
    extendLeft_ok (seq_extendRight_mem hseq h1) (by rw [readsLeft_extendRight h1]; exact hleft) _

/-- `extend_ctg` never dies on a contig over `A`, `C`, `G`, `T` and `N` whose reads `mers_ht`
has room for: `max_mers` does not wrap and `reserve` succeeds, `set_ext` never fails, and the
walks hold only bases, so both `revcomp` calls meet legal characters only. -/
theorem extend_ctg_ok {ctg : CtgWithReads} (hseq : ∀ c ∈ ctg.seq, c ∈ ['A', 'C', 'G', 'T', 'N'])
    {readLen : Nat}
    (hright : ReadsFit lassmMaxCountMersReads maxReserve ctg.readsRight readLen maxKmerLen)
    (hleft : ReadsFit lassmMaxCountMersReads maxReserve ctg.readsLeft readLen maxKmerLen)
    (wm : WalkMetrics) :
    ∃ r, extendCtg lassmShiftSize qualOffset lassmMinQual lassmMinHiQual
      lassmMaxCountMersReads maxReserve lassmRatingThres lassmMinKmerLen doubleToInt maxKmerLen
      kmerLen walkLenLimit ctg wm = .ok r :=
  extendCtg_ok hseq hright.reserveFits hleft.reserveFits wm

/-- The contig `ACGTC` with reads of 7 bases on each side, at `max_kmer_len` 5. -/
theorem extend_ctg_ok_two_sides :
    (∀ c ∈ ctgTwoSides.seq, c ∈ ['A', 'C', 'G', 'T', 'N']) ∧
      ReadsFit 1000 1000000 ctgTwoSides.readsRight 7 5 ∧
      ReadsFit 1000 1000000 ctgTwoSides.readsLeft 7 5 ∧
      ∃ r, extendCtg 1 33 10 20 1000 1000000 2 3 (fun _ => 0) 5 3 10 ctgTwoSides
        ⟨0, 0, 0, 0, ⟨0, 0, 0⟩, 0, 0, 0, 0⟩ = .ok r :=
  have hright : ReadsFit 1000 1000000 ctgTwoSides.readsRight 7 5 := by unfold ReadsFit; decide
  have hleft : ReadsFit 1000 1000000 ctgTwoSides.readsLeft 7 5 := by unfold ReadsFit; decide
  ⟨by decide, hright, hleft, extend_ctg_ok (by decide) hright hleft _⟩

end ExtendCtg

end Mhm2Proxy.LocalAssm
