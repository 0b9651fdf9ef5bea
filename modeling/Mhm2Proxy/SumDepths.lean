import Mhm2Proxy.TraverseDirn

/-!
The depth sum a fragment stores. An invocation of `get_next_step` adds the counts it claims in
the `uint32_t` `StepInfo::sum_depths`, and `traverse_dirn` adds what each invocation returns
to the caller's `int64_t`. On one process a whole direction of a walk is one invocation, so
the fragment stores the exact sum of each direction modulo `2 ^ 32`.

A path of distinct canonical windows, each the only extension of the one before, is walked
from its second window: the LEFT call claims that window and the RIGHT call every window up to
the last but one. On a path of 131041 windows of count 65535 the RIGHT sum passes `2 ^ 32`.
-/

namespace Mhm2Proxy.SumDepths

open Mhm2Proxy.Kmer
open Mhm2Proxy.KmerIndex
open Mhm2Proxy.GetNextStep
open Mhm2Proxy.TraverseDirn
open Mhm2Proxy.ConstructFrags (FragElem)
open Mhm2Proxy.Ownership (oneRank)

/-- The body of the loop of `construct_frags` for a walk from `kmer` with the new fragment
`fragElemGptr`: the LEFT call of `traverse_dirn`, the RIGHT call on the same `uutig` and
`sum_depths`, and the `FragElem` stored, with the owner pointers left. `envL` and `envR` are
the other walks during each call. -/
def constructFragsWalk (d : KmerDHT) (L : Layout) (fragElemGptr : GPtr)
    (envL envR : Interference fragElemGptr) (fuel : Nat) (owner : List Base → Option GPtr)
    (kmer : List Base) : Option (FragElem × (List Base → Option GPtr)) :=
  (traverseDirn d L .left fragElemGptr envL fuel owner kmer [] 0).bind fun l =>
    (traverseDirn d L .right fragElemGptr envR fuel l.owner kmer l.uutig l.sumDepths).map
      fun r => (⟨l.visitedFragElemGptr, r.visitedFragElemGptr, false, false, r.uutig,
        r.sumDepths, false⟩, r.owner)

/-- Modelled from the spec: the depth sum of the walk from `kmer`, the count of every claim of
its LEFT and then its RIGHT direction added exactly. -/
def exactSumDepths (d : KmerDHT) (tok : GPtr) (fuel : Nat) (owner : List Base → Option GPtr)
    (kmer : List Base) : Option Nat :=
  (walkDirn d .left tok fuel owner (leftStart kmer) [] 0).bind fun l =>
    (walkDirn d .right tok fuel l.1.owner (rightStart kmer) [] l.2).map Prod.snd

section OneProcess

variable {d : KmerDHT} {dirn : Dirn} {tok : GPtr} {owner : List Base → Option GPtr}
  {kmer : List Base} {fuel : Nat}

theorem walkDirn_sum {G : Nat} {w : WalkState} {u : List Base} {s : Nat} {res : Outcome × Nat}
    (h : walkDirn d dirn tok G owner w u s = some res) :
    ∃ a, res.2 = s + a ∧
      ∀ u' s', ∃ o, walkDirn d dirn tok G owner w u' s' = some (o, s' + a) := by
  induction G generalizing owner w u s with
  | zero => cases h
  | succ G ih =>
      cases hg : getNextStep d owner dirn tok w with
      | stop status v =>
          rw [walkDirn_stop hg] at h
          cases h
          exact ⟨0, rfl, fun _ _ => ⟨_, walkDirn_stop hg⟩⟩
      | claim key count ext next =>
          rw [walkDirn_claim hg] at h
          obtain ⟨a, ha, hw⟩ := ih h
          refine ⟨count + a, by rw [ha, Nat.add_assoc], fun u' s' => ?_⟩
          obtain ⟨o, ho⟩ := hw (u' ++ [ext]) (s' + count)
          exact ⟨o, by rw [walkDirn_claim hg, ho, Nat.add_assoc]⟩

/-- On one process with no other walk, the two calls of `traverse_dirn` for a walk compute
its plain LEFT walk and then its plain RIGHT walk, and the fragment stores the sum of each
modulo `2 ^ 32`: a whole direction is one invocation of `get_next_step`. -/
theorem constructFragsWalk_oneRank (tok : GPtr) (owner : List Base → Option GPtr)
    (kmer : List Base) (hfuel : d.entries.length + 2 ≤ fuel) :
    ∃ fe owner' gl oL sL gr oR sR,
      constructFragsWalk d oneRank tok (Interference.idle tok) (Interference.idle tok) fuel owner
        kmer = some (fe, owner') ∧
      walkDirn d .left tok gl owner (leftStart kmer) [] 0 = some (oL, sL) ∧
      walkDirn d .right tok gr oL.owner (rightStart kmer) [] 0 = some (oR, sR) ∧
      fe.sumDepths = sL % 2 ^ 32 + sR % 2 ^ 32 := by
  obtain ⟨rL, hrL, -⟩ := @traverseDirn_walkDirn d .left tok oneRank owner kmer [] 0 fuel hfuel
  obtain ⟨-, gl, oL, sL, hwL, hoL, hsL⟩ := traverseDirn_one_process rfl hrL
  obtain ⟨rR, hrR, -⟩ :=
    @traverseDirn_walkDirn d .right tok oneRank rL.owner kmer rL.uutig rL.sumDepths fuel hfuel
  obtain ⟨-, gr, oR, sR, hwR, -, hsR⟩ := traverseDirn_one_process rfl hrR
  have hown : rL.owner = oL.owner := (congrArg Outcome.owner hoL :)
  rw [hown] at hwR
  obtain ⟨a, rfl, hwR'⟩ := walkDirn_sum hwR
  obtain ⟨oR', hR⟩ := hwR' [] 0
  refine ⟨_, _, gl, oL, sL, gr, oR', 0 + a,
    by rw [constructFragsWalk, hrL, Option.some_bind, hrR, Option.map_some'], hwL, hR, ?_⟩
  show rR.sumDepths = _
  rw [hsR, hsL, Nat.zero_add]

end OneProcess

theorem canonical_of_isRc {x : List Base} (h : isRc x = false) : canonical x = x := by
  rw [canonical, show lt (revcomp x) x = false from h]
  rfl

theorem isRc_of_code_lt {x : List Base} (hx : x ≠ []) (h : (front x).code < (back x).comp.code) :
    isRc x = false := by
  have hr : revcomp x = (back x).comp :: revcomp x.dropLast := by
    conv_lhs => rw [← dropLast_append_back hx]
    simp [revcomp]
  rw [isRc, hr]
  obtain ⟨a, t, rfl⟩ := List.exists_cons_of_ne_nil hx
  simp only [front, List.headD_cons] at h
  simp only [lt, Bool.or_eq_false_iff, decide_eq_false_iff_not, Bool.and_eq_false_iff]
  exact ⟨by omega, .inl fun he => by rw [he] at h; omega⟩

section Window

/-- The `k`-mer at position `i` of the sequence with letters `f`. -/
def window (f : Nat → Base) (k i : Nat) : List Base :=
  (List.range k).map fun j => f (i + j)

variable {f : Nat → Base} {k i : Nat}

@[simp] theorem length_window : (window f k i).length = k := by
  simp [window]

theorem getElem?_window {m : Nat} (hm : m < k) : (window f k i)[m]? = some (f (i + m)) := by
  simp [window, List.getElem?_range hm]

theorem window_succ : window f (k + 1) i = f i :: window f k (i + 1) := by
  simp only [window, List.range_succ_eq_map, List.map_cons, Nat.add_zero, List.map_map]
  exact congrArg _ (List.map_congr_left fun j _ => congrArg f (by simp; omega))

theorem window_concat : window f (k + 1) i = window f k i ++ [f (i + k)] := by
  simp [window, List.range_succ]

theorem front_window (hk : 0 < k) : front (window f k i) = f i := by
  obtain ⟨k, rfl⟩ : ∃ k', k = k' + 1 := ⟨k - 1, by omega⟩
  rw [window_succ]
  rfl

theorem back_window (hk : 0 < k) : back (window f k i) = f (i + (k - 1)) := by
  obtain ⟨k, rfl⟩ : ∃ k', k = k' + 1 := ⟨k - 1, by omega⟩
  rw [window_concat, back, List.getLastD_concat]
  rfl

theorem forwardBase_window (hk : 0 < k) :
    forwardBase (window f k i) (f (i + k)) = window f k (i + 1) := by
  obtain ⟨k, rfl⟩ : ∃ k', k = k' + 1 := ⟨k - 1, by omega⟩
  rw [window_succ, forwardBase, List.tail_cons, window_concat,
    show i + (k + 1) = i + 1 + k by omega]

theorem backwardBase_window (hk : 0 < k) :
    backwardBase (window f k (i + 1)) (f i) = window f k i := by
  obtain ⟨k, rfl⟩ : ∃ k', k = k' + 1 := ⟨k - 1, by omega⟩
  rw [window_concat, backwardBase, List.dropLast_concat, window_succ]

end Window

/-- A sequence, given by its letters, whose first `n` windows of length `k` are distinct
k-mers, each its own canonical form: an unbranched stretch of the de Bruijn graph. -/
structure Path where
  letter : Nat → Base
  k : Nat
  n : Nat
  k_pos : 0 < k
  window_injective : ∀ i < n, ∀ j < n, window letter k i = window letter k j → i = j
  window_canonical : ∀ i < n, isRc (window letter k i) = false

namespace Path

variable (p : Path) (count : Nat)

/-- The counts of window `i`: `count`, and on either side the letter next to the window, or a
dead end before the first window and after the last. -/
def counts (i : Nat) : KmerCounts :=
  ⟨count, if i = 0 then .deadend else .base (p.letter (i - 1)),
    if i + 1 = p.n then .deadend else .base (p.letter (i + p.k))⟩

/-- The k-mer index of the path, every window with the count `count`. -/
def index : KmerDHT where
  kmerLen := p.k
  kmerLen_pos := p.k_pos
  entries := (List.range p.n).map fun i => (window p.letter p.k i, p.counts count i)
  nodup_keys := by
    rw [List.map_map]
    exact List.pairwise_map.2 ((List.nodup_range p.n).imp_of_mem fun hi hj hne heq =>
      hne (p.window_injective _ (List.mem_range.1 hi) _ (List.mem_range.1 hj) heq))
  canonical_key := by
    simp only [List.mem_map, List.mem_range]
    rintro _ ⟨i, hi, rfl⟩
    exact canonical_of_isRc (p.window_canonical i hi)
  length_key := by
    simp only [List.mem_map, List.mem_range]
    rintro _ ⟨i, -, rfl⟩
    exact length_window

@[simp] theorem length_index : (p.index count).entries.length = p.n := by
  simp [index]

theorem count_of_mem_index {e : List Base × KmerCounts} (he : e ∈ (p.index count).entries) :
    e.2.count = count := by
  obtain ⟨i, -, rfl⟩ := List.mem_map.1 he
  rfl

theorem find_window {i : Nat} (hi : i < p.n) :
    find (window p.letter p.k i) (p.index count).entries = some (p.counts count i) :=
  find_of_mem (p.index count).nodup_keys (List.mem_map.2 ⟨i, List.mem_range.2 hi, rfl⟩)

variable {p} {owner : List Base → Option GPtr} {dirn : Dirn} {tok : GPtr}

theorem getNextStep_window {j : Nat} {prev : Option Base} {nextExt : Base} {rv : Bool}
    (hj : 0 < j) (hjn : j + 1 < p.n)
    (hc : conflicts dirn prev (p.letter (j - 1)) (p.letter (j + p.k)) = false)
    (ho : owner (window p.letter p.k j) = none ∨
      (owner (window p.letter p.k j) = some tok ∧ rv = true)) :
    getNextStep (p.index count) owner dirn tok ⟨window p.letter p.k j, prev, nextExt, rv⟩ =
      .claim (window p.letter p.k j) count nextExt (advance dirn (window p.letter p.k j)
        (if dirn = .left then p.letter (j - 1) else p.letter (j + p.k))) := by
  have he : extStatus (p.counts count j) = .ok (p.letter (j - 1), p.letter (j + p.k)) := by
    simp [extStatus, counts, hj.ne', hjn.ne]
  have hrc := p.window_canonical j (by omega)
  unfold getNextStep
  simp only [canonical_of_isRc hrc, hrc, p.find_window count (by omega : j < p.n), he, oriented,
    hc, Bool.false_eq_true, if_false]
  rcases ho with h | ⟨h, rfl⟩ <;> cases dirn <;> simp [ownerCheck, claimStep, counts, h]

theorem getNextStep_window_end {i : Nat} {w : WalkState} (hw : w.kmer = window p.letter p.k i)
    (hi : i < p.n) (hend : i = 0 ∨ i + 1 = p.n) :
    getNextStep (p.index count) owner dirn tok w = .stop .deadend none := by
  have he : extStatus (p.counts count i) = .error .deadend := by
    by_cases h0 : i = 0
    · simp [extStatus, counts, h0]
    · simp [extStatus, counts, h0, hend.resolve_left h0]
  unfold getNextStep
  simp only [hw, canonical_of_isRc (p.window_canonical i hi), p.find_window count hi, he]

theorem advance_right_window {j : Nat} :
    advance .right (window p.letter p.k j) (p.letter (j + p.k)) =
      ⟨window p.letter p.k (j + 1), some (p.letter j), p.letter (j + p.k), false⟩ := by
  rw [advance, forwardBase_window p.k_pos, front_window p.k_pos]

theorem walkDirn_right_window (m : Nat) {j : Nat} (nextExt : Base) (u : List Base) (s : Nat)
    (hj : 0 < j) (hjm : j + m + 1 = p.n)
    (hfree : ∀ i, j ≤ i → i < p.n → owner (window p.letter p.k i) = none) :
    ∃ o, walkDirn (p.index count) .right tok (m + 1) owner
      ⟨window p.letter p.k j, some (p.letter (j - 1)), nextExt, false⟩ u s =
        some (o, s + m * count) := by
  induction m generalizing j owner nextExt u s with
  | zero =>
      rw [Nat.zero_mul, Nat.add_zero]
      exact ⟨_, walkDirn_stop
        (getNextStep_window_end count (i := j) rfl (by omega) (.inr (by omega)))⟩
  | succ m ih =>
      have hg : getNextStep (p.index count) owner .right tok
          ⟨window p.letter p.k j, some (p.letter (j - 1)), nextExt, false⟩ = _ :=
        getNextStep_window count hj (by omega) (by simp [conflicts])
          (.inl (hfree j le_rfl (by omega)))
      have hfree' : ∀ i, j + 1 ≤ i → i < p.n → Function.update owner (window p.letter p.k j)
          (some tok) (window p.letter p.k i) = none := fun i hi hin => by
        rw [Function.update_noteq fun h => by
          have := p.window_injective _ hin _ (by omega) h
          omega]
        exact hfree i (by omega) hin
      obtain ⟨o, ho⟩ := ih (j := j + 1) (p.letter (j + p.k)) (u ++ [nextExt]) (s + count)
        (by omega) (by omega) hfree'
      rw [Nat.add_sub_cancel] at ho
      refine ⟨o, ?_⟩
      rw [walkDirn_claim hg, if_neg nofun, advance_right_window, ho, Nat.add_mul, Nat.one_mul,
        Nat.add_right_comm, Nat.add_assoc]

theorem walkDirn_left_one (u : List Base) (s : Nat) (h2 : 2 < p.n)
    (h1 : owner (window p.letter p.k 1) = none) :
    walkDirn (p.index count) .left tok 2 owner (leftStart (window p.letter p.k 1)) u s =
      some (⟨u ++ [p.letter 1], .deadend, none,
        Function.update owner (window p.letter p.k 1) (some tok)⟩, s + count) := by
  have hg : getNextStep (p.index count) owner .left tok (leftStart (window p.letter p.k 1)) = _ :=
    getNextStep_window count Nat.one_pos (by omega) rfl (.inl h1)
  rw [walkDirn_claim hg, if_pos rfl, front_window p.k_pos,
    walkDirn_stop (getNextStep_window_end count (i := 0) (backwardBase_window p.k_pos) (by omega)
      (.inl rfl))]

theorem walkDirn_right_one (u : List Base) (s : Nat) (h3 : 3 ≤ p.n)
    (h1 : owner (window p.letter p.k 1) = some tok)
    (hfree : ∀ i, 2 ≤ i → i < p.n → owner (window p.letter p.k i) = none) :
    ∃ o, walkDirn (p.index count) .right tok (p.n - 1) owner (rightStart (window p.letter p.k 1))
      u s = some (o, s + (p.n - 2) * count) := by
  have hg : getNextStep (p.index count) owner .right tok (rightStart (window p.letter p.k 1)) = _ :=
    getNextStep_window count Nat.one_pos (by omega) rfl (.inr ⟨h1, rfl⟩)
  have hfree' : ∀ i, 2 ≤ i → i < p.n → Function.update owner (window p.letter p.k 1)
      (some tok) (window p.letter p.k i) = none := fun i hi hin => by
    rw [Function.update_noteq fun h => by
      have := p.window_injective _ hin _ (by omega) h
      omega]
    exact hfree i hi hin
  obtain ⟨o, ho⟩ := walkDirn_right_window count (p.n - 3) (j := 2) (p.letter (1 + p.k))
    (u ++ [back (window p.letter p.k 1)]) (s + count) (by omega) (by omega) hfree'
  refine ⟨o, ?_⟩
  rw [show p.n - 1 = p.n - 3 + 1 + 1 by omega, walkDirn_claim hg, if_neg nofun,
    advance_right_window, ho, show p.n - 2 = p.n - 3 + 1 by omega, Nat.add_mul, Nat.one_mul,
    Nat.add_right_comm, Nat.add_assoc]

/-- On one process, the fragment that `construct_frags` builds from window 1 of a path of `n`
windows stores `count % 2 ^ 32 + (n - 2) * count % 2 ^ 32`: the LEFT call claims window 1,
and the RIGHT call windows 1 to `n - 2`, each in one invocation. The exact sum is
`(n - 1) * count`. -/
theorem constructFragsWalk_path (tok : GPtr) (fuel : Nat) (h3 : 3 ≤ p.n)
    (hfuel : p.n + 2 ≤ fuel) :
    (∃ fe owner, constructFragsWalk (p.index count) oneRank tok (Interference.idle tok)
        (Interference.idle tok) fuel (fun _ => none) (window p.letter p.k 1) = some (fe, owner) ∧
      fe.sumDepths = count % 2 ^ 32 + (p.n - 2) * count % 2 ^ 32) ∧
    exactSumDepths (p.index count) tok fuel (fun _ => none) (window p.letter p.k 1) =
      some ((p.n - 1) * count) := by
  have hL : walkDirn (p.index count) .left tok 2 (fun _ => none)
      (leftStart (window p.letter p.k 1)) [] 0 = _ := walkDirn_left_one count [] 0 (by omega) rfl
  have h1 : Function.update (fun _ => none) (window p.letter p.k 1) (some tok)
      (window p.letter p.k 1) = some tok := Function.update_same _ _ _
  have hfree : ∀ i, 2 ≤ i → i < p.n → Function.update (fun _ => none) (window p.letter p.k 1)
      (some tok) (window p.letter p.k i) = none := fun i hi hin => by
    rw [Function.update_noteq fun h => by
      have := p.window_injective _ hin _ (by omega) h
      omega]
  obtain ⟨oR, hR⟩ := walkDirn_right_one count [] 0 h3 h1 hfree
  obtain ⟨oR', hR'⟩ := walkDirn_right_one count [] (0 + count) h3 h1 hfree
  have hlen : (p.index count).entries.length + 2 ≤ fuel := by simpa using hfuel
  constructor
  · obtain ⟨fe, owner', gl, oL, sL, gr, oR'', sR, h, hL', hR'', hs⟩ :=
      constructFragsWalk_oneRank tok (fun _ => none) (window p.letter p.k 1) hlen
    obtain ⟨rfl, rfl⟩ := Prod.mk.inj (walkDirn_unique hL' hL)
    obtain ⟨-, rfl⟩ := Prod.mk.inj (walkDirn_unique hR'' hR)
    exact ⟨fe, owner', h, by rw [hs, Nat.zero_add, Nat.zero_add]⟩
  · have hL' := walkDirn_add hL (fuel - 2)
    have hR'' := walkDirn_add hR' (fuel - (p.n - 1))
    rw [Nat.add_sub_cancel' (by omega)] at hL' hR''
    rw [exactSumDepths, hL', Option.some_bind]
    dsimp only
    rw [hR'', Option.map_some', show p.n - 1 = p.n - 2 + 1 by omega, Nat.add_mul, Nat.one_mul,
      Nat.zero_add, Nat.add_comm]

end Path

section Blocks

/-- The letter at position `q` of a sequence of blocks of 16 bases: `G` opens block `q / 16`,
offsets 1 and 15 hold `A`, and offsets 2 to 14 spell the block number in binary, `C` for a one
and `A` for a zero. -/
def blockLetter (q : Nat) : Base :=
  if q % 16 = 0 then .G
  else if q % 16 = 1 ∨ q % 16 = 15 then .A
  else if (q / 16).testBit (q % 16 - 2) then .C else .A

theorem blockLetter_eq_G_iff {q : Nat} : blockLetter q = .G ↔ q % 16 = 0 := by
  unfold blockLetter
  split_ifs with h0 <;> simp [h0]

theorem blockLetter_of_mod_ne_zero {q : Nat} (h : q % 16 ≠ 0) :
    blockLetter q = .A ∨ blockLetter q = .C := by
  rw [blockLetter, if_neg h]
  split_ifs <;> simp

theorem blockLetter_bit {x a m : Nat} (hx : (x + a) % 16 = 0) (hm : m < 13) :
    blockLetter (x + (a + 2 + m)) = if ((x + a) / 16).testBit m then .C else .A := by
  have hq : (x + (a + 2 + m)) % 16 = m + 2 := by omega
  have hd : (x + (a + 2 + m)) / 16 = (x + a) / 16 := by omega
  rw [blockLetter, if_neg (by omega), if_neg (by omega), hq, hd, Nat.add_sub_cancel]

theorem testBit_eq_of_blockLetter {x y : Bool}
    (h : (if x then Base.C else .A) = if y then .C else .A) : x = y := by
  cases x <;> cases y <;> simp_all

theorem blockLetter_code_lt (i : Nat) :
    (blockLetter i).code < (blockLetter (i + 31)).comp.code := by
  by_cases h0 : i % 16 = 0
  · rw [blockLetter, if_pos h0, blockLetter, if_neg (by omega), if_pos (.inr (by omega))]
    decide
  · by_cases h1 : i % 16 = 1
    · rw [blockLetter, if_neg h0, if_pos (.inl h1),
        (blockLetter_eq_G_iff (q := i + 31)).2 (by omega)]
      decide
    · have hi : (blockLetter i).code ≤ 1 := by
        rcases blockLetter_of_mod_ne_zero h0 with h | h <;> rw [h] <;> decide
      have hl : 2 ≤ (blockLetter (i + 31)).comp.code := by
        rcases blockLetter_of_mod_ne_zero (q := i + 31) (by omega) with h | h <;> rw [h] <;> decide
      omega

theorem blockWindow_canonical (i : Nat) : isRc (window blockLetter 32 i) = false :=
  isRc_of_code_lt (List.ne_nil_of_length_pos (by simp)) (by
    rw [front_window (by decide), back_window (by decide)]
    exact blockLetter_code_lt i)

theorem blockWindow_injective {i j : Nat} (hi : i < 131041) (hj : j < 131041)
    (h : window blockLetter 32 i = window blockLetter 32 j) : i = j := by
  have hl : ∀ m < 32, blockLetter (i + m) = blockLetter (j + m) := fun m hm => by
    simpa [getElem?_window hm] using congrArg (·[m]?) h
  obtain ⟨a, ha, hia⟩ : ∃ a, a < 16 ∧ (i + a) % 16 = 0 :=
    ⟨(16 - i % 16) % 16, by omega, by omega⟩
  have hja : (j + a) % 16 = 0 :=
    blockLetter_eq_G_iff.1 ((hl a (by omega)).symm.trans (blockLetter_eq_G_iff.2 hia))
  have hb : (i + a) / 16 = (j + a) / 16 := by
    refine Nat.eq_of_testBit_eq fun m => ?_
    by_cases hm : m < 13
    · have hlm := hl (a + 2 + m) (by omega)
      rw [blockLetter_bit hia hm, blockLetter_bit hja hm] at hlm
      exact testBit_eq_of_blockLetter hlm
    · have h13 : 2 ^ 13 ≤ 2 ^ m := Nat.pow_le_pow_right (by decide) (by omega)
      rw [Nat.testBit_lt_two_pow (by omega), Nat.testBit_lt_two_pow (by omega)]
  omega

/-- The 8192 blocks as a path of 131041 windows of length 32. -/
def blockPath : Path :=
  ⟨blockLetter, 32, 131041, by decide, fun _ hi _ hj h => blockWindow_injective hi hj h,
    fun i _ => blockWindow_canonical i⟩

theorem fragment_sum_depths_wraps :
    (∀ e ∈ (blockPath.index 65535).entries, e.2.count ≤ 65535) ∧
      find (window blockLetter 32 1) (blockPath.index 65535).entries =
        some (blockPath.counts 65535 1) ∧ (blockPath.counts 65535 1).isWalkable = true ∧
      ∃ fe owner, constructFragsWalk (blockPath.index 65535) oneRank ⟨0, 0⟩
          (Interference.idle ⟨0, 0⟩) (Interference.idle ⟨0, 0⟩) 131043 (fun _ => none)
          (window blockLetter 32 1) = some (fe, owner) ∧
        exactSumDepths (blockPath.index 65535) ⟨0, 0⟩ 131043 (fun _ => none)
          (window blockLetter 32 1) = some (fe.sumDepths + 2 ^ 32) := by
  obtain ⟨⟨fe, owner, h, hs⟩, hx⟩ :=
    blockPath.constructFragsWalk_path 65535 ⟨0, 0⟩ 131043 (by decide) (by decide)
  refine ⟨fun e he => (blockPath.count_of_mem_index 65535 he).le,
    blockPath.find_window 65535 (by decide), rfl, fe, owner, h, ?_⟩
  rw [hs]
  exact hx.trans (congrArg some rfl)

end Blocks

end Mhm2Proxy.SumDepths
