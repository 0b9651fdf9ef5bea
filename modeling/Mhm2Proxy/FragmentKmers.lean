import Mhm2Proxy.ConstructInvariant
import Mhm2Proxy.Ownership
import Mathlib.Data.List.Nodup

/-!
What `construct_frags` builds. Once every process has gone through its shard, the fragments
split the index k-mers with a base on both sides: each such k-mer is a window of exactly one
fragment, once. The proof reads this off the invariant of `ConstructInvariant`; it needs
`k ≥ 2`, and at `k = 1` a fragment spells its start k-mer twice.
-/

namespace Mhm2Proxy.FragmentKmers

open Mhm2Proxy.Kmer
open Mhm2Proxy.KmerIndex
open Mhm2Proxy.GetNextStep
open Mhm2Proxy.ConstructFrags
open Mhm2Proxy.ConstructInvariant
open Mhm2Proxy.Ownership

variable (d : KmerDHT) (L : Layout)

/-- The canonical forms of the length-`k` windows of all fragments, process by process. -/
def fragKmers (s : Sys) : List (List Base) :=
  (s.allFrags L).flatMap fun f => (windows d.kmerLen f.fragSeq).map canonical

/-- The fragments' k-mers are pairwise distinct, and they are exactly the index k-mers whose
extensions are both bases. -/
def FragsPartition (s : Sys) : Prop :=
  (fragKmers d L s).Nodup ∧
    ∀ x, x ∈ fragKmers d L s ↔ ∃ kc, (x, kc) ∈ d.entries ∧ kc.isWalkable = true

variable {d L}

theorem done_spec {s : Sys} (hdone : s.done d L = true) {r : Nat} (hr : r < L.rankN) :
    (s.procs r).walk = none ∧ (localKmers d L r).length ≤ (s.procs r).it := by
  simp only [Sys.done, List.all_eq_true, List.mem_range, Bool.and_eq_true, Option.isNone_iff_eq_none,
    decide_eq_true_eq] at hdone
  exact hdone r hr

section Done

variable {s : Sys} {r : Nat}

theorem keysOf_frag (hw : (s.procs r).walk = none) {i : Nat}
    (hi : i < (s.procs r).fragElems.length) :
    keysOf d s ⟨r, i⟩ = (windows d.kmerLen (s.procs r).fragElems[i].fragSeq).map canonical := by
  unfold keysOf seqOf
  rw [seqs_of_none hw, List.getD_eq_getElem _ _ (by simpa using hi), List.getElem_map]

theorem keysOf_of_le (hw : (s.procs r).walk = none) {i : Nat}
    (hi : (s.procs r).fragElems.length ≤ i) : keysOf d s ⟨r, i⟩ = [] := by
  unfold keysOf seqOf
  rw [seqs_of_none hw, List.getD_eq_default _ _ (by simpa using hi)]
  rfl

theorem mem_keysOf_of_frag (hw : (s.procs r).walk = none) {f : FragElem}
    (hf : f ∈ (s.procs r).fragElems) {x : List Base}
    (hx : x ∈ (windows d.kmerLen f.fragSeq).map canonical) : ∃ i, x ∈ keysOf d s ⟨r, i⟩ := by
  obtain ⟨i, hi, rfl⟩ := List.mem_iff_getElem.1 hf
  exact ⟨i, by rw [keysOf_frag hw hi]; exact hx⟩

theorem eq_of_mem_keysOf (h : Owned d s) {x : List Base} {t t' : GPtr}
    (hx : x ∈ keysOf d s t) (hx' : x ∈ keysOf d s t') : t = t' := by
  have := h.mem_owner x t hx
  rw [h.mem_owner x t' hx', Option.some.injEq] at this
  exact this.symm

variable (hdone : s.done d L = true)
include hdone

theorem mem_fragKmers {x : List Base} :
    x ∈ fragKmers d L s ↔ ∃ t : GPtr, t.rank < L.rankN ∧ x ∈ keysOf d s t := by
  simp only [fragKmers, Sys.allFrags, List.flatMap_assoc, List.mem_flatMap, List.mem_range]
  constructor
  · rintro ⟨r, hr, f, hf, hx⟩
    obtain ⟨i, hi⟩ := mem_keysOf_of_frag (done_spec hdone hr).1 hf hx
    exact ⟨⟨r, i⟩, hr, hi⟩
  · rintro ⟨⟨r, i⟩, hr, hx⟩
    dsimp only at hr
    have hw := (done_spec hdone hr).1
    by_cases hi : i < (s.procs r).fragElems.length
    · rw [keysOf_frag hw hi] at hx
      exact ⟨r, hr, _, List.getElem_mem hi, hx⟩
    · rw [keysOf_of_le hw (by omega)] at hx
      cases hx

theorem nodup_fragKmers (h : Inv d L s) : (fragKmers d L s).Nodup := by
  unfold fragKmers Sys.allFrags
  rw [List.flatMap_assoc]
  refine List.nodup_flatMap.2 ⟨fun r hr => ?_, (List.nodup_range L.rankN).imp_of_mem ?_⟩
  · have hw := (done_spec hdone (List.mem_range.1 hr)).1
    refine List.nodup_flatMap.2 ⟨fun f hf => ?_, List.pairwise_iff_getElem.2 ?_⟩
    · obtain ⟨i, hi, rfl⟩ := List.mem_iff_getElem.1 hf
      rw [← keysOf_frag hw hi]
      exact h.owned.nodup _
    · intro i j hi hj hij x hxi hxj
      dsimp only at hxi hxj
      rw [← @keysOf_frag d s r hw i hi] at hxi
      rw [← @keysOf_frag d s r hw j hj] at hxj
      have := eq_of_mem_keysOf h.owned hxi hxj
      simp only [GPtr.mk.injEq, true_and] at this
      omega
  · intro a b ha hb hab x hxa hxb
    obtain ⟨fa, hfa, hxa⟩ := List.mem_flatMap.1 hxa
    obtain ⟨fb, hfb, hxb⟩ := List.mem_flatMap.1 hxb
    obtain ⟨i, hi⟩ := mem_keysOf_of_frag (done_spec hdone (List.mem_range.1 ha)).1 hfa hxa
    obtain ⟨j, hj⟩ := mem_keysOf_of_frag (done_spec hdone (List.mem_range.1 hb)).1 hfb hxb
    exact hab (congrArg GPtr.rank (eq_of_mem_keysOf h.owned hi hj))

theorem mem_fragKmers_iff (h : Inv d L s) {x : List Base} :
    x ∈ fragKmers d L s ↔ ∃ kc, (x, kc) ∈ d.entries ∧ kc.isWalkable = true := by
  rw [mem_fragKmers hdone]
  constructor
  · rintro ⟨t, -, hx⟩
    exact (h.owner_entry x t (h.owned.mem_owner x t hx)).2
  · rintro ⟨kc, hent, hw⟩
    have hloc : (x, kc) ∈ localKmers d L (L.home x) := (mem_localKmers d L).2 ⟨hent, rfl⟩
    obtain ⟨i, hi⟩ := List.get?_of_mem hloc
    have hlt : i < (localKmers d L (L.home x)).length := (List.get?_eq_some.1 hi).1
    have hit := (done_spec hdone (L.home_lt x)).2
    obtain ⟨t, ht⟩ := Option.isSome_iff_exists.1 (h.shard_owned _ i _ (by omega) hi hw)
    exact ⟨t, (h.owner_entry x t ht).1, h.owned.owner_mem x t ht⟩

end Done

/-- After `construct_frags` has finished on all processes, with `k ≥ 2`, the fragments' k-mers
are pairwise distinct and are exactly the index k-mers whose extensions are both bases. -/
theorem frags_partition (hk : 2 ≤ d.kmerLen) {s : Sys} (hs : Reachable d L s)
    (hdone : s.done d L = true) : FragsPartition d L s :=
  have h := inv_of_reachable hk hs
  ⟨nodup_fragKmers hdone h, fun _ => mem_fragKmers_iff hdone h⟩

/-- The counts of a k-mer with extensions `l` and `r`. -/
def ext (l r : Base) : KmerCounts :=
  ⟨1, .base l, .base r⟩

/-- The 4-mers of the palindrome `CCAAGACGTCTTGG` with the extensions it gives. The middle
4-mer `ACGT` is its own reverse complement: both its neighbours are the 4-mer `CGTC`. -/
def hairpinIdx : KmerDHT :=
  ⟨4, by decide,
    [([.C, .A, .A, .G], ext .C .A), ([.C, .C, .A, .A], ⟨1, .deadend, .base .G⟩),
     ([.A, .A, .G, .A], ext .C .C), ([.A, .G, .A, .C], ext .A .G),
     ([.C, .G, .T, .C], ext .A .T), ([.A, .C, .G, .T], ext .G .C)],
    by decide, by decide, by decide⟩

/-- Two processes; the palindrome `ACGT` lives on process 1. -/
def hairpinLayout : Layout :=
  ⟨2, fun x => if x = [.A, .C, .G, .T] then 1 else 0, fun x => by
    dsimp only
    split <;> decide⟩

def hairpinRun : Sys :=
  runConstruct hairpinIdx hairpinLayout Sys.init [0, 0, 0, 0, 0, 0, 1, 1, 1, 1, 0, 0, 0, 0, 0]

/-- The run `hairpin_loses_kmers` shows: process 0 builds `CAAGACG`, whose last window `GACG`
is stored as its reverse complement `CGTC`, and process 1 builds `ACGT`. -/
theorem frags_partition_hairpin :
    2 ≤ hairpinIdx.kmerLen ∧ Reachable hairpinIdx hairpinLayout hairpinRun ∧
      hairpinRun.done hairpinIdx hairpinLayout = true ∧
      (List.range 2).map (fun r => (hairpinRun.procs r).fragElems.map FragElem.fragSeq) =
        [[[.C, .A, .A, .G, .A, .C, .G]], [[.A, .C, .G, .T]]] ∧
      FragsPartition hairpinIdx hairpinLayout hairpinRun :=
  have hs := reachable_runConstruct hairpinIdx hairpinLayout .init _
  have hdone : hairpinRun.done hairpinIdx hairpinLayout = true := by decide
  ⟨by decide, hs, hdone, by decide, frags_partition (by decide) hs hdone⟩

/-- At `k = 1` the claim fails: the run of `A`s gives one fragment `AA`, whose two windows
are both the start k-mer, claimed by the LEFT call and revisited by the RIGHT call. -/
theorem polyA_frag_repeats_kmer :
    (runConstruct polyA oneRank Sys.init [0, 0, 0, 0]).done polyA oneRank = true ∧
      fragKmers polyA oneRank (runConstruct polyA oneRank Sys.init [0, 0, 0, 0]) = [[.A], [.A]] ∧
      ¬ (fragKmers polyA oneRank (runConstruct polyA oneRank Sys.init [0, 0, 0, 0])).Nodup := by
  decide

end Mhm2Proxy.FragmentKmers
