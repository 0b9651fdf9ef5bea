import Mhm2Proxy.Kmer

namespace Mhm2Proxy.KmerIndex

open Mhm2Proxy.Kmer

/-- An extension character of `KmerCounts`: the chosen base, `'F'` for a fork or `'X'` for a
dead end. -/
inductive Ext
  | base (b : Base)
  | fork
  | deadend
  deriving DecidableEq, Repr

/-- Modelled from the spec: `KmerCounts`, the value of the k-mer index (its header is not in
the sources). The owner pointer `uutig_frag` is the only field the traversal writes; it is
kept in the traversal state, next to the frozen counts. -/
structure KmerCounts where
  count : Nat
  left : Ext
  right : Ext
  deriving DecidableEq, Repr

/-- Neither side is `'X'` nor `'F'`: the test `construct_frags` makes before it starts a
walk. -/
def KmerCounts.isWalkable (kc : KmerCounts) : Bool :=
  match kc.left, kc.right with
  | .base _, .base _ => true
  | _, _ => false

/-- Modelled from the spec: the k-mer index after `finish_updates`. Every key is a canonical
k-mer of length `kmerLen`, and a key occurs once. -/
structure KmerDHT where
  kmerLen : Nat
  kmerLen_pos : 0 < kmerLen
  entries : List (List Base × KmerCounts)
  nodup_keys : (entries.map Prod.fst).Nodup
  canonical_key : ∀ e ∈ entries, canonical e.1 = e.1
  length_key : ∀ e ∈ entries, e.1.length = kmerLen

/-- `get_local_kmer_counts`: the counts stored under a key. -/
def find (key : List Base) : List (List Base × KmerCounts) → Option KmerCounts
  | [] => none
  | e :: es => if e.1 = key then some e.2 else find key es

theorem mem_of_find {key : List Base} {kc : KmerCounts} :
    ∀ {es : List (List Base × KmerCounts)}, find key es = some kc → (key, kc) ∈ es
  | [], h => by simp [find] at h
  | e :: es, h => by
      simp only [find] at h
      split at h
      · rename_i he
        cases h
        exact List.mem_cons.2 (.inl (by rw [← he]))
      · exact List.mem_cons_of_mem _ (mem_of_find h)

theorem find_of_mem {key : List Base} {kc : KmerCounts} :
    ∀ {es : List (List Base × KmerCounts)}, (es.map Prod.fst).Nodup → (key, kc) ∈ es →
      find key es = some kc
  | [], _, h => by simp at h
  | e :: es, hnd, h => by
      simp only [List.map_cons, List.nodup_cons, List.mem_map] at hnd
      simp only [find]
      rcases List.mem_cons.1 h with rfl | h
      · simp
      · have hne : e.1 ≠ key := fun he => hnd.1 ⟨(key, kc), h, he.symm⟩
        rw [if_neg hne]
        exact find_of_mem hnd.2 h

/-- The distribution of the index over processes: `rankN` processes, and the home process
of each key (`get_kmer_target_rank`, a hash of the canonical k-mer modulo `rank_n()`). -/
structure Layout where
  rankN : Nat
  home : List Base → Nat
  home_lt : ∀ x, home x < rankN

variable (d : KmerDHT) (L : Layout)

/-- `local_kmers_begin()` to `local_kmers_end()` of process `r`: its shard of the index. -/
def localKmers (r : Nat) : List (List Base × KmerCounts) :=
  d.entries.filter fun e => L.home e.1 = r

theorem mem_localKmers {r : Nat} {e : List Base × KmerCounts} :
    e ∈ localKmers d L r ↔ e ∈ d.entries ∧ L.home e.1 = r := by
  simp [localKmers]

end Mhm2Proxy.KmerIndex
