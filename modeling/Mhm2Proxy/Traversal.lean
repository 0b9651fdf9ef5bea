import Mhm2Proxy.FragmentKmers
import Mhm2Proxy.WindowKeys
import Mhm2Proxy.ConnectFrags

/-!
`traverse_debruijn_graph`: `construct_frags`, then `clean_frag_links` on the fragments it
built, then `connect_frags` on each process. What the three phases together guarantee of
the uutigs, and the runs where they do not give what the traversal is for.
-/

namespace Mhm2Proxy.Traversal

open Mhm2Proxy.Kmer
open Mhm2Proxy.KmerIndex
open Mhm2Proxy.GetNextStep
open Mhm2Proxy.ConstructFrags
open Mhm2Proxy.Ownership
open Mhm2Proxy.FragmentKmers
open Mhm2Proxy.WindowKeys
open Mhm2Proxy.CleanLinks
open Mhm2Proxy.ConnectFrags

/-- The `frag_elems` of every process at the end of `construct_frags`. -/
def fragsOf (s : Sys) : Frags :=
  fun r => (s.procs r).fragElems

/-- `check_kmers`: every k-mer of the sequence, made canonical, is in the index. -/
def checkKmers (d : KmerDHT) (seq : List Base) : Bool :=
  (windows d.kmerLen seq).all fun x => (find (canonical x) d.entries).isSome

variable {d : KmerDHT} {L : Layout}

theorem checkKmers_of_keysOk {seq : List Base} (h : KeysOk d seq) : checkKmers d seq = true := by
  unfold checkKmers
  rw [List.all_eq_true]
  intro x hx
  obtain ⟨kc, hkc⟩ := h x hx
  rw [find_of_mem d.nodup_keys hkc]
  rfl

/-- Every window of every uutig a process adds, made canonical, is a key of the index, so the
`DEBUG` pass of `check_kmers` never fails: the fragments spell index k-mers only, cleaning
keeps their sequences, and the joins of `walk_frags_dirn`, forward or reverse complemented,
make no new window. -/
theorem uutig_kmers_in_index {s : Sys} (hs : Reachable d L s) (σ : List Nat) (r : Nat)
    {us : List Uutig}
    (hus : connectFrags d.kmerLen (runClean d.kmerLen (CleanSys.init (fragsOf s)) σ).frags r =
      some (.ok us)) :
    ∀ u ∈ us, (∀ x ∈ windows d.kmerLen u.seq, ∃ kc, (canonical x, kc) ∈ d.entries) ∧
      checkKmers d u.seq = true := by
  have hP : ∀ x : List Base, (∃ kc, (canonical x, kc) ∈ d.entries) →
      ∃ kc, (canonical (revcomp x), kc) ∈ d.entries := fun x hx => by
    rwa [canonical_revcomp]
  have hF : ∀ q, ∀ v ∈ ((runClean d.kmerLen (CleanSys.init (fragsOf s)) σ).frags q).map
      FragElem.fragSeq, KeysOk d v := fun q v hv => by
    rw [fragSeqs_runClean] at hv
    obtain ⟨f, hf, rfl⟩ := List.mem_map.1 hv
    exact (kinv_of_reachable hs).frag_ok q f hf
  intro u hu
  have hk := connectLoop_windows d.kmerLen_pos hP _ _ hF us hus u hu
  exact ⟨hk, checkKmers_of_keysOk hk⟩

/-- The 3-mers of `GAACTTGTA`. `AAC` and `ACT` are canonical as the sequence reads them, `AAG`,
`CAA` and `ACA` on the other strand. -/
def strandIdx : KmerDHT :=
  ⟨3, by decide,
    [([.G, .A, .A], ⟨1, .deadend, .base .C⟩), ([.A, .A, .C], ext .G .T), ([.A, .C, .T], ext .A .T),
     ([.A, .A, .G], ext .C .T), ([.C, .A, .A], ext .A .G), ([.A, .C, .A], ext .T .A),
     ([.G, .T, .A], ⟨1, .base .T, .deadend⟩)],
    by decide, by decide, by decide⟩

/-- Two processes; the k-mers of the other strand live on process 1. -/
def strandLayout : Layout :=
  ⟨2, fun x => if x = [.A, .A, .G] ∨ x = [.C, .A, .A] ∨ x = [.A, .C, .A] then 1 else 0, fun x => by
    dsimp only
    split <;> decide⟩

/-- The two processes take turns. -/
def strandRun : Sys :=
  runConstruct strandIdx strandLayout Sys.init ((List.range 16).map (· % 2))

def strandClean : CleanSys :=
  runClean 3 (CleanSys.init (fragsOf strandRun)) [0, 1, 0, 1]

/-- Each process builds the fragment of its strand, `AACT` and `ACAAG`, and their right ends
link to each other. Process 1 joins `AACT` reverse complemented behind `ACAAG`. -/
theorem uutig_kmers_in_index_strands :
    strandRun.done strandIdx strandLayout = true ∧ strandClean.done 2 = true ∧
      (fragsOf strandRun 0).map (fun f => (f.fragSeq, f.rightGptr)) =
        [([.A, .A, .C, .T], some ⟨1, 0⟩)] ∧
      (fragsOf strandRun 1).map (fun f => (f.fragSeq, f.rightGptr)) =
        [([.A, .C, .A, .A, .G], some ⟨0, 0⟩)] ∧
      connectFrags 3 strandClean.frags 1 = some (.ok [⟨[.A, .C, .A, .A, .G, .T, .T], 7, 6⟩]) ∧
      ∀ u ∈ [(⟨[.A, .C, .A, .A, .G, .T, .T], 7, 6⟩ : Uutig)],
        (∀ x ∈ windows strandIdx.kmerLen u.seq, ∃ kc, (canonical x, kc) ∈ strandIdx.entries) ∧
          checkKmers strandIdx u.seq = true :=
  have hus : connectFrags strandIdx.kmerLen
      (runClean strandIdx.kmerLen (CleanSys.init (fragsOf strandRun)) [0, 1, 0, 1]).frags 1 =
        some (.ok [⟨[.A, .C, .A, .A, .G, .T, .T], 7, 6⟩]) := rfl
  ⟨by decide, by decide, by decide, by decide, hus,
    uutig_kmers_in_index (reachable_runConstruct strandIdx strandLayout .init _) _ 1 hus⟩

/-- Five 3-mers around `AACC`, `CCAA` and `AAG`: the 2-mer `AA` ends `CCAA` and starts its
left neighbour `AACC`. -/
def misjoinIdx : KmerDHT :=
  ⟨3, by decide,
    [([.A, .C, .C], ext .A .A), ([.A, .A, .C], ext .T .C), ([.A, .A, .G], ext .C .T),
     ([.C, .C, .A], ext .A .A), ([.C, .A, .A], ext .C .G)],
    by decide, by decide, by decide⟩

/-- Two processes; `CCA` and `CAA` live on process 1. -/
def misjoinLayout : Layout :=
  ⟨2, fun x => if x = [.C, .C, .A] ∨ x = [.C, .A, .A] then 1 else 0, fun x => by
    dsimp only
    split <;> decide⟩

def misjoinRun : Sys :=
  runConstruct misjoinIdx misjoinLayout Sys.init [0, 0, 0, 1, 1, 0, 0, 1, 1, 0, 0, 0, 0, 0, 1, 1]

def misjoinClean : CleanSys :=
  runClean 3 (CleanSys.init (fragsOf misjoinRun)) [0, 0, 0, 0, 1, 1]

/-- A run that dies: process 1's fragment `CCAA` links left to `AACC` and right to `AAG`.
Its suffix `AA` is also the prefix of `AACC`, so the left walk takes `AACC` for a right
neighbour and glues it behind; then `AAG` overlaps the uutig `CCAACC` in no way, and
`walk_frags_dirn` dies with "No overlap". -/
theorem misjoin_dies_no_overlap :
    misjoinRun.done misjoinIdx misjoinLayout = true ∧ misjoinClean.done 2 = true ∧
      (fragsOf misjoinRun 1).map (fun f => (f.fragSeq, f.leftGptr, f.rightGptr)) =
        [([.C, .C, .A, .A], some ⟨0, 0⟩, some ⟨0, 1⟩)] ∧
      connectFrags 3 misjoinClean.frags 1 = some (.error (.die "No overlap")) :=
  ⟨by decide, by decide, by decide, rfl⟩

/-- The 3-mers of the circular sequence `AAACCC`, with the extensions the circle gives. -/
def cycleIdx : KmerDHT :=
  ⟨3, by decide,
    [([.A, .A, .A], ext .C .C), ([.A, .A, .C], ext .A .C), ([.C, .C, .C], ext .A .A),
     ([.C, .A, .A], ext .C .A), ([.A, .C, .C], ext .A .C), ([.C, .C, .A], ext .C .A)],
    by decide, by decide, by decide⟩

/-- Three processes, each starting a walk on the circle: `ACC` lives on process 1, `CCA` on
process 2. -/
def cycleLayout : Layout :=
  ⟨3, fun x => if x = [.A, .C, .C] then 1 else if x = [.C, .C, .A] then 2 else 0, fun x => by
    dsimp only
    split
    · decide
    · split <;> decide⟩

/-- The three processes take turns. -/
def cycleRun : Sys :=
  runConstruct cycleIdx cycleLayout Sys.init ((List.range 22).map (· % 3))

def cycleClean : CleanSys :=
  runClean 3 (CleanSys.init (fragsOf cycleRun)) [0, 0, 1, 1, 2, 2]

/-- A uutig with a k-mer twice: the three walks split the circle into the fragments `CAAA`,
`AACC` and `CCCA`, linked in a cycle. Process 2 walks the cycle from `CCCA` to the left and,
with a fresh visited table, again to the right, and spells `AAA` (and `AAC`, `ACC`, `CAA`)
twice. -/
theorem cycle_uutig_repeats_kmer :
    cycleRun.done cycleIdx cycleLayout = true ∧ cycleClean.done 3 = true ∧
      connectFrags 3 cycleClean.frags 2 =
        some (.ok [⟨[.C, .A, .A, .A, .C, .C, .C, .A, .A, .A, .C, .C], 15, 11⟩]) ∧
      ¬ ((windows 3 [.C, .A, .A, .A, .C, .C, .C, .A, .A, .A, .C, .C]).map canonical).Nodup :=
  ⟨by decide, by decide, rfl, by decide⟩

def hairpinClean : CleanSys :=
  runClean 4 (CleanSys.init (fragsOf hairpinRun)) [0, 0, 1]

/-- A completed run that loses four index k-mers with a base on both sides. The walk of
process 1 from `ACGT` meets `CGTC` of process 0's fragment on both sides, so both its links
point there; cleaning clears two equal links. Process 0's fragment `CAAGACG` still links to
`ACGT` on process 1, so its walk is dropped by the rank tie-break, and no walk reaches it:
`CAAG`, `AAGA`, `AGAC` and `CGTC` are in no uutig. -/
theorem hairpin_loses_kmers :
    hairpinRun.done hairpinIdx hairpinLayout = true ∧ hairpinClean.done 2 = true ∧
      (fragsOf hairpinRun 0).map (fun f => (f.fragSeq, f.leftGptr, f.rightGptr)) =
        [([.C, .A, .A, .G, .A, .C, .G], none, some ⟨1, 0⟩)] ∧
      connectFrags 4 hairpinClean.frags 0 = some (.ok []) ∧
      connectFrags 4 hairpinClean.frags 1 = some (.ok [⟨[.A, .C, .G, .T], 2, 2⟩]) ∧
      (find [.C, .A, .A, .G] hairpinIdx.entries).map KmerCounts.isWalkable = some true ∧
      [Base.C, .A, .A, .G] ∉ (windows 4 [.A, .C, .G, .T]).map canonical :=
  ⟨by decide, by decide, by decide, rfl, rfl, by decide, by decide⟩

end Mhm2Proxy.Traversal
