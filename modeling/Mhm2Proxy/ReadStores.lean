import Mhm2Proxy.ProcessAlns
import Mhm2Proxy.AppendStore

/-! The two distributed hash tables through which the local assembly gives each contig its reads
(`localassm_core.cpp`). `process_alns` sends each read's contigs to the read's rank in
`ReadsToCtgsDHT`, `add_ctg` sends each contig to its rank in `CtgsWithReadsDHT`, and
`process_reads` fetches the contigs of every read and sends the read, oriented for each contig,
to that contig's rank. A rank applies the updates it receives with its store's update function,
one at a time and in whatever order they arrive: the results here hold for every order. -/

namespace Mhm2Proxy.LocalAssm

open ContigsFile (Contig revcomp swapBases revcomp_eq_swapBases mapM_eq_ok)
open AppendStore (AppendMap)

section ReadsToCtgs

variable (readTargetRank : List Char → Nat)

/-- An `rtc_store` update as the read's rank applies it: `get_target_rank(read_id)`, a hash of
the id modulo the number of ranks, is `readTargetRank`, and each rank's `reads_to_ctgs_map`
appends the contig to the read's vector. -/
def rtcDeliver (dht : Nat → AppendMap (List Char) CtgInfo) (u : List Char × CtgInfo) :
    Nat → AppendMap (List Char) CtgInfo :=
  AppendStore.deliver readTargetRank dht u

/-- `get_ctgs(read_id)`: the lookup at the read's rank, empty for a read with no entry. -/
def getCtgs (dht : Nat → AppendMap (List Char) CtgInfo) (readId : List Char) : List CtgInfo :=
  AppendStore.lookup readTargetRank dht readId

/-- `get_ctgs(target_rank, read_ids)`: the contigs of each read, looked up at the target rank. -/
def getCtgsBatch (dht : Nat → AppendMap (List Char) CtgInfo) (targetRank : Nat)
    (readIds : List (List Char)) : List (List CtgInfo) :=
  readIds.map (dht targetRank).find

theorem getCtgs_foldl_rtcDeliver (r : List Char) (ds : List (List Char × CtgInfo))
    (dht : Nat → AppendMap (List Char) CtgInfo) :
    getCtgs readTargetRank (ds.foldl (rtcDeliver readTargetRank) dht) r =
      getCtgs readTargetRank dht r ++ (ds.filter (·.1 = r)).map Prod.snd :=
  AppendStore.lookup_foldl_deliver readTargetRank r ds dht

/-- `ReadsToCtgsDHT` once `flush_updates` has delivered every mapping `process_alns` sent, in any
order `delivered`: `get_ctgs` gives each read exactly the contigs sent for it, in the order they
were delivered, so none is lost or repeated, whichever rank the read hashes to. -/
theorem reads_to_ctgs_complete {sent delivered : List (List Char × CtgInfo)}
    (h : delivered.Perm sent) (r : List Char) :
    getCtgs readTargetRank (delivered.foldl (rtcDeliver readTargetRank) fun _ => .empty) r =
        (delivered.filter (·.1 = r)).map Prod.snd ∧
      (getCtgs readTargetRank (delivered.foldl (rtcDeliver readTargetRank) fun _ => .empty) r).Perm
        ((sent.filter (·.1 = r)).map Prod.snd) := by
  have he := getCtgs_foldl_rtcDeliver readTargetRank r delivered fun _ => .empty
  rw [show getCtgs readTargetRank (fun _ => .empty) r = [] from rfl, List.nil_append] at he
  exact ⟨he, he ▸ (h.filter _).map _⟩

theorem reads_to_ctgs_complete_swapped :
    [(['r', '2'], (⟨4, '-', 'L'⟩ : CtgInfo)), (['r', '1'], ⟨7, '+', 'R'⟩)].Perm
        [(['r', '1'], ⟨7, '+', 'R'⟩), (['r', '2'], ⟨4, '-', 'L'⟩)] ∧
      getCtgs (fun readId => readId.length % 2)
          ([(['r', '2'], (⟨4, '-', 'L'⟩ : CtgInfo)), (['r', '1'], ⟨7, '+', 'R'⟩)].foldl
            (rtcDeliver fun readId => readId.length % 2) fun _ => .empty) ['r', '1'] =
        ([(['r', '2'], (⟨4, '-', 'L'⟩ : CtgInfo)), (['r', '1'], ⟨7, '+', 'R'⟩)].filter
          (·.1 = ['r', '1'])).map Prod.snd ∧
      (getCtgs (fun readId => readId.length % 2)
          ([(['r', '2'], (⟨4, '-', 'L'⟩ : CtgInfo)), (['r', '1'], ⟨7, '+', 'R'⟩)].foldl
            (rtcDeliver fun readId => readId.length % 2) fun _ => .empty) ['r', '1']).Perm
        (([(['r', '1'], (⟨7, '+', 'R'⟩ : CtgInfo)), (['r', '2'], ⟨4, '-', 'L'⟩)].filter
          (·.1 = ['r', '1'])).map Prod.snd) :=
  ⟨List.Perm.swap _ _ _, reads_to_ctgs_complete _ (List.Perm.swap _ _ _) ['r', '1']⟩

end ReadsToCtgs

section Buckets

variable {α β : Type} (key : α → Nat) (keep : α → Prop) [DecidablePred keep] (g : α → List β)

theorem flatMap_ite_eq_of_mem {x : List β} {k : Nat} :
    ∀ {ranks : List Nat}, ranks.Nodup → k ∈ ranks →
      ranks.flatMap (fun t => if k = t then x else []) = x
  | [], _, hk => absurd hk (List.not_mem_nil _)
  | t :: ts, hnd, hk => by
      obtain ⟨hnt, hnd'⟩ := List.nodup_cons.1 hnd
      rw [List.flatMap_cons]
      by_cases hkt : k = t
      · subst hkt
        have hrest : ts.flatMap (fun t => if k = t then x else []) = [] :=
          List.flatMap_eq_nil_iff.2 fun t ht => if_neg fun hk : k = t => hnt (hk ▸ ht)
        rw [if_pos rfl, hrest, List.append_nil]
      · rw [if_neg hkt, List.nil_append]
        exact flatMap_ite_eq_of_mem hnd' ((List.mem_cons.1 hk).resolve_left hkt)

/-- Going over the elements bucket by bucket, each bucket once, meets every kept element once:
the order changes, nothing else. -/
theorem flatMap_buckets_perm {ranks : List Nat} (hnd : ranks.Nodup)
    (hmem : ∀ a, key a ∈ ranks) :
    ∀ l : List α, (ranks.flatMap fun t => (l.filter fun a => keep a ∧ key a = t).flatMap g).Perm
      ((l.filter keep).flatMap g)
  | [] => by simp
  | a :: l => by
      have hstep : ∀ t, ((a :: l).filter fun a => keep a ∧ key a = t).flatMap g =
          (if key a = t then (if keep a then g a else []) else []) ++
            (l.filter fun a => keep a ∧ key a = t).flatMap g := fun t => by
        by_cases hk : keep a <;> by_cases ht : key a = t <;> simp [List.filter_cons, hk, ht]
      simp only [hstep]
      refine (List.flatMap_append_perm _ _ _).symm.trans ?_
      rw [flatMap_ite_eq_of_mem hnd (hmem a), List.filter_cons]
      by_cases hk : keep a
      · rw [if_pos hk, if_pos (decide_eq_true hk), List.flatMap_cons]
        exact (flatMap_buckets_perm hnd hmem l).append_left _
      · rw [if_neg hk, if_neg (by simpa using hk), List.nil_append]
        exact flatMap_buckets_perm hnd hmem l

end Buckets

section ProcessReads

/-- `CtgReadData`: a read to add to one end of a contig, `L` for its left end. -/
structure CtgReadData where
  cid : Int
  side : Char
  readSeq : ReadSeq
  deriving DecidableEq, Repr

/-- The body of the loop over a read's contigs in `process_reads`: the read to add to the contig.
Where the read maps in the contig's orientation and extends its left end, or maps the other way
and extends its right end, it is added as `seq_rc` and `quals_rc`: reverse complemented, its
qualities reversed. -/
def ctgReadData (ctg : CtgInfo) (seq quals : List Char) : Except String CtgReadData :=
  if (ctg.orient = '-' ∧ ctg.side = 'R') ∨ (ctg.orient = '+' ∧ ctg.side = 'L') then
    (revcomp seq).map fun seqRc => ⟨ctg.cid, ctg.side, ⟨seqRc, quals.reverse⟩⟩
  else .ok ⟨ctg.cid, ctg.side, ⟨seq, quals⟩⟩

/-- What `ctgReadData` adds for a read over `A`, `C`, `G`, `T` and `N`, on which `revcomp` cannot
fail. -/
def orientedRead (ctg : CtgInfo) (seq quals : List Char) : CtgReadData :=
  if (ctg.orient = '-' ∧ ctg.side = 'R') ∨ (ctg.orient = '+' ∧ ctg.side = 'L') then
    ⟨ctg.cid, ctg.side, ⟨(seq.map swapBases).reverse, quals.reverse⟩⟩
  else ⟨ctg.cid, ctg.side, ⟨seq, quals⟩⟩

theorem ctgReadData_eq {seq : List Char} (hs : ∀ c ∈ seq, c ∈ ['A', 'C', 'G', 'T', 'N'])
    (ctg : CtgInfo) (quals : List Char) :
    ctgReadData ctg seq quals = .ok (orientedRead ctg seq quals) := by
  unfold ctgReadData orientedRead
  split_ifs
  · rw [revcomp_eq_swapBases hs]; rfl
  · rfl

variable (readTargetRank : List Char → Nat) (kmerLen : Nat)

/-- One target rank's round of `process_reads` over one `PackedReads`, whose reads are given as
`get_next_read` returns them (id, sequence, qualities): the reads put in
`rank_read_ids[target_rank]` (those not shorter than `kmer_len` whose id hashes to the rank),
their contigs from one `get_ctgs`, and the reads to add, in order. -/
def processReadsAt (dht : Nat → AppendMap (List Char) CtgInfo)
    (reads : List (List Char × List Char × List Char)) (targetRank : Nat) :
    Except String (List CtgReadData) :=
  let readIds := reads.filter fun r => ¬ kmerLen > r.2.1.length ∧ readTargetRank r.1 = targetRank
  let readCtgs := getCtgsBatch dht targetRank (readIds.map Prod.fst)
  ((readIds.zip readCtgs).mapM fun (rc : (List Char × List Char × List Char) × List CtgInfo) =>
    rc.2.mapM fun ctg => ctgReadData ctg rc.1.2.1 rc.1.2.2).map List.flatten

/-- `process_reads(kmer_len, packed_reads_list, reads_to_ctgs, ctgs_dht)`: the reads it sends to
`ctgs_dht`, for each `PackedReads` in turn and each target rank in the order
`foreach_rank_by_node` visits them, or its `DIE`. -/
def processReads (rankOrder : List Nat) (dht : Nat → AppendMap (List Char) CtgInfo)
    (packedReadsList : List (List (List Char × List Char × List Char))) :
    Except String (List CtgReadData) :=
  (packedReadsList.mapM fun reads =>
    (rankOrder.mapM (processReadsAt readTargetRank kmerLen dht reads)).map List.flatten).map
      List.flatten

/-- Modelled from the intent of `process_reads`: read by read, the read for each of its
contigs. -/
def readsToAdd (dht : Nat → AppendMap (List Char) CtgInfo)
    (reads : List (List Char × List Char × List Char)) : List CtgReadData :=
  (reads.filter fun r => kmerLen ≤ r.2.1.length).flatMap fun r =>
    (getCtgs readTargetRank dht r.1).map fun ctg => orientedRead ctg r.2.1 r.2.2

theorem readsToAdd_flatten (dht : Nat → AppendMap (List Char) CtgInfo) :
    ∀ L : List (List (List Char × List Char × List Char)),
      readsToAdd readTargetRank kmerLen dht L.flatten =
        L.flatMap (readsToAdd readTargetRank kmerLen dht)
  | [] => rfl
  | reads :: L => by
      rw [List.flatten_cons, List.flatMap_cons, ← readsToAdd_flatten dht L, readsToAdd, readsToAdd,
        readsToAdd, List.filter_append, List.flatMap_append]

variable {readTargetRank kmerLen}

theorem processReadsAt_eq {reads : List (List Char × List Char × List Char)}
    (hs : ∀ r ∈ reads, ∀ c ∈ r.2.1, c ∈ ['A', 'C', 'G', 'T', 'N'])
    (dht : Nat → AppendMap (List Char) CtgInfo) (t : Nat) :
    processReadsAt readTargetRank kmerLen dht reads t =
      .ok ((reads.filter fun r => ¬ kmerLen > r.2.1.length ∧ readTargetRank r.1 = t).flatMap
        fun r => (getCtgs readTargetRank dht r.1).map fun ctg => orientedRead ctg r.2.1 r.2.2) := by
  unfold processReadsAt getCtgsBatch
  dsimp only
  generalize hl : reads.filter _ = l
  have hl' : ∀ r ∈ l, readTargetRank r.1 = t ∧ ∀ c ∈ r.2.1, c ∈ ['A', 'C', 'G', 'T', 'N'] :=
    fun r hr => by
      rw [← hl, List.mem_filter] at hr
      exact ⟨(of_decide_eq_true hr.2).2, hs r hr.1⟩
  have hz := List.zip_map' id ((dht t).find ∘ Prod.fst) l
  rw [List.map_id] at hz
  rw [List.map_map, hz,
    mapM_eq_ok (h := fun rc => rc.2.map fun ctg => orientedRead ctg rc.1.2.1 rc.1.2.2)]
  · simp only [Except.map, List.map_map, List.flatMap_def]
    congr 2
    exact List.map_congr_left fun r hr => by
      simp only [Function.comp, id, getCtgs, AppendStore.lookup, (hl' r hr).1]
  · simp only [List.mem_map]
    rintro _ ⟨r, hr, rfl⟩
    exact mapM_eq_ok fun ctg _ => ctgReadData_eq (hl' r hr).2 ctg _

theorem processReads_eq {rankOrder : List Nat}
    {packedReadsList : List (List (List Char × List Char × List Char))}
    (hs : ∀ reads ∈ packedReadsList, ∀ r ∈ reads, ∀ c ∈ r.2.1, c ∈ ['A', 'C', 'G', 'T', 'N'])
    (dht : Nat → AppendMap (List Char) CtgInfo) :
    processReads readTargetRank kmerLen rankOrder dht packedReadsList =
      .ok (packedReadsList.flatMap fun reads => rankOrder.flatMap fun t =>
        (reads.filter fun r => ¬ kmerLen > r.2.1.length ∧ readTargetRank r.1 = t).flatMap
          fun r =>
            (getCtgs readTargetRank dht r.1).map fun ctg => orientedRead ctg r.2.1 r.2.2) := by
  rw [processReads, mapM_eq_ok fun reads hr => by
    rw [mapM_eq_ok fun t _ => processReadsAt_eq (hs reads hr) dht t]; rfl]
  rfl

theorem processReads_perm {rankOrder : List Nat} (hnd : rankOrder.Nodup)
    (hranks : ∀ readId, readTargetRank readId ∈ rankOrder)
    {packedReadsList : List (List (List Char × List Char × List Char))}
    (hs : ∀ reads ∈ packedReadsList, ∀ r ∈ reads, ∀ c ∈ r.2.1, c ∈ ['A', 'C', 'G', 'T', 'N'])
    (dht : Nat → AppendMap (List Char) CtgInfo) :
    ∃ datas, processReads readTargetRank kmerLen rankOrder dht packedReadsList = .ok datas ∧
      datas.Perm (readsToAdd readTargetRank kmerLen dht packedReadsList.flatten) := by
  refine ⟨_, processReads_eq hs dht, ?_⟩
  rw [readsToAdd_flatten]
  refine List.Perm.flatMap_left _ fun reads _ => ?_
  have hkeep : (reads.filter fun r => ¬ kmerLen > r.2.1.length) =
      reads.filter fun r => kmerLen ≤ r.2.1.length := by
    simp only [gt_iff_lt, not_lt]
  rw [readsToAdd, ← hkeep]
  exact flatMap_buckets_perm (fun r => readTargetRank r.1) (fun r => ¬ kmerLen > r.2.1.length) _ hnd
    (fun r => hranks r.1) reads

/-- `process_reads`, which buckets the reads by the rank that holds their contigs, fetches each
bucket in one `get_ctgs` and visits the ranks in the order `foreach_rank_by_node` gives, sends
the same reads as going read by read: each read not shorter than `kmer_len` once for each
contig it maps to, oriented for that contig, in another order. It needs every read's rank to be
visited once, and cannot `DIE` on reads over `A`, `C`, `G`, `T` and `N`, the bases a
`PackedReads` holds. -/
theorem process_reads_by_rank {rankOrder : List Nat} (hnd : rankOrder.Nodup)
    (hranks : ∀ readId, readTargetRank readId ∈ rankOrder)
    {packedReadsList : List (List (List Char × List Char × List Char))}
    (hs : ∀ reads ∈ packedReadsList, ∀ r ∈ reads, ∀ c ∈ r.2.1, c ∈ ['A', 'C', 'G', 'T', 'N'])
    (dht : Nat → AppendMap (List Char) CtgInfo) :
    ∃ datas, processReads readTargetRank kmerLen rankOrder dht packedReadsList = .ok datas ∧
      datas.Perm (readsToAdd readTargetRank kmerLen dht packedReadsList.flatten) :=
  processReads_perm hnd hranks hs dht

/-- Reads with ids of lengths 3, 2 and 2, so at ranks 1, 0 and 0 under the id length modulo 2:
`r10` maps to contigs 7 and 4, `r1` to contig 4, and `r2`, which also maps, is shorter than a
3-mer. -/
def readsTwoRanks : List (List Char × List Char × List Char) :=
  [("r10".toList, "AACG".toList, "IIJJ".toList), ("r1".toList, "ACGG".toList, "JJII".toList),
    ("r2".toList, "AC".toList, "II".toList)]

/-- The mappings `process_alns` sends for `readsTwoRanks`, in the order sent. -/
def mappingsTwoRanks : List (List Char × CtgInfo) :=
  [("r10".toList, ⟨7, '-', 'R'⟩), ("r2".toList, ⟨4, '+', 'R'⟩), ("r1".toList, ⟨4, '+', 'R'⟩),
    ("r10".toList, ⟨4, '-', 'L'⟩)]

/-- `ReadsToCtgsDHT` after its updates for `readsTwoRanks`. -/
def rtcTwoRanks : Nat → AppendMap (List Char) CtgInfo :=
  mappingsTwoRanks.foldl (rtcDeliver fun readId => readId.length % 2) fun _ => .empty

theorem process_reads_by_rank_two_ranks :
    [0, 1].Nodup ∧ (∀ readId : List Char, readId.length % 2 ∈ [0, 1]) ∧
      (∀ reads ∈ [readsTwoRanks], ∀ r ∈ reads, ∀ c ∈ r.2.1, c ∈ ['A', 'C', 'G', 'T', 'N']) ∧
      processReads (fun readId => readId.length % 2) 3 [0, 1] rtcTwoRanks [readsTwoRanks] =
        .ok [⟨4, 'R', ⟨"ACGG".toList, "JJII".toList⟩⟩, ⟨7, 'R', ⟨"CGTT".toList, "JJII".toList⟩⟩,
          ⟨4, 'L', ⟨"AACG".toList, "IIJJ".toList⟩⟩] ∧
      readsToAdd (fun readId => readId.length % 2) 3 rtcTwoRanks [readsTwoRanks].flatten =
        [⟨7, 'R', ⟨"CGTT".toList, "JJII".toList⟩⟩, ⟨4, 'L', ⟨"AACG".toList, "IIJJ".toList⟩⟩,
          ⟨4, 'R', ⟨"ACGG".toList, "JJII".toList⟩⟩] ∧
      ∃ datas, processReads (fun readId => readId.length % 2) 3 [0, 1] rtcTwoRanks
          [readsTwoRanks] = .ok datas ∧
        datas.Perm (readsToAdd (fun readId => readId.length % 2) 3 rtcTwoRanks
          [readsTwoRanks].flatten) :=
  have hnd : [0, 1].Nodup := by decide
  have hranks : ∀ readId : List Char, readId.length % 2 ∈ [0, 1] := fun readId => by
    rcases Nat.mod_two_eq_zero_or_one readId.length with h | h <;> simp [h]
  have hs : ∀ reads ∈ [readsTwoRanks], ∀ r ∈ reads, ∀ c ∈ r.2.1,
      c ∈ ['A', 'C', 'G', 'T', 'N'] := by decide
  ⟨hnd, hranks, hs, rfl, rfl, process_reads_by_rank hnd hranks hs _⟩

end ProcessReads

section CtgsWithReads

/-- The record `ctg_store`'s update function inserts for a contig: its id, sequence and depth,
with no reads yet. -/
def CtgWithReads.ofContig (c : Contig) : CtgWithReads := ⟨c.id, c.seq, c.depth, [], []⟩

/-- A read as `ctg_read_store`'s update function adds it: to `reads_left` of its contig for side
`L`, to `reads_right` for any other side. Other contigs stay as they are. -/
def addReadTo (d : CtgReadData) (c : CtgWithReads) : CtgWithReads :=
  if c.cid = d.cid then
    if d.side = 'L' then { c with readsLeft := c.readsLeft ++ [d.readSeq] }
    else { c with readsRight := c.readsRight ++ [d.readSeq] }
  else c

@[simp] theorem cid_addReadTo (d : CtgReadData) (c : CtgWithReads) :
    (addReadTo d c).cid = c.cid := by
  unfold addReadTo; split_ifs <;> rfl

theorem addReadTo_of_ne {d : CtgReadData} {c : CtgWithReads} (h : c.cid ≠ d.cid) :
    addReadTo d c = c := if_neg h

/-- The reads of `ds` added to a contig one after another. -/
def addReadsTo (ds : List CtgReadData) (c : CtgWithReads) : CtgWithReads :=
  ds.foldl (fun c d => addReadTo d c) c

theorem addReadsTo_eq : ∀ (ds : List CtgReadData) (c : CtgWithReads),
    addReadsTo ds c = { c with
      readsLeft :=
        c.readsLeft ++ (ds.filter fun d => d.cid = c.cid ∧ d.side = 'L').map (·.readSeq)
      readsRight :=
        c.readsRight ++ (ds.filter fun d => d.cid = c.cid ∧ d.side ≠ 'L').map (·.readSeq) }
  | [], c => by simp [addReadsTo]
  | d :: ds, c => by
      rw [show addReadsTo (d :: ds) c = addReadsTo ds (addReadTo d c) from rfl, addReadsTo_eq ds]
      unfold addReadTo
      by_cases hc : c.cid = d.cid
      · by_cases hs : d.side = 'L' <;> simp [hc, hs, List.filter_cons]
      · simp [hc, Ne.symm hc, List.filter_cons]

theorem nodup_append_ofContig {ctgs : List CtgWithReads} (h : (ctgs.map (·.cid)).Nodup)
    {c : Contig} (hc : ctgs.find? (·.cid = c.id) = none) :
    ((ctgs ++ [CtgWithReads.ofContig c]).map (·.cid)).Nodup := by
  rw [List.map_append, List.nodup_append]
  refine ⟨h, List.nodup_singleton _, List.disjoint_singleton.2 fun hm => ?_⟩
  obtain ⟨e, he, hec⟩ := List.mem_map.1 hm
  exact List.find?_eq_none.1 hc e he (decide_eq_true hec)

theorem nodup_map_addReadTo {ctgs : List CtgWithReads} (h : (ctgs.map (·.cid)).Nodup)
    (d : CtgReadData) : ((ctgs.map (addReadTo d)).map (·.cid)).Nodup := by
  rw [List.map_map]
  simpa [Function.comp_def] using h

/-- One rank's `ctgs_map`. It is a hash map: no contig id has two entries. -/
structure CtgsMap where
  ctgs : List CtgWithReads
  nodup : (ctgs.map (·.cid)).Nodup

namespace CtgsMap

/-- The map before any update. -/
def empty : CtgsMap := ⟨[], List.nodup_nil⟩

/-- `ctg_store`'s update function: the contig with no reads, or the `DIE` for an id the map
has already. -/
def addCtg (m : CtgsMap) (c : Contig) : Except String CtgsMap :=
  match h : m.ctgs.find? (·.cid = c.id) with
  | some _ => .error ("Found duplicate ctg " ++ toString c.id)
  | none => .ok ⟨m.ctgs ++ [.ofContig c], nodup_append_ofContig m.nodup h⟩

/-- `ctg_read_store`'s update function: the read added to its contig, or the `DIE` for a contig
the map does not have. -/
def addRead (m : CtgsMap) (d : CtgReadData) : Except String CtgsMap :=
  match m.ctgs.find? (·.cid = d.cid) with
  | none => .error ("Could not find ctg " ++ toString d.cid)
  | some _ => .ok ⟨m.ctgs.map (addReadTo d), nodup_map_addReadTo m.nodup d⟩

/-- The contig the map holds under `cid`. -/
def find (m : CtgsMap) (cid : Int) : Option CtgWithReads := m.ctgs.find? (·.cid = cid)

theorem find_empty (cid : Int) : empty.find cid = none := rfl

theorem cid_of_find {m : CtgsMap} {cid : Int} {c : CtgWithReads} (h : m.find cid = some c) :
    c.cid = cid := by
  simpa using List.find?_some h

theorem addCtg_cases (m : CtgsMap) (c : Contig) :
    (m.find c.id = none ∧ ∃ m', m.addCtg c = .ok m' ∧
      ∀ cid, m'.find cid = if c.id = cid then some (.ofContig c) else m.find cid) ∨
    (m.find c.id ≠ none ∧ m.addCtg c = .error ("Found duplicate ctg " ++ toString c.id)) := by
  unfold addCtg
  split
  · next e he => exact .inr ⟨by rw [find, he]; exact Option.some_ne_none e, rfl⟩
  · next he =>
    refine .inl ⟨he, _, rfl, fun cid => ?_⟩
    rw [find, List.find?_append]
    by_cases hc : c.id = cid
    · subst hc; simp [he, CtgWithReads.ofContig]
    · simp [hc, CtgWithReads.ofContig, find]

theorem addRead_cases (m : CtgsMap) (d : CtgReadData) :
    (m.find d.cid ≠ none ∧ ∃ m', m.addRead d = .ok m' ∧
      ∀ cid, m'.find cid = (m.find cid).map (addReadTo d)) ∨
    (m.find d.cid = none ∧ m.addRead d = .error ("Could not find ctg " ++ toString d.cid)) := by
  unfold addRead
  split
  · next he => exact .inr ⟨he, rfl⟩
  · next e he =>
    refine .inl ⟨by rw [find, he]; exact Option.some_ne_none e, _, rfl, fun cid => ?_⟩
    have hkey : ((fun c : CtgWithReads => decide (c.cid = cid)) ∘ addReadTo d) =
        fun c => decide (c.cid = cid) := funext fun c => by simp
    rw [find, List.find?_map, hkey]
    rfl

end CtgsMap

variable (ctgTargetRank : Int → Nat)

/-- A `ctg_store` update as the contig's rank applies it (`get_target_rank(cid)` is
`ctgTargetRank`); the other ranks' maps stay as they are. -/
def ctgDeliver (dht : Nat → CtgsMap) (c : Contig) : Except String (Nat → CtgsMap) :=
  ((dht (ctgTargetRank c.id)).addCtg c).map (Function.update dht (ctgTargetRank c.id))

/-- A `ctg_read_store` update as the rank of the read's contig applies it. -/
def readDeliver (dht : Nat → CtgsMap) (d : CtgReadData) : Except String (Nat → CtgsMap) :=
  ((dht (ctgTargetRank d.cid)).addRead d).map (Function.update dht (ctgTargetRank d.cid))

/-- The contig `cid` as its rank holds it. -/
def findCtg (dht : Nat → CtgsMap) (cid : Int) : Option CtgWithReads :=
  (dht (ctgTargetRank cid)).find cid

variable {ctgTargetRank}

theorem findCtg_update (dht : Nat → CtgsMap) (k : Int) (m : CtgsMap) (cid : Int) :
    findCtg ctgTargetRank (Function.update dht (ctgTargetRank k) m) cid =
      if ctgTargetRank cid = ctgTargetRank k then m.find cid
      else findCtg ctgTargetRank dht cid := by
  unfold findCtg
  split_ifs with h
  · rw [h, Function.update_same]
  · rw [Function.update_noteq h]

theorem ctgDeliver_cases (dht : Nat → CtgsMap) (c : Contig) :
    (findCtg ctgTargetRank dht c.id = none ∧ ∃ dht', ctgDeliver ctgTargetRank dht c = .ok dht' ∧
      ∀ cid, findCtg ctgTargetRank dht' cid =
        if c.id = cid then some (.ofContig c) else findCtg ctgTargetRank dht cid) ∨
    (findCtg ctgTargetRank dht c.id ≠ none ∧
      ctgDeliver ctgTargetRank dht c = .error ("Found duplicate ctg " ++ toString c.id)) := by
  rcases (dht (ctgTargetRank c.id)).addCtg_cases c with ⟨hn, m', hm, hfind⟩ | ⟨hn, he⟩
  · refine .inl ⟨hn, _, by rw [ctgDeliver, hm]; rfl, fun cid => ?_⟩
    rw [findCtg_update, hfind]
    by_cases hc : c.id = cid
    · simp [hc]
    · split_ifs with hr
      · rw [findCtg, hr]
      · rfl
  · exact .inr ⟨hn, by rw [ctgDeliver, he]; rfl⟩

theorem readDeliver_cases (dht : Nat → CtgsMap) (d : CtgReadData) :
    (findCtg ctgTargetRank dht d.cid ≠ none ∧ ∃ dht', readDeliver ctgTargetRank dht d = .ok dht' ∧
      ∀ cid, findCtg ctgTargetRank dht' cid = (findCtg ctgTargetRank dht cid).map (addReadTo d)) ∨
    (findCtg ctgTargetRank dht d.cid = none ∧
      readDeliver ctgTargetRank dht d = .error ("Could not find ctg " ++ toString d.cid)) := by
  rcases (dht (ctgTargetRank d.cid)).addRead_cases d with ⟨hn, m', hm, hfind⟩ | ⟨hn, he⟩
  · refine .inl ⟨hn, _, by rw [readDeliver, hm]; rfl, fun cid => ?_⟩
    rw [findCtg_update]
    split_ifs with hr
    · rw [hfind, findCtg, hr]
    · have hc : cid ≠ d.cid := fun h => hr (h ▸ rfl)
      cases hf : findCtg ctgTargetRank dht cid with
      | none => rfl
      | some c => rw [Option.map_some', addReadTo_of_ne ((CtgsMap.cid_of_find hf).trans_ne hc)]
  · exact .inr ⟨hn, by rw [readDeliver, he]; rfl⟩

theorem foldlM_ctgDeliver_ok : ∀ (cs : List Contig) (dht : Nat → CtgsMap),
    (cs.map (·.id)).Nodup → (∀ c ∈ cs, findCtg ctgTargetRank dht c.id = none) →
      ∃ dht', cs.foldlM (ctgDeliver ctgTargetRank) dht = .ok dht' ∧ ∀ cid,
        findCtg ctgTargetRank dht' cid =
          ((cs.find? (·.id = cid)).map .ofContig).or (findCtg ctgTargetRank dht cid)
  | [], dht, _, _ => ⟨dht, rfl, fun _ => rfl⟩
  | c :: cs, dht, hnd, hfresh => by
      obtain ⟨hnc, hnd'⟩ := List.nodup_cons.1 hnd
      rcases ctgDeliver_cases dht c with ⟨-, dht1, h1, hf1⟩ | ⟨hn, -⟩
      · have hfresh' : ∀ c' ∈ cs, findCtg ctgTargetRank dht1 c'.id = none := fun c' hc' => by
          rw [hf1, if_neg fun h => hnc (List.mem_map.2 ⟨c', hc', h.symm⟩)]
          exact hfresh c' (List.mem_cons_of_mem _ hc')
        obtain ⟨dht', h', hf'⟩ := foldlM_ctgDeliver_ok cs dht1 hnd' hfresh'
        refine ⟨dht', by rw [List.foldlM_cons, h1]; exact h', fun cid => ?_⟩
        rw [hf', hf1, List.find?_cons]
        by_cases hc : c.id = cid
        · subst hc
          have hnone : cs.find? (·.id = c.id) = none :=
            List.find?_eq_none.2 fun x hx hxc => hnc (List.mem_map.2 ⟨x, hx, of_decide_eq_true hxc⟩)
          simp [hnone]
        · simp [hc]
      · exact absurd (hfresh c (List.mem_cons_self _ _)) hn

theorem nodup_of_foldlM_ctgDeliver : ∀ (cs : List Contig) (dht dht' : Nat → CtgsMap),
    cs.foldlM (ctgDeliver ctgTargetRank) dht = .ok dht' →
      (cs.map (·.id)).Nodup ∧ ∀ c ∈ cs, findCtg ctgTargetRank dht c.id = none
  | [], _, _, _ => ⟨List.nodup_nil, fun _ h => absurd h (List.not_mem_nil _)⟩
  | c :: cs, dht, dht', h => by
      rw [List.foldlM_cons] at h
      rcases ctgDeliver_cases dht c with ⟨hn, dht1, h1, hf1⟩ | ⟨-, he⟩
      · rw [h1] at h
        obtain ⟨hnd, hfresh⟩ := nodup_of_foldlM_ctgDeliver cs dht1 dht' h
        refine ⟨List.nodup_cons.2 ⟨fun hm => ?_, hnd⟩, fun c' hc' => ?_⟩
        · obtain ⟨c', hc', hid⟩ := List.mem_map.1 hm
          have hf := hfresh c' hc'
          rw [hf1, if_pos hid.symm] at hf
          exact Option.some_ne_none _ hf
        · rcases List.mem_cons.1 hc' with rfl | hc'
          · exact hn
          · have hf := hfresh c' hc'
            rw [hf1] at hf
            split_ifs at hf
            exact hf
      · rw [he] at h
        cases h

theorem foldlM_readDeliver_ok : ∀ (ds : List CtgReadData) (dht : Nat → CtgsMap),
    (∀ d ∈ ds, findCtg ctgTargetRank dht d.cid ≠ none) →
      ∃ dht', ds.foldlM (readDeliver ctgTargetRank) dht = .ok dht' ∧
        ∀ cid, findCtg ctgTargetRank dht' cid = (findCtg ctgTargetRank dht cid).map (addReadsTo ds)
  | [], dht, _ => ⟨dht, rfl, fun cid => by cases findCtg ctgTargetRank dht cid <;> rfl⟩
  | d :: ds, dht, hall => by
      rcases readDeliver_cases dht d with ⟨-, dht1, h1, hf1⟩ | ⟨hn, -⟩
      · have hall' : ∀ d' ∈ ds, findCtg ctgTargetRank dht1 d'.cid ≠ none := fun d' hd' => by
          rw [hf1, Ne, Option.map_eq_none']
          exact hall d' (List.mem_cons_of_mem _ hd')
        obtain ⟨dht', h', hf'⟩ := foldlM_readDeliver_ok ds dht1 hall'
        refine ⟨dht', by rw [List.foldlM_cons, h1]; exact h', fun cid => ?_⟩
        rw [hf', hf1, Option.map_map]
        rfl
      · exact absurd hn (hall d (List.mem_cons_self _ _))

theorem foldlM_readDeliver_error : ∀ (ds : List CtgReadData) (dht : Nat → CtgsMap),
    (∃ d ∈ ds, findCtg ctgTargetRank dht d.cid = none) →
      ∃ d ∈ ds, findCtg ctgTargetRank dht d.cid = none ∧
        ds.foldlM (readDeliver ctgTargetRank) dht = .error ("Could not find ctg " ++ toString d.cid)
  | [], _, ⟨_, hd, _⟩ => absurd hd (List.not_mem_nil _)
  | d :: ds, dht, hex => by
      rcases readDeliver_cases dht d with ⟨hn, dht1, h1, hf1⟩ | ⟨hn, he⟩
      · have hex' : ∃ d' ∈ ds, findCtg ctgTargetRank dht1 d'.cid = none := by
          obtain ⟨d', hd', hnone⟩ := hex
          rcases List.mem_cons.1 hd' with rfl | hd'
          · exact absurd hnone hn
          · exact ⟨d', hd', by rw [hf1, hnone]; rfl⟩
        obtain ⟨d', hd', hnone, he⟩ := foldlM_readDeliver_error ds dht1 hex'
        rw [hf1, Option.map_eq_none'] at hnone
        exact ⟨d', List.mem_cons_of_mem _ hd', hnone, by rw [List.foldlM_cons, h1]; exact he⟩
      · exact ⟨d, List.mem_cons_self _ _, hn, by rw [List.foldlM_cons, he]; rfl⟩

theorem exists_of_foldlM_eq_error {α β ε : Type} {f : β → α → Except ε β} :
    ∀ {l : List α} {b : β} {e : ε}, l.foldlM f b = .error e → ∃ a ∈ l, ∃ b', f b' a = .error e
  | [], _, _, h => by cases h
  | a :: l, b, e, h => by
      rw [List.foldlM_cons] at h
      cases hf : f b a with
      | error e' =>
        rw [hf] at h
        cases h
        exact ⟨a, List.mem_cons_self _ _, b, hf⟩
      | ok b1 =>
        rw [hf] at h
        obtain ⟨a', ha', b', h'⟩ := exists_of_foldlM_eq_error h
        exact ⟨a', List.mem_cons_of_mem _ ha', b', h'⟩

theorem findCtg_of_foldlM_ctgDeliver {cs : List Contig} {dht : Nat → CtgsMap}
    (h : cs.foldlM (ctgDeliver ctgTargetRank) (fun _ => .empty) = .ok dht) :
    (∀ c ∈ cs, findCtg ctgTargetRank dht c.id = some (.ofContig c)) ∧
      ∀ cid ∉ cs.map (·.id), findCtg ctgTargetRank dht cid = none := by
  have hnd := (nodup_of_foldlM_ctgDeliver cs _ _ h).1
  obtain ⟨dht', h', hf⟩ :=
    @foldlM_ctgDeliver_ok ctgTargetRank cs (fun _ => .empty) hnd fun _ _ => rfl
  rw [h] at h'
  cases h'
  refine ⟨fun c hc => ?_, fun cid hcid => ?_⟩
  · obtain ⟨c', hc'⟩ : ∃ c', cs.find? (·.id = c.id) = some c' :=
      Option.ne_none_iff_exists'.1 fun hn => List.find?_eq_none.1 hn c hc (by simp)
    have hcc : c' = c := List.inj_on_of_nodup_map hnd (List.mem_of_find?_eq_some hc') hc
      (by simpa using List.find?_some hc')
    rw [hf, hc', hcc]
    rfl
  · have hn : cs.find? (·.id = cid) = none :=
      List.find?_eq_none.2 fun x hx hxc => hcid (List.mem_map.2 ⟨x, hx, of_decide_eq_true hxc⟩)
    rw [hf, hn]
    rfl

/-- `CtgsWithReadsDHT` once `add_ctg` has sent every contig and `flush_ctg_updates` has delivered
them, in any order: the updates fail exactly when two contigs share an id, with the `DIE`
"Found duplicate ctg" naming one of them; otherwise each contig is held under its id, with no
reads yet, and no other id is held. -/
theorem add_ctgs_any_order {cs delivered : List Contig} (h : delivered.Perm cs) :
    ((∃ dht, delivered.foldlM (ctgDeliver ctgTargetRank) (fun _ => .empty) = .ok dht) ↔
        (cs.map (·.id)).Nodup) ∧
      (∀ e, delivered.foldlM (ctgDeliver ctgTargetRank) (fun _ => .empty) = .error e →
        ∃ c ∈ cs, e = "Found duplicate ctg " ++ toString c.id) ∧
      ∀ dht, delivered.foldlM (ctgDeliver ctgTargetRank) (fun _ => .empty) = .ok dht →
        (∀ c ∈ cs, findCtg ctgTargetRank dht c.id = some (.ofContig c)) ∧
          ∀ cid ∉ cs.map (·.id), findCtg ctgTargetRank dht cid = none := by
  have hids := (h.map (·.id)).nodup_iff
  refine ⟨⟨fun ⟨dht, hd⟩ => hids.1 (nodup_of_foldlM_ctgDeliver _ _ _ hd).1, fun hnd => ?_⟩,
    fun e he => ?_, fun dht hd => ?_⟩
  · obtain ⟨dht, hd, -⟩ :=
      @foldlM_ctgDeliver_ok ctgTargetRank delivered (fun _ => .empty) (hids.2 hnd) fun _ _ => rfl
    exact ⟨dht, hd⟩
  · obtain ⟨c, hc, dht, hce⟩ := exists_of_foldlM_eq_error he
    rcases ctgDeliver_cases dht c with ⟨-, _, hok, -⟩ | ⟨-, herr⟩
    · rw [hok] at hce
      cases hce
    · rw [herr] at hce
      cases hce
      exact ⟨c, h.subset hc, rfl⟩
  · obtain ⟨hin, hout⟩ := findCtg_of_foldlM_ctgDeliver hd
    exact ⟨fun c hc => hin c (h.symm.subset hc),
      fun cid hcid => hout cid fun hm => hcid ((h.map _).subset hm)⟩

theorem add_ctgs_any_order_swapped :
    ([(⟨2, ['C', 'A'], 3.5⟩ : Contig), ⟨1, ['A', 'C', 'G'], 2.0⟩].Perm
        [⟨1, ['A', 'C', 'G'], 2.0⟩, ⟨2, ['C', 'A'], 3.5⟩]) ∧
      (((∃ dht, [(⟨2, ['C', 'A'], 3.5⟩ : Contig), ⟨1, ['A', 'C', 'G'], 2.0⟩].foldlM
            (ctgDeliver fun cid => cid.toNat % 2) (fun _ => .empty) = .ok dht) ↔
          ([(⟨1, ['A', 'C', 'G'], 2.0⟩ : Contig), ⟨2, ['C', 'A'], 3.5⟩].map (·.id)).Nodup) ∧
        (∀ e, [(⟨2, ['C', 'A'], 3.5⟩ : Contig), ⟨1, ['A', 'C', 'G'], 2.0⟩].foldlM
            (ctgDeliver fun cid => cid.toNat % 2) (fun _ => .empty) = .error e →
          ∃ c ∈ [(⟨1, ['A', 'C', 'G'], 2.0⟩ : Contig), ⟨2, ['C', 'A'], 3.5⟩],
            e = "Found duplicate ctg " ++ toString c.id) ∧
        ∀ dht, [(⟨2, ['C', 'A'], 3.5⟩ : Contig), ⟨1, ['A', 'C', 'G'], 2.0⟩].foldlM
            (ctgDeliver fun cid => cid.toNat % 2) (fun _ => .empty) = .ok dht →
          (∀ c ∈ [(⟨1, ['A', 'C', 'G'], 2.0⟩ : Contig), ⟨2, ['C', 'A'], 3.5⟩],
            findCtg (fun cid => cid.toNat % 2) dht c.id = some (.ofContig c)) ∧
          ∀ cid ∉ [(⟨1, ['A', 'C', 'G'], 2.0⟩ : Contig), ⟨2, ['C', 'A'], 3.5⟩].map (·.id),
            findCtg (fun cid => cid.toNat % 2) dht cid = none) :=
  ⟨List.Perm.swap _ _ _, add_ctgs_any_order (List.Perm.swap _ _ _)⟩

/-- `CtgsWithReadsDHT` once `add_reads` has sent reads for its contigs and `flush_read_updates`
has delivered them, in any order: where every read's contig is held, each contig gets at its left
end exactly the reads sent for side `L` and at its right end those sent for any other side, after
the reads it had; no contig is added. Where some read's contig is not held, the updates end in
the `DIE` "Could not find ctg" naming such a contig. -/
theorem add_reads_any_order {sent delivered : List CtgReadData} (h : delivered.Perm sent)
    (dht : Nat → CtgsMap) :
    ((∀ d ∈ sent, findCtg ctgTargetRank dht d.cid ≠ none) →
      ∃ dht', delivered.foldlM (readDeliver ctgTargetRank) dht = .ok dht' ∧ ∀ cid,
        (findCtg ctgTargetRank dht cid = none → findCtg ctgTargetRank dht' cid = none) ∧
        ∀ c, findCtg ctgTargetRank dht cid = some c → ∃ left right,
          findCtg ctgTargetRank dht' cid =
            some { c with readsLeft := c.readsLeft ++ left, readsRight := c.readsRight ++ right } ∧
          left.Perm ((sent.filter fun d => d.cid = cid ∧ d.side = 'L').map (·.readSeq)) ∧
          right.Perm ((sent.filter fun d => d.cid = cid ∧ d.side ≠ 'L').map (·.readSeq))) ∧
    ((∃ d ∈ sent, findCtg ctgTargetRank dht d.cid = none) →
      ∃ d ∈ sent, findCtg ctgTargetRank dht d.cid = none ∧
        delivered.foldlM (readDeliver ctgTargetRank) dht =
          .error ("Could not find ctg " ++ toString d.cid)) := by
  refine ⟨fun hall => ?_, fun ⟨d, hd, hn⟩ => ?_⟩
  · obtain ⟨dht', hrun, hf⟩ := foldlM_readDeliver_ok delivered dht fun d hd => hall d (h.subset hd)
    refine ⟨dht', hrun, fun cid => ⟨fun hn => by rw [hf, hn]; rfl, fun c hc => ?_⟩⟩
    have hcid := CtgsMap.cid_of_find hc
    refine ⟨_, _, by rw [hf, hc, Option.map_some', addReadsTo_eq, hcid], (h.filter _).map _,
      (h.filter _).map _⟩
  · obtain ⟨d', hd', hn', he⟩ := foldlM_readDeliver_error delivered dht ⟨d, h.symm.subset hd, hn⟩
    exact ⟨d', h.subset hd', hn', he⟩

/-- Contigs 1 and 2, held at ranks 1 and 0 under the id modulo 2, with no reads yet. -/
def ctgsTwoRanks : Nat → CtgsMap :=
  Function.update
    (Function.update (fun _ => .empty) 1
      ⟨[.ofContig ⟨1, "ACG".toList, 2.0⟩], List.nodup_singleton _⟩)
    0 ⟨[.ofContig ⟨2, "CA".toList, 3.5⟩], List.nodup_singleton _⟩

/-- Reads for both ends of contig 1 and the right end of contig 2, in the order sent. -/
def readsForTwoCtgs : List CtgReadData :=
  [⟨1, 'L', ⟨"AC".toList, "II".toList⟩⟩, ⟨2, 'R', ⟨"GT".toList, "JJ".toList⟩⟩,
    ⟨1, 'R', ⟨"TT".toList, "IJ".toList⟩⟩]

theorem add_reads_any_order_two_ctgs :
    readsForTwoCtgs.reverse.Perm readsForTwoCtgs ∧
      (∀ d ∈ readsForTwoCtgs, findCtg (fun cid => cid.toNat % 2) ctgsTwoRanks d.cid ≠ none) ∧
      (readsForTwoCtgs.reverse.foldlM (readDeliver fun cid => cid.toNat % 2) ctgsTwoRanks).map
          (fun dht => findCtg (fun cid => cid.toNat % 2) dht 1) =
        .ok (some ⟨1, "ACG".toList, 2.0, [⟨"AC".toList, "II".toList⟩],
          [⟨"TT".toList, "IJ".toList⟩]⟩) ∧
      ∃ dht', readsForTwoCtgs.reverse.foldlM (readDeliver fun cid => cid.toNat % 2)
          ctgsTwoRanks = .ok dht' ∧ ∀ cid,
        (findCtg (fun cid => cid.toNat % 2) ctgsTwoRanks cid = none →
          findCtg (fun cid => cid.toNat % 2) dht' cid = none) ∧
        ∀ c, findCtg (fun cid => cid.toNat % 2) ctgsTwoRanks cid = some c → ∃ left right,
          findCtg (fun cid => cid.toNat % 2) dht' cid =
            some { c with readsLeft := c.readsLeft ++ left, readsRight := c.readsRight ++ right } ∧
          left.Perm ((readsForTwoCtgs.filter fun d => d.cid = cid ∧ d.side = 'L').map
            (·.readSeq)) ∧
          right.Perm ((readsForTwoCtgs.filter fun d => d.cid = cid ∧ d.side ≠ 'L').map
            (·.readSeq)) :=
  have hperm : readsForTwoCtgs.reverse.Perm readsForTwoCtgs := List.reverse_perm _
  have hall : ∀ d ∈ readsForTwoCtgs,
      findCtg (fun cid => cid.toNat % 2) ctgsTwoRanks d.cid ≠ none := fun d hd =>
    Option.ne_none_iff_isSome.2 (by revert d; decide)
  ⟨hperm, hall, rfl, (add_reads_any_order hperm ctgsTwoRanks).1 hall⟩

end CtgsWithReads

section Pipeline

variable (kmerLen : Nat)

@[simp] theorem cid_orientedRead (ctg : CtgInfo) (seq quals : List Char) :
    (orientedRead ctg seq quals).cid = ctg.cid := by
  unfold orientedRead; split_ifs <;> rfl

@[simp] theorem side_orientedRead (ctg : CtgInfo) (seq quals : List Char) :
    (orientedRead ctg seq quals).side = ctg.side := by
  unfold orientedRead; split_ifs <;> rfl

/-- Modelled from the intent of the local assembly's read distribution: the reads a contig should
get at the ends `onSide` picks, from the mappings `process_alns` sent: each read not shorter than
`kmer_len` once for each mapping of it to such an end of the contig, oriented for the mapping. -/
def mappedReads (sent : List (List Char × CtgInfo))
    (reads : List (List Char × List Char × List Char)) (cid : Int) (onSide : Char → Prop)
    [DecidablePred onSide] : List ReadSeq :=
  (reads.filter fun r => kmerLen ≤ r.2.1.length).flatMap fun r =>
    (((sent.filter (·.1 = r.1)).map Prod.snd).filter fun ctg => ctg.cid = cid ∧ onSide ctg.side).map
      fun ctg => (orientedRead ctg r.2.1 r.2.2).readSeq

/-- The reads `process_reads` adds when the contigs of each read are those sent for it. -/
def sentReads (sent : List (List Char × CtgInfo))
    (reads : List (List Char × List Char × List Char)) : List CtgReadData :=
  (reads.filter fun r => kmerLen ≤ r.2.1.length).flatMap fun r =>
    ((sent.filter (·.1 = r.1)).map Prod.snd).map fun ctg => orientedRead ctg r.2.1 r.2.2

variable {kmerLen}

theorem length_of_mem_mappedReads {sent : List (List Char × CtgInfo)}
    {reads : List (List Char × List Char × List Char)} {cid : Int} {onSide : Char → Prop}
    [DecidablePred onSide] {x : ReadSeq} (hx : x ∈ mappedReads kmerLen sent reads cid onSide) :
    ∃ r ∈ reads, x.seq.length = r.2.1.length := by
  simp only [mappedReads, List.mem_flatMap, List.mem_filter, List.mem_map] at hx
  obtain ⟨r, ⟨hr, -⟩, ctg, -, rfl⟩ := hx
  refine ⟨r, hr, ?_⟩
  unfold orientedRead
  split_ifs <;> simp

theorem readsFit_of_perm {sent : List (List Char × CtgInfo)}
    {reads : List (List Char × List Char × List Char)} {cid : Int} {onSide : Char → Prop}
    [DecidablePred onSide] {l : List ReadSeq} (hl : l.Perm (mappedReads kmerLen sent reads cid onSide))
    {lassmMaxCountMersReads maxReserve readLen : Nat} {maxMerLen : Int}
    (hlen : ∀ r ∈ reads, maxMerLen ≤ r.2.1.length ∧ r.2.1.length ≤ readLen)
    (hfit : lassmMaxCountMersReads * readLen < 2 ^ 31)
    (hres : lassmMaxCountMersReads * readLen ≤ maxReserve) :
    ReadsFit lassmMaxCountMersReads maxReserve l readLen maxMerLen := by
  refine ⟨fun x hx => ?_, hfit, hres⟩
  obtain ⟨r, hr, hxr⟩ := length_of_mem_mappedReads (hl.subset (List.mem_of_mem_take hx))
  rw [hxr]
  exact hlen r hr

theorem readsToAdd_perm_sentReads {readTargetRank : List Char → Nat}
    {dht : Nat → AppendMap (List Char) CtgInfo}
    {sent : List (List Char × CtgInfo)}
    (hget : ∀ r, (getCtgs readTargetRank dht r).Perm ((sent.filter (·.1 = r)).map Prod.snd))
    (reads : List (List Char × List Char × List Char)) :
    (readsToAdd readTargetRank kmerLen dht reads).Perm (sentReads kmerLen sent reads) :=
  List.Perm.flatMap_left _ fun r _ => (hget r.1).map _

theorem map_filter_sentReads (sent : List (List Char × CtgInfo))
    (reads : List (List Char × List Char × List Char)) (cid : Int) (onSide : Char → Prop)
    [DecidablePred onSide] :
    ((sentReads kmerLen sent reads).filter fun d => d.cid = cid ∧ onSide d.side).map (·.readSeq) =
      mappedReads kmerLen sent reads cid onSide := by
  rw [sentReads, List.filter_flatMap, List.map_flatMap, mappedReads]
  congr 1
  funext r
  rw [List.filter_map, List.map_map]
  congr 1
  · congr 1
    funext ctg
    simp

theorem cid_mem_of_mem_sentReads {cs : List Contig} {sent : List (List Char × CtgInfo)}
    (hcid : ∀ u ∈ sent, u.2.cid ∈ cs.map (·.id)) {reads : List (List Char × List Char × List Char)}
    {d : CtgReadData} (hd : d ∈ sentReads kmerLen sent reads) : ∃ c ∈ cs, c.id = d.cid := by
  simp only [sentReads, List.mem_flatMap, List.mem_map] at hd
  obtain ⟨r, -, ctg, ⟨u, hu, rfl⟩, rfl⟩ := hd
  simpa using hcid u (List.mem_of_mem_filter hu)

variable (readTargetRank : List Char → Nat) (ctgTargetRank : Int → Nat)

theorem processReads_sentReads {sent dRtc : List (List Char × CtgInfo)} (hrtc : dRtc.Perm sent)
    {rankOrder : List Nat} (hranks : rankOrder.Nodup)
    (hrank : ∀ readId, readTargetRank readId ∈ rankOrder)
    {packedReadsList : List (List (List Char × List Char × List Char))}
    (hs : ∀ reads ∈ packedReadsList, ∀ r ∈ reads, ∀ c ∈ r.2.1, c ∈ ['A', 'C', 'G', 'T', 'N']) :
    ∃ datas, processReads readTargetRank kmerLen rankOrder
        (dRtc.foldl (rtcDeliver readTargetRank) fun _ => .empty) packedReadsList = .ok datas ∧
      datas.Perm (sentReads kmerLen sent packedReadsList.flatten) := by
  have hget : ∀ r, (getCtgs readTargetRank (dRtc.foldl (rtcDeliver readTargetRank) fun _ => .empty)
      r).Perm ((sent.filter (·.1 = r)).map Prod.snd) := fun r => by
    rw [getCtgs_foldl_rtcDeliver]
    exact (hrtc.filter _).map _
  obtain ⟨datas, hrun, hdatas⟩ := processReads_perm hranks hrank hs
    (dRtc.foldl (rtcDeliver readTargetRank) fun _ => .empty)
  exact ⟨datas, hrun, hdatas.trans (readsToAdd_perm_sentReads hget _)⟩

/-- The two stores of `CtgsWithReadsDHT` once every contig and every read sent has arrived, in any
order: each contig holds at each end the reads mapped to that end. -/
theorem stores_hold_mappedReads {cs dCtgs : List Contig} (hctgs : dCtgs.Perm cs)
    (hnd : (cs.map (·.id)).Nodup) {sent : List (List Char × CtgInfo)}
    (hcid : ∀ u ∈ sent, u.2.cid ∈ cs.map (·.id)) {reads : List (List Char × List Char × List Char)}
    {dReads : List CtgReadData} (hsent : dReads.Perm (sentReads kmerLen sent reads)) :
    ∃ dht, (dCtgs.foldlM (ctgDeliver ctgTargetRank) (fun _ => .empty) >>= fun dht0 =>
        dReads.foldlM (readDeliver ctgTargetRank) dht0) = .ok dht ∧
      ∀ c ∈ cs, ∃ left right, findCtg ctgTargetRank dht c.id =
          some { CtgWithReads.ofContig c with readsLeft := left, readsRight := right } ∧
        left.Perm (mappedReads kmerLen sent reads c.id (· = 'L')) ∧
        right.Perm (mappedReads kmerLen sent reads c.id (· ≠ 'L')) := by
  obtain ⟨dht0, hctg, -⟩ := @foldlM_ctgDeliver_ok ctgTargetRank dCtgs (fun _ => .empty)
    ((hctgs.map _).nodup_iff.2 hnd) fun _ _ => rfl
  have hin := (findCtg_of_foldlM_ctgDeliver hctg).1
  have hall : ∀ d ∈ dReads, findCtg ctgTargetRank dht0 d.cid ≠ none := fun d hd => by
    obtain ⟨c, hc, hcd⟩ := cid_mem_of_mem_sentReads hcid (hsent.subset hd)
    rw [← hcd, hin c (hctgs.symm.subset hc)]
    exact Option.some_ne_none _
  obtain ⟨dht, hreads, hf⟩ := foldlM_readDeliver_ok dReads dht0 hall
  refine ⟨dht, by rw [hctg]; exact hreads, fun c hc => ?_⟩
  refine ⟨_, _, by rw [hf, hin c (hctgs.symm.subset hc), Option.map_some', addReadsTo_eq], ?_, ?_⟩
  · rw [← map_filter_sentReads]
    exact (hsent.filter _).map _
  · rw [← map_filter_sentReads]
    exact (hsent.filter _).map _

/-- The local assembly's reads reach their contigs: once `add_ctgs` has stored the contigs (with
distinct ids), `process_alns` has sent its mappings (each to a stored contig) and
`process_reads` has sent the reads (over `A`, `C`, `G`, `T` and `N`), then, whatever order each
store delivers its updates in, every contig holds at its left end exactly the reads mapped to its
left end and at its right end those mapped to its right end, each oriented for its mapping. -/
theorem contigs_get_mapped_reads {cs dCtgs : List Contig} (hctgs : dCtgs.Perm cs)
    (hnd : (cs.map (·.id)).Nodup) {sent dRtc : List (List Char × CtgInfo)} (hrtc : dRtc.Perm sent)
    (hcid : ∀ u ∈ sent, u.2.cid ∈ cs.map (·.id)) {rankOrder : List Nat} (hranks : rankOrder.Nodup)
    (hrank : ∀ readId, readTargetRank readId ∈ rankOrder)
    {packedReadsList : List (List (List Char × List Char × List Char))}
    (hs : ∀ reads ∈ packedReadsList, ∀ r ∈ reads, ∀ c ∈ r.2.1, c ∈ ['A', 'C', 'G', 'T', 'N']) :
    ∃ datas, processReads readTargetRank kmerLen rankOrder
        (dRtc.foldl (rtcDeliver readTargetRank) fun _ => .empty) packedReadsList = .ok datas ∧
      ∀ dReads : List CtgReadData, dReads.Perm datas → ∃ dht,
        (dCtgs.foldlM (ctgDeliver ctgTargetRank) (fun _ => .empty) >>= fun dht0 =>
          dReads.foldlM (readDeliver ctgTargetRank) dht0) = .ok dht ∧
        ∀ c ∈ cs, ∃ left right, findCtg ctgTargetRank dht c.id =
            some { CtgWithReads.ofContig c with readsLeft := left, readsRight := right } ∧
          left.Perm (mappedReads kmerLen sent packedReadsList.flatten c.id (· = 'L')) ∧
          right.Perm (mappedReads kmerLen sent packedReadsList.flatten c.id (· ≠ 'L')) := by
  obtain ⟨datas, hrun, hdatas⟩ := processReads_sentReads readTargetRank hrtc hranks hrank hs
  exact ⟨datas, hrun, fun dReads hd =>
    stores_hold_mappedReads ctgTargetRank hctgs hnd hcid (hd.trans hdatas)⟩

/-- Contigs 4 and 7, the contigs of `mappingsTwoRanks`. -/
def ctgsFourSeven : List Contig := [⟨4, "ACGTA".toList, 2.0⟩, ⟨7, "GGC".toList, 3.5⟩]

theorem contigs_get_mapped_reads_two_ctgs :
    ctgsFourSeven.reverse.Perm ctgsFourSeven ∧ (ctgsFourSeven.map (·.id)).Nodup ∧
      mappingsTwoRanks.reverse.Perm mappingsTwoRanks ∧
      (∀ u ∈ mappingsTwoRanks, u.2.cid ∈ ctgsFourSeven.map (·.id)) ∧
      [0, 1].Nodup ∧ (∀ readId : List Char, readId.length % 2 ∈ [0, 1]) ∧
      (∀ reads ∈ [readsTwoRanks], ∀ r ∈ reads, ∀ c ∈ r.2.1, c ∈ ['A', 'C', 'G', 'T', 'N']) ∧
      mappedReads 3 mappingsTwoRanks [readsTwoRanks].flatten 4 (· = 'L') =
        [⟨"AACG".toList, "IIJJ".toList⟩] ∧
      mappedReads 3 mappingsTwoRanks [readsTwoRanks].flatten 4 (· ≠ 'L') =
        [⟨"ACGG".toList, "JJII".toList⟩] ∧
      ∃ datas, processReads (fun readId => readId.length % 2) 3 [0, 1]
          (mappingsTwoRanks.reverse.foldl (rtcDeliver fun readId => readId.length % 2)
            fun _ => .empty) [readsTwoRanks] = .ok datas ∧
        ∀ dReads : List CtgReadData, dReads.Perm datas → ∃ dht,
          (ctgsFourSeven.reverse.foldlM (ctgDeliver fun cid => cid.toNat % 2)
              (fun _ => .empty) >>=
            fun dht0 => dReads.foldlM (readDeliver fun cid => cid.toNat % 2) dht0) = .ok dht ∧
          ∀ c ∈ ctgsFourSeven, ∃ left right,
            findCtg (fun cid => cid.toNat % 2) dht c.id =
              some { CtgWithReads.ofContig c with readsLeft := left, readsRight := right } ∧
            left.Perm (mappedReads 3 mappingsTwoRanks [readsTwoRanks].flatten c.id (· = 'L')) ∧
            right.Perm (mappedReads 3 mappingsTwoRanks [readsTwoRanks].flatten c.id (· ≠ 'L')) :=
  have hnd : (ctgsFourSeven.map (·.id)).Nodup := by decide
  have hcid : ∀ u ∈ mappingsTwoRanks, u.2.cid ∈ ctgsFourSeven.map (·.id) := by decide
  have hranks : [0, 1].Nodup := by decide
  have hrank : ∀ readId : List Char, readId.length % 2 ∈ [0, 1] := fun readId => by
    rcases Nat.mod_two_eq_zero_or_one readId.length with h | h <;> simp [h]
  have hs : ∀ reads ∈ [readsTwoRanks], ∀ r ∈ reads, ∀ c ∈ r.2.1,
      c ∈ ['A', 'C', 'G', 'T', 'N'] := by decide
  ⟨List.reverse_perm _, hnd, List.reverse_perm _, hcid, hranks, hrank, hs, by decide, by decide,
    contigs_get_mapped_reads _ _ (List.reverse_perm _) hnd (List.reverse_perm _) hcid hranks
      hrank hs⟩

end Pipeline

section Run

variable (klignUnalignedThres : Int) (readTargetRank : List Char → Nat) (ctgTargetRank : Int → Nat)
  (lassmShiftSize qualOffset lassmMinQual lassmMinHiQual : Int)
  (lassmMaxCountMersReads maxReserve lassmRatingThres lassmMinKmerLen : Nat)
  (doubleToInt : Float → Int) (maxKmerLen walkLenLimit : Int) (kmerLen : Nat)

end Run

end Mhm2Proxy.LocalAssm
