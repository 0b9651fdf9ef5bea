import Mhm2Proxy.Kmer
import Mhm2Proxy.AppendStore
import Mhm2Proxy.ShuffleReads

/-! How `shuffle_reads` finds the contigs of each read pair (`shuffle_reads.cpp`).
`compute_kmer_to_cid_map` sends every k-mer of every contig to the k-mer's rank, which keeps the
first contig id to arrive. `compute_cid_to_reads_map` takes every 32nd k-mer of each read,
buffers the requests per rank, sends a full buffer as one rpc that looks its k-mers up, and
sends each read id found to its contig's rank, which appends it to the contig's vector. The
updates of both stores arrive in any order. A contig and a read are given as their id and their
bases. -/

namespace Mhm2Proxy.ShuffleReads

open Kmer (Base windows revcomp lt)
open AppendStore (AppendMap)

/-- The key the two maps give a k-mer: the k-mer or its reverse complement, whichever is larger
(`if (kmer < kmer_rc) kmer = kmer_rc`). -/
def shuffleKey (x : List Base) : List Base :=
  if lt x (revcomp x) then revcomp x else x

section KmerToCid

variable (shuffleKmerLen : Nat) (kmerTargetRank : List Base → Nat)

/-- The updates `compute_kmer_to_cid_map` sends for one contig: each of its k-mers, keyed, with
the contig's id. -/
def ctgKmerUpdates (ctg : Int × List Base) : List (List Base × Int) :=
  (windows shuffleKmerLen ctg.2).map fun x => (shuffleKey x, ctg.1)

/-- The update function of `kmer_cid_store`: a k-mer keeps the first contig id that reaches
it. -/
def insertKmerCid (m : List (List Base × Int)) (u : List Base × Int) : List (List Base × Int) :=
  match m.find? (·.1 = u.1) with
  | none => m ++ [u]
  | some _ => m

/-- A `kmer_cid_store` update as the k-mer's rank applies it (`get_kmer_target_rank` is
`kmerTargetRank`). -/
def kmerCidDeliver (dht : Nat → List (List Base × Int)) (u : List Base × Int) :
    Nat → List (List Base × Int) :=
  Function.update dht (kmerTargetRank u.1) (insertKmerCid (dht (kmerTargetRank u.1)) u)

/-- The lookup in the rpc of `update_cid_reads`: the contig id of the k-mer, `-1` for none. -/
def findCid (m : List (List Base × Int)) (key : List Base) : Int :=
  match m.find? (·.1 = key) with
  | none => -1
  | some e => e.2

theorem find?_insertKmerCid (m : List (List Base × Int)) (u : List Base × Int) (k : List Base) :
    (insertKmerCid m u).find? (·.1 = k) =
      (m.find? (·.1 = k)).or (if u.1 = k then some u else none) := by
  unfold insertKmerCid
  cases hf : m.find? (·.1 = u.1) with
  | none =>
    by_cases hk : u.1 = k
    · subst hk
      simp [List.find?_append, hf]
    · simp [List.find?_append, hk]
  | some e =>
    by_cases hk : u.1 = k
    · subst hk
      simp [hf]
    · simp [hk]

variable {kmerTargetRank} in
/-- Whatever order the updates arrive in, a k-mer's rank holds for it the contig id of the first
update for it to arrive. -/
theorem find?_foldl_kmerCidDeliver (k : List Base) :
    ∀ (ds : List (List Base × Int)) (dht : Nat → List (List Base × Int)),
      (ds.foldl (kmerCidDeliver kmerTargetRank) dht (kmerTargetRank k)).find? (·.1 = k) =
        ((dht (kmerTargetRank k)).find? (·.1 = k)).or (ds.find? (·.1 = k))
  | [], _ => Option.or_none.symm
  | u :: ds, dht => by
      rw [List.foldl_cons, find?_foldl_kmerCidDeliver k ds, List.find?_cons, kmerCidDeliver]
      by_cases hrank : kmerTargetRank k = kmerTargetRank u.1
      · rw [hrank, Function.update_same, find?_insertKmerCid, ← hrank]
        by_cases hk : u.1 = k
        · cases (dht (kmerTargetRank k)).find? (·.1 = k) <;> simp [hk]
        · simp [hk]
      · have hk : u.1 ≠ k := fun h => hrank (h ▸ rfl)
        rw [Function.update_noteq hrank]
        simp [hk]

theorem findCid_foldl_kmerCidDeliver (ds : List (List Base × Int)) (k : List Base) :
    findCid (ds.foldl (kmerCidDeliver kmerTargetRank) (fun _ => []) (kmerTargetRank k)) k =
      ((ds.find? (·.1 = k)).map Prod.snd).getD (-1) := by
  unfold findCid
  rw [find?_foldl_kmerCidDeliver]
  cases ds.find? (·.1 = k) <;> rfl

end KmerToCid

section CidToReads

variable (shuffleKmerLen : Nat) (kmerTargetRank : List Base → Nat)

/-- `MAX_REQ_BUFF`: the requests a buffer holds before it is sent. -/
def maxReqBuff : Nat := 1000

/-- The requests one read adds to `kmer_req_bufs`: every 32nd of its k-mers from the first,
keyed, with the pair's read id; none for a read shorter than `SHUFFLE_KMER_LEN`. -/
def readRequests (readId : Int) (seq : List Base) : List (List Base × Int) :=
  if seq.length < shuffleKmerLen then []
  else ((windows shuffleKmerLen seq).enum.filter fun e => e.1 % 32 = 0).map
    fun e => (shuffleKey e.2, readId)

/-- The requests of a read pair: both reads' k-mers with `abs` of the first read's id, the id
both reads of the pair share. -/
def pairRequests (p : (Int × List Base) × (Int × List Base)) : List (List Base × Int) :=
  readRequests shuffleKmerLen p.1.1.natAbs p.1.2 ++ readRequests shuffleKmerLen p.1.1.natAbs p.2.2

theorem pairRequests_id {p : (Int × List Base) × (Int × List Base)} {req : List Base × Int}
    (h : req ∈ pairRequests shuffleKmerLen p) : req.2 = p.1.1.natAbs := by
  unfold pairRequests readRequests at h
  rcases List.mem_append.1 h with h | h <;> split_ifs at h
  · exact absurd h (List.not_mem_nil _)
  · obtain ⟨e, -, rfl⟩ := List.mem_map.1 h; rfl
  · exact absurd h (List.not_mem_nil _)
  · obtain ⟨e, -, rfl⟩ := List.mem_map.1 h; rfl

/-- The loop of `compute_cid_to_reads_map` over the requests: each is added to the buffer of its
k-mer's rank, and a buffer that reaches `MAX_REQ_BUFF` requests is sent as one
`update_cid_reads` and cleared. It returns the buffers left and the batches sent, each with its
rank. -/
def bufferRequests : List (List Base × Int) → (Nat → List (List Base × Int)) →
    List (Nat × List (List Base × Int)) →
      (Nat → List (List Base × Int)) × List (Nat × List (List Base × Int))
  | [], bufs, sent => (bufs, sent)
  | req :: reqs, bufs, sent =>
      let t := kmerTargetRank req.1
      let buf := bufs t ++ [req]
      if buf.length = maxReqBuff then
        bufferRequests reqs (Function.update bufs t []) (sent ++ [(t, buf)])
      else bufferRequests reqs (Function.update bufs t buf) sent

/-- The batches `compute_cid_to_reads_map` sends: those of its loop over the pairs, then each
buffer left non-empty, the ranks in the order `foreach_rank_by_node` visits them. -/
def requestBatches (rankOrder : List Nat) (pairs : List ((Int × List Base) × (Int × List Base))) :
    List (Nat × List (List Base × Int)) :=
  let r := bufferRequests kmerTargetRank (pairs.flatMap (pairRequests shuffleKmerLen))
    (fun _ => []) []
  r.2 ++ rankOrder.filterMap fun t => if r.1 t = [] then none else some (t, r.1 t)

/-- `update_cid_reads(target, ...)`: the rpc looks each k-mer of the batch up at rank `target`,
and the read id of each k-mer that has a contig is sent to the contig's rank. -/
def cidReadUpdates (kmerMap : Nat → List (List Base × Int))
    (batch : Nat × List (List Base × Int)) : List (Int × Int) :=
  batch.2.filterMap fun req =>
    if findCid (kmerMap batch.1) req.1 = -1 then none
    else some (findCid (kmerMap batch.1) req.1, req.2)

/-- The updates of `cid_reads_store` that `compute_cid_to_reads_map` sends, batch by batch. -/
def cidReadsUpdates (kmerMap : Nat → List (List Base × Int)) (rankOrder : List Nat)
    (pairs : List ((Int × List Base) × (Int × List Base))) : List (Int × Int) :=
  (requestBatches shuffleKmerLen kmerTargetRank rankOrder pairs).flatMap (cidReadUpdates kmerMap)

/-- What the loop keeps of its buffers and batches: every request in a buffer or a batch is at
its k-mer's rank, a buffer holds fewer than `MAX_REQ_BUFF` requests, and a batch sent by the
loop holds exactly that many. -/
structure BufInv (bufs : Nat → List (List Base × Int))
    (sent : List (Nat × List (List Base × Int))) : Prop where
  buf_rank : ∀ t, ∀ req ∈ bufs t, kmerTargetRank req.1 = t
  buf_short : ∀ t, (bufs t).length < maxReqBuff
  sent_rank : ∀ b ∈ sent, ∀ req ∈ b.2, kmerTargetRank req.1 = b.1
  sent_full : ∀ b ∈ sent, b.2.length = maxReqBuff

theorem flatMap_update_perm {α : Type} [DecidableEq α] {f : Nat → List α} {t : Nat}
    {ranks : List Nat} (hnd : ranks.Nodup) (ht : t ∈ ranks) (x : List α) :
    (ranks.flatMap (Function.update f t x) ++ f t).Perm (ranks.flatMap f ++ x) := by
  have hp := List.perm_cons_erase ht
  have hrest : (ranks.erase t).flatMap (Function.update f t x) = (ranks.erase t).flatMap f :=
    List.flatMap_congr fun s hs =>
      Function.update_noteq (fun h : s = t => hnd.not_mem_erase (h ▸ hs)) _ _
  have h1 := hp.flatMap_right (Function.update f t x)
  have h2 := hp.flatMap_right f
  rw [List.flatMap_cons, Function.update_same, hrest] at h1
  rw [List.flatMap_cons] at h2
  refine List.perm_iff_count.2 fun a => ?_
  have c1 := List.perm_iff_count.1 h1 a
  have c2 := List.perm_iff_count.1 h2 a
  simp only [List.count_append] at c1 c2 ⊢
  omega

theorem flatMap_filterMap_nonempty {α : Type} [DecidableEq α] (f : Nat → List α) :
    ∀ ranks : List Nat, (ranks.filterMap fun t => if f t = [] then none else some (t, f t)).flatMap
      Prod.snd = ranks.flatMap f
  | [] => rfl
  | t :: ranks => by
      rw [List.filterMap_cons, List.flatMap_cons, ← flatMap_filterMap_nonempty f ranks]
      by_cases ht : f t = []
      · rw [if_pos ht, ht, List.nil_append]
      · rw [if_neg ht]; rfl

variable {kmerTargetRank} {rankOrder : List Nat} (hnd : rankOrder.Nodup)
  (hmem : ∀ k, kmerTargetRank k ∈ rankOrder)
include hnd hmem

theorem bufferRequests_spec : ∀ (reqs : List (List Base × Int))
    (bufs : Nat → List (List Base × Int)) (sent : List (Nat × List (List Base × Int))),
    BufInv kmerTargetRank bufs sent →
    BufInv kmerTargetRank (bufferRequests kmerTargetRank reqs bufs sent).1
        (bufferRequests kmerTargetRank reqs bufs sent).2 ∧
      ((bufferRequests kmerTargetRank reqs bufs sent).2.flatMap Prod.snd ++
        rankOrder.flatMap (bufferRequests kmerTargetRank reqs bufs sent).1).Perm
        (sent.flatMap Prod.snd ++ rankOrder.flatMap bufs ++ reqs)
  | [], bufs, sent, hinv => ⟨hinv, by rw [List.append_nil]; rfl⟩
  | req :: reqs, bufs, sent, hinv => by
      have hreq : ∀ r ∈ bufs (kmerTargetRank req.1) ++ [req],
          kmerTargetRank r.1 = kmerTargetRank req.1 :=
        fun r hr => (List.mem_append.1 hr).elim (hinv.buf_rank _ r) fun h => by
          rw [List.mem_singleton.1 h]
      have hlen := hinv.buf_short (kmerTargetRank req.1)
      have hupd : ∀ x : List (List Base × Int),
          (∀ r ∈ x, kmerTargetRank r.1 = kmerTargetRank req.1) →
          ∀ t, ∀ r ∈ Function.update bufs (kmerTargetRank req.1) x t, kmerTargetRank r.1 = t :=
        fun x hx t r hr => by
          by_cases ht : t = kmerTargetRank req.1
          · subst ht; rw [Function.update_same] at hr; exact hx r hr
          · rw [Function.update_noteq ht] at hr; exact hinv.buf_rank t r hr
      have hperm := flatMap_update_perm (f := bufs) hnd (hmem req.1)
      rw [bufferRequests]
      split_ifs with hfull
      · obtain ⟨hinv', hp⟩ :=
          bufferRequests_spec reqs (Function.update bufs (kmerTargetRank req.1) [])
          (sent ++ [(kmerTargetRank req.1, bufs (kmerTargetRank req.1) ++ [req])])
          ⟨hupd [] (fun _ h => absurd h (List.not_mem_nil _)),
            fun t => by
              by_cases ht : t = kmerTargetRank req.1
              · subst ht; rw [Function.update_same]; exact Nat.zero_lt_succ _
              · rw [Function.update_noteq ht]; exact hinv.buf_short t,
            fun b hb => by
              rcases List.mem_append.1 hb with hb | hb
              · exact hinv.sent_rank b hb
              · rw [List.mem_singleton.1 hb]; exact hreq,
            fun b hb => by
              rcases List.mem_append.1 hb with hb | hb
              · exact hinv.sent_full b hb
              · rw [List.mem_singleton.1 hb]; exact hfull⟩
        refine ⟨hinv', hp.trans (List.perm_iff_count.2 fun a => ?_)⟩
        have c := List.perm_iff_count.1 (hperm []) a
        simp only [List.flatMap_append, List.flatMap_cons, List.flatMap_nil, List.append_nil,
          List.count_append, List.count_cons, List.count_nil] at c ⊢
        omega
      · obtain ⟨hinv', hp⟩ := bufferRequests_spec reqs
          (Function.update bufs (kmerTargetRank req.1) (bufs (kmerTargetRank req.1) ++ [req])) sent
          ⟨hupd _ hreq,
            fun t => by
              by_cases ht : t = kmerTargetRank req.1
              · subst ht
                rw [Function.update_same]
                rw [List.length_append, List.length_singleton] at hfull ⊢
                omega
              · rw [Function.update_noteq ht]; exact hinv.buf_short t,
            hinv.sent_rank, hinv.sent_full⟩
        refine ⟨hinv', hp.trans (List.perm_iff_count.2 fun a => ?_)⟩
        have c := List.perm_iff_count.1 (hperm (bufs (kmerTargetRank req.1) ++ [req])) a
        simp only [List.count_append, List.count_cons, List.count_nil] at c ⊢
        omega

theorem requestBatches_spec (pairs : List ((Int × List Base) × (Int × List Base))) :
    ((requestBatches shuffleKmerLen kmerTargetRank rankOrder pairs).flatMap Prod.snd).Perm
        (pairs.flatMap (pairRequests shuffleKmerLen)) ∧
      ∀ b ∈ requestBatches shuffleKmerLen kmerTargetRank rankOrder pairs,
        0 < b.2.length ∧ b.2.length ≤ maxReqBuff ∧ ∀ req ∈ b.2, kmerTargetRank req.1 = b.1 := by
  obtain ⟨hinv, hp⟩ := bufferRequests_spec hnd hmem (pairs.flatMap (pairRequests shuffleKmerLen))
    (fun _ => []) [] ⟨fun _ _ h => absurd h (List.not_mem_nil _), fun _ => by decide,
      fun _ h => absurd h (List.not_mem_nil _), fun _ h => absurd h (List.not_mem_nil _)⟩
  rw [List.flatMap_nil, List.nil_append,
    show rankOrder.flatMap (fun _ => ([] : List (List Base × Int))) = [] from
      List.flatMap_eq_nil_iff.2 fun _ _ => rfl, List.nil_append] at hp
  refine ⟨?_, fun b hb => ?_⟩
  · rw [requestBatches, List.flatMap_append, flatMap_filterMap_nonempty]
    exact hp
  · rcases List.mem_append.1 hb with hb | hb
    · rw [hinv.sent_full b hb]
      exact ⟨by decide, le_rfl, hinv.sent_rank b hb⟩
    · obtain ⟨t, -, ht⟩ := List.mem_filterMap.1 hb
      split_ifs at ht with hne
      cases ht
      exact ⟨List.length_pos.2 hne, (hinv.buf_short t).le, hinv.buf_rank t⟩

/-- The buffering of `compute_cid_to_reads_map` sends every request it makes exactly once: the
batches hold, in another order, exactly the sampled k-mers of every pair. Each batch holds
between one and `MAX_REQ_BUFF` requests, and goes to the rank that holds all of its k-mers, so
each lookup is made where its k-mer is kept. It needs `foreach_rank_by_node` to visit every rank
once. -/
theorem request_batches_complete (pairs : List ((Int × List Base) × (Int × List Base))) :
    ((requestBatches shuffleKmerLen kmerTargetRank rankOrder pairs).flatMap Prod.snd).Perm
        (pairs.flatMap (pairRequests shuffleKmerLen)) ∧
      ∀ b ∈ requestBatches shuffleKmerLen kmerTargetRank rankOrder pairs,
        0 < b.2.length ∧ b.2.length ≤ maxReqBuff ∧ ∀ req ∈ b.2, kmerTargetRank req.1 = b.1 :=
  requestBatches_spec shuffleKmerLen hnd hmem pairs

omit hnd hmem in
theorem request_batches_complete_two_ranks :
    [0, 1].Nodup ∧ (∀ k : List Base, k.length % 2 ∈ [0, 1]) ∧
      ((requestBatches 2 (fun k => k.length % 2) [0, 1]
          [((-3, [.A, .C, .G]), (3, [.C, .G]))]).flatMap Prod.snd).Perm
        ([((-3, [.A, .C, .G]), (3, [.C, .G]))].flatMap (pairRequests 2)) ∧
      ∀ b ∈ requestBatches 2 (fun k => k.length % 2) [0, 1] [((-3, [.A, .C, .G]), (3, [.C, .G]))],
        0 < b.2.length ∧ b.2.length ≤ maxReqBuff ∧ ∀ req ∈ b.2, req.1.length % 2 = b.1 :=
  have hnd : [0, 1].Nodup := by decide
  have hmem : ∀ k : List Base, k.length % 2 ∈ [0, 1] := fun k => by
    rcases Nat.mod_two_eq_zero_or_one k.length with h | h <;> simp [h]
  ⟨hnd, hmem, request_batches_complete 2 hnd hmem _⟩

theorem cidReadsUpdates_perm (kmerMap : Nat → List (List Base × Int))
    (pairs : List ((Int × List Base) × (Int × List Base))) :
    (cidReadsUpdates shuffleKmerLen kmerTargetRank kmerMap rankOrder pairs).Perm
      ((pairs.flatMap (pairRequests shuffleKmerLen)).filterMap fun req =>
        if findCid (kmerMap (kmerTargetRank req.1)) req.1 = -1 then none
        else some (findCid (kmerMap (kmerTargetRank req.1)) req.1, req.2)) := by
  obtain ⟨hp, hb⟩ := requestBatches_spec shuffleKmerLen hnd hmem pairs
  have hbatch : ∀ b ∈ requestBatches shuffleKmerLen kmerTargetRank rankOrder pairs,
      cidReadUpdates kmerMap b = b.2.filterMap fun req =>
        if findCid (kmerMap (kmerTargetRank req.1)) req.1 = -1 then none
        else some (findCid (kmerMap (kmerTargetRank req.1)) req.1, req.2) :=
    fun b hb' => List.filterMap_congr fun req hreq => by rw [(hb b hb').2.2 req hreq]
  rw [cidReadsUpdates, List.flatMap_congr hbatch, ← List.filterMap_flatMap]
  exact hp.filterMap _

omit hnd hmem in
theorem map_snd_filter_filterMap {c : Int} (hc : c ≠ -1) (ds : List (List Base × Int)) :
    ∀ l : List (List Base × Int),
      ((l.filterMap fun req => if ((ds.find? (·.1 = req.1)).map Prod.snd).getD (-1) = -1 then none
          else some (((ds.find? (·.1 = req.1)).map Prod.snd).getD (-1), req.2)).filter
            (·.1 = c)).map Prod.snd =
        l.filterMap fun req =>
          if (ds.find? (·.1 = req.1)).map Prod.snd = some c then some req.2 else none
  | [] => rfl
  | req :: l => by
      rw [List.filterMap_cons, List.filterMap_cons, ← map_snd_filter_filterMap hc ds l]
      cases (ds.find? (·.1 = req.1)).map Prod.snd with
      | none => simp
      | some c' =>
        by_cases h : c' = c
        · subst h
          simp [hc]
        · by_cases h' : c' = -1
          · simp [h', Ne.symm hc]
          · simp [h, h']

/-- `compute_cid_to_reads_map`, after `compute_kmer_to_cid_map`, whatever order each store
delivers its updates in: the vector of contig `c` holds, in another order, the pair's read id of
every sampled k-mer of every pair whose key went to `c`, that is, whose first `kmer_cid_store`
update to arrive came from contig `c`; nothing else. So a pair goes with a contig only through a
k-mer that the contig has, on either strand. -/
theorem cid_to_reads_map_complete (targetRank : Int → Nat) {ctgs : List (Int × List Base)}
    {dKmers : List (List Base × Int)}
    (hk : dKmers.Perm (ctgs.flatMap (ctgKmerUpdates shuffleKmerLen)))
    (pairs : List ((Int × List Base) × (Int × List Base))) {dCids : List (Int × Int)}
    (hc : dCids.Perm (cidReadsUpdates shuffleKmerLen kmerTargetRank
      (dKmers.foldl (kmerCidDeliver kmerTargetRank) fun _ => []) rankOrder pairs))
    {c : Int} (hc1 : c ≠ -1) :
    (AppendStore.lookup targetRank (dCids.foldl (AppendStore.deliver targetRank) fun _ => .empty)
        c).Perm ((pairs.flatMap (pairRequests shuffleKmerLen)).filterMap fun req =>
          if (dKmers.find? (·.1 = req.1)).map Prod.snd = some c then some req.2 else none) ∧
      ∀ rid ∈ AppendStore.lookup targetRank
          (dCids.foldl (AppendStore.deliver targetRank) fun _ => .empty) c,
        ∃ p ∈ pairs, rid = p.1.1.natAbs ∧ ∃ key, (key, rid) ∈ pairRequests shuffleKmerLen p ∧
          ∃ ctg ∈ ctgs, ctg.1 = c ∧ ∃ x ∈ windows shuffleKmerLen ctg.2, shuffleKey x = key := by
  have hperm : (AppendStore.lookup targetRank
      (dCids.foldl (AppendStore.deliver targetRank) fun _ => .empty) c).Perm
      ((pairs.flatMap (pairRequests shuffleKmerLen)).filterMap fun req =>
        if (dKmers.find? (·.1 = req.1)).map Prod.snd = some c then some req.2 else none) := by
    rw [AppendStore.lookup_foldl_deliver, AppendStore.lookup_empty, List.nil_append,
      ← map_snd_filter_filterMap hc1]
    refine (((hc.filter _).map _).trans
      (((cidReadsUpdates_perm shuffleKmerLen hnd hmem _ pairs).filter _).map _)).trans
        (List.Perm.of_eq ?_)
    simp only [findCid_foldl_kmerCidDeliver]
  refine ⟨hperm, fun rid hrid => ?_⟩
  obtain ⟨req, hreq, hsome⟩ := List.mem_filterMap.1 (hperm.subset hrid)
  split_ifs at hsome with hwin
  cases hsome
  obtain ⟨p, hp, hreqp⟩ := List.mem_flatMap.1 hreq
  obtain ⟨e, he, hec⟩ := Option.map_eq_some'.1 hwin
  have hke : e.1 = req.1 := by simpa using List.find?_some he
  obtain ⟨ctg, hctg, hectg⟩ := List.mem_flatMap.1 (hk.subset (List.mem_of_find?_eq_some he))
  obtain ⟨x, hx, rfl⟩ := List.mem_map.1 hectg
  refine ⟨p, hp, pairRequests_id shuffleKmerLen hreqp, req.1, hreqp, ctg, hctg, hec, x, hx, hke⟩

/-- Contigs 5 and 6, which share the 2-mer `CG`. -/
def ctgsFiveSix : List (Int × List Base) := [(5, [.A, .C, .G]), (6, [.T, .T, .C, .G])]

/-- Pairs 3 and 8: pair 3 has a 2-mer of contig 5 and the shared one, pair 8 the reverse
complement of a 2-mer of contig 6. -/
def pairsTwoCtgs : List ((Int × List Base) × (Int × List Base)) :=
  [((-3, [.A, .C]), (3, [.C, .G])), ((-8, [.G, .A]), (8, [.G, .G]))]

/-- The `kmer_cid_store` updates for `ctgsFiveSix`, delivered last first. -/
def kmersFiveSix : List (List Base × Int) := (ctgsFiveSix.flatMap (ctgKmerUpdates 2)).reverse

/-- The `cid_reads_store` updates for `pairsTwoCtgs`, delivered last first. -/
def cidsTwoCtgs : List (Int × Int) :=
  (cidReadsUpdates 2 (fun k => k.length % 2)
    (kmersFiveSix.foldl (kmerCidDeliver fun k => k.length % 2) fun _ => []) [0, 1]
    pairsTwoCtgs).reverse

omit hnd hmem in
theorem cid_to_reads_map_complete_two_ctgs :
    [0, 1].Nodup ∧ (∀ k : List Base, k.length % 2 ∈ [0, 1]) ∧
      kmersFiveSix.Perm (ctgsFiveSix.flatMap (ctgKmerUpdates 2)) ∧
      cidsTwoCtgs.Perm (cidReadsUpdates 2 (fun k => k.length % 2)
        (kmersFiveSix.foldl (kmerCidDeliver fun k => k.length % 2) fun _ => []) [0, 1]
        pairsTwoCtgs) ∧ (6 : Int) ≠ -1 ∧
      AppendStore.lookup (fun cid => cid.toNat % 2)
          (cidsTwoCtgs.foldl (AppendStore.deliver fun cid => cid.toNat % 2) fun _ => .empty) 5 =
        [3] ∧
      AppendStore.lookup (fun cid => cid.toNat % 2)
          (cidsTwoCtgs.foldl (AppendStore.deliver fun cid => cid.toNat % 2) fun _ => .empty) 6 =
        [8, 3] ∧
      (AppendStore.lookup (fun cid => cid.toNat % 2)
          (cidsTwoCtgs.foldl (AppendStore.deliver fun cid => cid.toNat % 2) fun _ => .empty)
          6).Perm
        ((pairsTwoCtgs.flatMap (pairRequests 2)).filterMap fun req =>
          if (kmersFiveSix.find? (·.1 = req.1)).map Prod.snd = some 6 then some req.2 else none) ∧
      ∀ rid ∈ AppendStore.lookup (fun cid => cid.toNat % 2)
          (cidsTwoCtgs.foldl (AppendStore.deliver fun cid => cid.toNat % 2) fun _ => .empty) 6,
        ∃ p ∈ pairsTwoCtgs, rid = p.1.1.natAbs ∧ ∃ key, (key, rid) ∈ pairRequests 2 p ∧
          ∃ ctg ∈ ctgsFiveSix, ctg.1 = 6 ∧ ∃ x ∈ windows 2 ctg.2, shuffleKey x = key :=
  have hnd : [0, 1].Nodup := by decide
  have hmem : ∀ k : List Base, k.length % 2 ∈ [0, 1] := fun k => by
    rcases Nat.mod_two_eq_zero_or_one k.length with h | h <;> simp [h]
  ⟨hnd, hmem, List.reverse_perm _, List.reverse_perm _, by decide, by decide, by decide,
    cid_to_reads_map_complete 2 hnd hmem _ (List.reverse_perm _) _ (List.reverse_perm _)
      (by decide)⟩

end CidToReads

end Mhm2Proxy.ShuffleReads
