import Mhm2Proxy.LocalAssm
import Mhm2Proxy.ContigsFile

/-! What the extensions of `count_mers` rest on. The comparator of `set_ext` orders the bases by
rating, then by high-quality votes, then by votes, so after the sort no base rates above the
first and the `top_rating < runner_up` check never fires. A base `set_ext` chooses has a vote,
and every vote in `mers_ht` comes from a read that holds the k-mer followed by that base. -/

namespace Mhm2Proxy.LocalAssm

open PackedReads (charValue)

section SetExt

theorem sortCmp_iff (a b : MerBase) :
    sortCmp a b = true ↔ b.rating < a.rating ∨ b.rating = a.rating ∧
      (b.nvotesHiQ < a.nvotesHiQ ∨ b.nvotesHiQ = a.nvotesHiQ ∧ b.nvotes ≤ a.nvotes) := by
  unfold sortCmp
  by_cases hr : a.rating = b.rating
  · by_cases hq : a.nvotesHiQ = b.nvotesHiQ
    · by_cases hn : a.nvotes = b.nvotes <;> simp [hr, hq, hn]; omega
    · simp [hr, hq]; omega
  · simp [hr]; omega

theorem sortCmp_total (a b : MerBase) : sortCmp a b = true ∨ sortCmp b a = true := by
  simp only [sortCmp_iff]
  omega

theorem sortCmp_trans {a b c : MerBase} (hab : sortCmp a b = true) (hbc : sortCmp b c = true) :
    sortCmp a c = true := by
  rw [sortCmp_iff] at *
  omega

instance : IsTotal MerBase fun a b => sortCmp a b = true := ⟨sortCmp_total⟩

instance : IsTrans MerBase fun a b => sortCmp a b = true := ⟨fun _ _ _ => sortCmp_trans⟩

/-- `set_ext` never reaches its "top_rating < runner_up" `DIE`: its sort puts a base of the
highest rating first, whatever the votes and the depth. -/
theorem setExt_ok (mf : MerFreqs) (seqDepth : Int) (lassmRatingThres : Nat) :
    ∃ ext, mf.setExt seqDepth lassmRatingThres = .ok ext := by
  have hs := List.sorted_insertionSort (fun a b : MerBase => sortCmp a b = true)
    (mf.merBases seqDepth)
  unfold MerFreqs.setExt
  split
  · rename_i m0 m1 m2 rest h
    rw [h] at hs
    have h01 := (sortCmp_iff m0 m1).1 (List.rel_of_sorted_cons hs m1 (List.mem_cons_self _ _))
    rw [if_neg (by omega)]
    exact ⟨_, rfl⟩
  · exact ⟨_, rfl⟩

/-- The votes `e` holds for the character `b`; none for a character other than a base. -/
def ExtCounts.count (e : ExtCounts) (b : Char) : Nat :=
  if b = 'A' then e.countA else if b = 'C' then e.countC else if b = 'G' then e.countG
  else if b = 'T' then e.countT else 0

theorem ExtCounts.inc_of_not_mem {ext : Char} (h : ext ∉ ['A', 'C', 'G', 'T']) (e : ExtCounts)
    (count : Nat) : e.inc ext count = e := by
  unfold ExtCounts.inc
  split <;> simp_all

theorem ExtCounts.count_inc_of_ne {b ext : Char} (h : b ≠ ext) (e : ExtCounts) (count : Nat) :
    (e.inc ext count).count b = e.count b := by
  by_cases hext : ext ∈ ['A', 'C', 'G', 'T']
  · simp only [List.mem_cons, List.mem_singleton, List.not_mem_nil, or_false] at hext
    rcases hext with rfl | rfl | rfl | rfl <;> simp [ExtCounts.inc, ExtCounts.count, h]
  · rw [ExtCounts.inc_of_not_mem hext]

theorem ExtCounts.pos_of_count_inc {b ext : Char} {e : ExtCounts} {count : Nat}
    (h : 0 < (e.inc ext count).count b) : 0 < e.count b ∨ b = ext := by
  by_cases hb : b = ext
  · exact .inr hb
  · exact .inl (ExtCounts.count_inc_of_ne hb e count ▸ h)

theorem mem_merBases {mf : MerFreqs} {seqDepth : Int} {mb : MerBase}
    (h : mb ∈ mf.merBases seqDepth) :
    mb.base ∈ ['A', 'C', 'G', 'T'] ∧ mb.nvotes = mf.lowQExts.count mb.base ∧
      (mb.nvotes = 0 → mb.rating = 0) := by
  simp only [MerFreqs.merBases, List.map_cons, List.map_nil, List.mem_cons, List.mem_singleton,
    List.not_mem_nil, or_false] at h
  rcases h with rfl | rfl | rfl | rfl <;>
    simp +contextual [ExtCounts.count, MerBase.getBaseRating]

theorem eq_or_of_ite_eq {p : Prop} [Decidable p] {a b c : Char} (h : (if p then a else b) = c) :
    c = a ∨ c = b := by
  by_cases hp : p
  · exact .inl (by rw [if_pos hp] at h; exact h.symm)
  · exact .inr (by rw [if_neg hp] at h; exact h.symm)

theorem chooseExt_cases (lassmRatingThres : Nat) (m0 m1 m2 : MerBase) :
    chooseExt lassmRatingThres m0 m1 m2 = 'X' ∨ chooseExt lassmRatingThres m0 m1 m2 = 'F' ∨
      chooseExt lassmRatingThres m0 m1 m2 = m0.base ∧ lassmRatingThres < m0.rating ∨
      chooseExt lassmRatingThres m0 m1 m2 = m1.base ∧ m0.nvotes < m1.nvotes := by
  generalize hc : chooseExt lassmRatingThres m0 m1 m2 = c
  unfold chooseExt at hc
  dsimp only at hc
  by_cases ht : m0.rating > lassmRatingThres
  swap
  · rw [if_neg ht] at hc
    exact .inl hc.symm
  rw [if_pos ht] at hc
  have hbase : c = m0.base ∨ c = 'X' → c = 'X' ∨ c = 'F' ∨
      c = m0.base ∧ lassmRatingThres < m0.rating ∨ c = m1.base ∧ m0.nvotes < m1.nvotes :=
    fun h => h.elim (fun h => .inr (.inr (.inl ⟨h, ht⟩))) .inl
  by_cases h3 : m0.rating ≤ 3
  · rw [if_pos h3] at hc; exact hbase (eq_or_of_ite_eq hc)
  rw [if_neg h3] at hc
  by_cases h6 : m0.rating < 6
  · rw [if_pos h6] at hc; exact hbase (eq_or_of_ite_eq hc)
  rw [if_neg h6] at hc
  by_cases h6' : m0.rating = 6
  · rw [if_pos h6'] at hc; exact hbase (eq_or_of_ite_eq hc)
  rw [if_neg h6'] at hc
  by_cases h7 : m1.rating < 7
  · rw [if_pos h7] at hc; exact hbase (.inl hc.symm)
  rw [if_neg h7] at hc
  by_cases hf : m2.rating = 7 ∨ m0.nvotes = m1.nvotes
  · rw [if_pos hf] at hc; exact .inr (.inl hc.symm)
  rw [if_neg hf] at hc
  by_cases h0 : m0.nvotes > m1.nvotes
  · rw [if_pos h0] at hc; exact hbase (.inl hc.symm)
  rw [if_neg h0] at hc
  by_cases h1 : m1.nvotes > m0.nvotes
  · rw [if_pos h1] at hc; exact .inr (.inr (.inr ⟨hc.symm, h1⟩))
  rw [if_neg h1] at hc
  exact .inl hc.symm

theorem setExt_cases {mf : MerFreqs} {seqDepth : Int} {lassmRatingThres : Nat} {ext : Char}
    (h : mf.setExt seqDepth lassmRatingThres = .ok ext) :
    ext = 'F' ∨ ext = 'X' ∨ ext ∈ ['A', 'C', 'G', 'T'] ∧ 0 < mf.lowQExts.count ext := by
  have hperm := List.perm_insertionSort (fun a b : MerBase => sortCmp a b = true)
    (mf.merBases seqDepth)
  unfold MerFreqs.setExt at h
  split at h
  · rename_i m0 m1 m2 rest hsort
    have h0 : m0 ∈ mf.merBases seqDepth := hperm.subset (by rw [hsort]; simp)
    have h1 : m1 ∈ mf.merBases seqDepth := hperm.subset (by rw [hsort]; simp)
    obtain ⟨hb0, hn0, hr0⟩ := mem_merBases h0
    obtain ⟨hb1, hn1, -⟩ := mem_merBases h1
    split at h
    · cases h
    · cases h
      rcases chooseExt_cases lassmRatingThres m0 m1 m2 with h | h | ⟨h, hr⟩ | ⟨h, hn⟩ <;>
        rw [h]
      · exact .inr (.inl rfl)
      · exact .inl rfl
      · exact .inr (.inr ⟨hb0, hn0 ▸ Nat.pos_of_ne_zero fun h0 => by have := hr0 h0; omega⟩)
      · exact .inr (.inr ⟨hb1, by omega⟩)
  · cases h
    exact .inr (.inl rfl)

end SetExt

theorem except_bind_eq_ok {ε α β : Type} {x : Except ε α} {f : α → Except ε β} {b : β}
    (h : x >>= f = .ok b) : ∃ a, x = .ok a ∧ f a = .ok b := by
  cases x with
  | error e => cases h
  | ok a => exact ⟨a, rfl, h⟩

theorem except_bind_ok {ε α β : Type} {x : Except ε α} {f : α → Except ε β}
    (hx : ∃ a, x = .ok a) (hf : ∀ a, x = .ok a → ∃ b, f a = .ok b) : ∃ b, x >>= f = .ok b := by
  obtain ⟨a, rfl⟩ := hx
  exact hf a rfl

theorem mem_of_mapM_eq_ok {α β ε : Type} {g : α → Except ε β} :
    ∀ {l : List α} {bs : List β}, l.mapM g = .ok bs → ∀ b ∈ bs, ∃ a ∈ l, g a = .ok b
  | [], bs, h => by cases h; simp
  | a :: l, bs, h => by
      rw [List.mapM_cons] at h
      cases hg : g a with
      | error e => rw [hg] at h; cases h
      | ok b =>
        cases hl : l.mapM g with
        | error e => rw [hg, hl] at h; cases h
        | ok bs' =>
          rw [hg, hl] at h
          cases h
          rintro b' (_ | ⟨_, hb'⟩)
          · exact ⟨a, List.mem_cons_self _ _, hg⟩
          · obtain ⟨a', ha', hg'⟩ := mem_of_mapM_eq_ok hl b' hb'
            exact ⟨a', List.mem_cons_of_mem _ ha', hg'⟩

section Votes

variable (merLen : Nat) (qualOffset lassmMinQual lassmMinHiQual : Int)

/-- `mer` stands in one of `reads` followed by `b`, read with a quality of at least
`LASSM_MIN_QUAL`. -/
def Voted (reads : List ReadSeq) (mer : List Char) (b : Char) : Prop :=
  ∃ r ∈ reads, ∃ start, (r.seq.drop start).take merLen = mer ∧ r.seq[start + merLen]? = some b ∧
    lassmMinQual ≤ charValue (r.quals.getD (start + merLen) (Char.ofNat 0)) - qualOffset

/-- Every vote in `mers_ht` is a `Voted` occurrence in `reads`. -/
def VotesBacked (reads : List ReadSeq) (ht : MerMap) : Prop :=
  ∀ e ∈ ht, ∀ b, 0 < e.2.lowQExts.count b → Voted merLen qualOffset lassmMinQual reads e.1 b

variable {merLen qualOffset lassmMinQual lassmMinHiQual} {reads : List ReadSeq}

theorem Voted.mono {reads' : List ReadSeq} {mer : List Char} {b : Char}
    (h : Voted merLen qualOffset lassmMinQual reads mer b) (hsub : ∀ r ∈ reads, r ∈ reads') :
    Voted merLen qualOffset lassmMinQual reads' mer b := by
  obtain ⟨r, hr, hv⟩ := h
  exact ⟨r, hsub r hr, hv⟩

theorem VotesBacked.findOrInsert {ht : MerMap}
    (h : VotesBacked merLen qualOffset lassmMinQual reads ht) (mer : List Char) :
    VotesBacked merLen qualOffset lassmMinQual reads (findOrInsert ht mer) := by
  intro e he b hb
  unfold LocalAssm.findOrInsert at he
  split at he
  · exact h e he b hb
  · rcases List.mem_append.1 he with he | he
    · exact h e he b hb
    · rw [List.mem_singleton.1 he] at hb
      simp [MerFreqs.zero, ExtCounts.count] at hb

theorem countExt_lowQExts (mf : MerFreqs) (ext : Char) (qual : Int) :
    (mf.countExt ext qual lassmMinQual lassmMinHiQual).lowQExts =
      if qual ≥ lassmMinQual then mf.lowQExts.inc ext 1 else mf.lowQExts := by
  unfold MerFreqs.countExt
  split_ifs <;> rfl

theorem VotesBacked.countMer {r : ReadSeq} (hr : r ∈ reads) {ht : MerMap} {start : Nat}
    (hstart : start + merLen < r.seq.length)
    (h : VotesBacked merLen qualOffset lassmMinQual reads ht) :
    VotesBacked merLen qualOffset lassmMinQual reads
      (countMer merLen qualOffset lassmMinQual lassmMinHiQual r ht start) := by
  have hins := h.findOrInsert ((r.seq.drop start).take merLen)
  unfold LocalAssm.countMer
  dsimp only
  split_ifs with hN hext
  · exact h
  · exact hins
  · intro e he b hb
    obtain ⟨e0, he0, rfl⟩ := List.mem_map.1 he
    by_cases hkey : e0.1 = (r.seq.drop start).take merLen
    · rw [if_pos hkey] at hb ⊢
      rw [countExt_lowQExts] at hb
      split at hb
      · rcases ExtCounts.pos_of_count_inc hb with hb | rfl
        · exact hins e0 he0 b hb
        · refine ⟨r, hr, start, hkey.symm, ?_, by assumption⟩
          rw [List.getD_eq_getElem?_getD, List.getElem?_eq_getElem hstart]
          rfl
      · exact hins e0 he0 b hb
    · rw [if_neg hkey] at hb ⊢
      exact hins e0 he0 b hb

theorem VotesBacked.foldl_countMer {r : ReadSeq} (hr : r ∈ reads) :
    ∀ (starts : List Nat) {ht : MerMap}, (∀ start ∈ starts, start + merLen < r.seq.length) →
      VotesBacked merLen qualOffset lassmMinQual reads ht →
      VotesBacked merLen qualOffset lassmMinQual reads
        (starts.foldl (LocalAssm.countMer merLen qualOffset lassmMinQual lassmMinHiQual r) ht)
  | [], _, _, h => h
  | start :: starts, _, hs, h =>
      VotesBacked.foldl_countMer hr starts (fun s h' => hs s (List.mem_cons_of_mem _ h'))
        (h.countMer hr (hs start (List.mem_cons_self _ _)))

theorem VotesBacked.countRead {r : ReadSeq} (hr : r ∈ reads) {ht : MerMap}
    (h : VotesBacked merLen qualOffset lassmMinQual reads ht) :
    VotesBacked merLen qualOffset lassmMinQual reads
      (LocalAssm.countRead merLen qualOffset lassmMinQual lassmMinHiQual ht r) := by
  unfold LocalAssm.countRead
  split
  · exact h
  · exact VotesBacked.foldl_countMer hr _ (fun start hs => by rw [List.mem_range] at hs; omega) h

variable (lassmMaxCountMersReads : Nat)

theorem VotesBacked.countReads (numReadsTotal : Nat) :
    ∀ (numReads : Nat) (rs : List ReadSeq) (ht : MerMap),
      (∀ r ∈ rs.take (lassmMaxCountMersReads - numReads), r ∈ reads) →
      VotesBacked merLen qualOffset lassmMinQual reads ht →
      VotesBacked merLen qualOffset lassmMinQual reads
        (LocalAssm.countReads merLen qualOffset lassmMinQual lassmMinHiQual lassmMaxCountMersReads
          numReadsTotal numReads rs ht).1
  | _, [], _, _, h => h
  | numReads, r :: rs, ht, hrs, h => by
      unfold LocalAssm.countReads
      split
      · exact h
      · have htake : lassmMaxCountMersReads - numReads =
            lassmMaxCountMersReads - (numReads + 1) + 1 := by omega
        rw [htake, List.take_succ_cons] at hrs
        exact VotesBacked.countReads numReadsTotal (numReads + 1) rs _
          (fun r' hr' => hrs r' (List.mem_cons_of_mem _ hr'))
          (h.countRead (hrs r (List.mem_cons_self _ _)))

end Votes

section CountMers

variable (merLen : Nat) (qualOffset lassmMinQual lassmMinHiQual : Int)
  (lassmMaxCountMersReads maxReserve : Nat) (reads : List ReadSeq) (seqDepth : Int)
  (lassmRatingThres : Nat)

theorem countMers_of_le (hres : reserveCapacity merLen lassmMaxCountMersReads reads ≤ maxReserve) :
    countMers merLen qualOffset lassmMinQual lassmMinHiQual lassmMaxCountMersReads maxReserve reads
        seqDepth lassmRatingThres =
      ((countReads merLen qualOffset lassmMinQual lassmMinHiQual lassmMaxCountMersReads
          reads.length 0 reads []).1.mapM fun e =>
          (e.2.setExt seqDepth lassmRatingThres).map fun ext => (e.1, e.2, ext),
        (countReads merLen qualOffset lassmMinQual lassmMinHiQual lassmMaxCountMersReads
          reads.length 0 reads []).2) := by
  simp only [countMers, reserve, if_pos hres]

theorem countMers_of_lt (h : maxReserve < reserveCapacity merLen lassmMaxCountMersReads reads) :
    (countMers merLen qualOffset lassmMinQual lassmMinHiQual lassmMaxCountMersReads maxReserve
      reads seqDepth lassmRatingThres).1 = .error "mers_ht.reserve failed" := by
  simp only [countMers, reserve, if_neg (Nat.not_le.2 h)]

theorem countMers_ok (hres : reserveCapacity merLen lassmMaxCountMersReads reads ≤ maxReserve) :
    ∃ mersHt, (countMers merLen qualOffset lassmMinQual lassmMinHiQual lassmMaxCountMersReads
      maxReserve reads seqDepth lassmRatingThres).1 = .ok mersHt := by
  rw [countMers_of_le merLen qualOffset lassmMinQual lassmMinHiQual lassmMaxCountMersReads
    maxReserve reads seqDepth lassmRatingThres hres]
  exact ContigsFile.mapM_ok fun e _ => by
    obtain ⟨ext, h⟩ := setExt_ok e.2 seqDepth lassmRatingThres
    exact ⟨_, by rw [h]; rfl⟩

variable {merLen qualOffset lassmMinQual lassmMinHiQual lassmMaxCountMersReads maxReserve reads
  seqDepth lassmRatingThres}

/-- Every extension `count_mers` chooses is a fork, a dead end, or a base that follows the k-mer,
with a quality of at least `LASSM_MIN_QUAL`, in one of the reads it counts. -/
theorem countMers_sound {mersHt : List (List Char × MerFreqs × Char)}
    (h : (countMers merLen qualOffset lassmMinQual lassmMinHiQual lassmMaxCountMersReads maxReserve
      reads seqDepth lassmRatingThres).1 = .ok mersHt)
    {e : List Char × MerFreqs × Char} (he : e ∈ mersHt) :
    e.2.2 = 'F' ∨ e.2.2 = 'X' ∨ e.2.2 ∈ ['A', 'C', 'G', 'T'] ∧
      Voted merLen qualOffset lassmMinQual (reads.take lassmMaxCountMersReads) e.1 e.2.2 := by
  by_cases hres : reserveCapacity merLen lassmMaxCountMersReads reads ≤ maxReserve
  swap
  · rw [countMers_of_lt merLen qualOffset lassmMinQual lassmMinHiQual lassmMaxCountMersReads
      maxReserve reads seqDepth lassmRatingThres (Nat.lt_of_not_le hres)] at h
    cases h
  rw [countMers_of_le merLen qualOffset lassmMinQual lassmMinHiQual lassmMaxCountMersReads
    maxReserve reads seqDepth lassmRatingThres hres] at h
  obtain ⟨e0, he0, hg⟩ := mem_of_mapM_eq_ok h e he
  have hbacked : VotesBacked merLen qualOffset lassmMinQual (reads.take lassmMaxCountMersReads)
      (countReads merLen qualOffset lassmMinQual lassmMinHiQual lassmMaxCountMersReads
        reads.length 0 reads []).1 :=
    VotesBacked.countReads lassmMaxCountMersReads reads.length 0 reads []
      (fun r hr => by rwa [Nat.sub_zero] at hr) (fun _ he => by cases he)
  cases hs : e0.2.setExt seqDepth lassmRatingThres with
  | error err => rw [hs] at hg; cases hg
  | ok ext =>
    rw [hs] at hg
    cases hg
    rcases setExt_cases hs with h | h | ⟨hb, hpos⟩
    · exact .inl h
    · exact .inr (.inl h)
    · exact .inr (.inr ⟨hb, hbacked e0 he0 ext hpos⟩)

variable (merLen qualOffset lassmMinQual lassmMinHiQual lassmMaxCountMersReads maxReserve reads
  seqDepth lassmRatingThres) in
/-- `count_mers` dies exactly when `mers_ht.reserve(max_mers)` throws, on a capacity past what
the table can allocate; otherwise every extension it chooses is a fork, a dead end, or a base
that follows the k-mer, with a quality of at least `LASSM_MIN_QUAL`, in one of the reads it
counts. -/
theorem count_mers_read_backed :
    ((countMers merLen qualOffset lassmMinQual lassmMinHiQual lassmMaxCountMersReads maxReserve
        reads seqDepth lassmRatingThres).1 = .error "mers_ht.reserve failed" ↔
      maxReserve < reserveCapacity merLen lassmMaxCountMersReads reads) ∧
    ∀ mersHt, (countMers merLen qualOffset lassmMinQual lassmMinHiQual lassmMaxCountMersReads
        maxReserve reads seqDepth lassmRatingThres).1 = .ok mersHt →
      ∀ e ∈ mersHt, e.2.2 = 'F' ∨ e.2.2 = 'X' ∨ e.2.2 ∈ ['A', 'C', 'G', 'T'] ∧
        Voted merLen qualOffset lassmMinQual (reads.take lassmMaxCountMersReads) e.1 e.2.2 := by
  refine ⟨⟨fun h => Nat.lt_of_not_le fun hres => ?_, countMers_of_lt merLen qualOffset lassmMinQual
    lassmMinHiQual lassmMaxCountMersReads maxReserve reads seqDepth lassmRatingThres⟩,
    fun _ h _ he => countMers_sound h he⟩
  obtain ⟨mersHt, hok⟩ := countMers_ok merLen qualOffset lassmMinQual lassmMinHiQual
    lassmMaxCountMersReads maxReserve reads seqDepth lassmRatingThres hres
  rw [hok] at h
  cases h

end CountMers

end Mhm2Proxy.LocalAssm
