import Mhm2Proxy.MergeReads

/-! The loop of `merge_reads` over the records of its reads files: the checks on the ids of a
pair, the two reads each pair is written as, the numbering of the pairs by `read_id`, and the
check at the end that no two ranks numbered their pairs alike. A record is given as
`get_next_fq_record` returns it; `FastqReader` and the output files are outside the model. -/

namespace Mhm2Proxy.MergeReads

open Mhm2Proxy.PackedReads
open Mhm2Proxy.Istream (intToString longMax)

/-- A FASTQ record as `get_next_fq_record` returns it, and a read as `add_read` takes it: the
id, the sequence and the qualities. -/
structure FqRecord where
  id : List Char
  seq : List Char
  quals : List Char
  deriving DecidableEq, Repr

/-- `id.compare(0, id.length() - 2, ...)` compares the id less its last two characters; for an
id shorter than two the `size_t` count wraps, and `compare` takes the id whole. -/
def pairStem (id : List Char) : List Char :=
  if 2 ≤ id.length then id.take (id.length - 2) else id

/-- The two checks of `merge_reads` on the ids of a pair, with the texts of their `DIE`s. -/
def checkPairIds (id1 id2 : List Char) : Except Stop Unit :=
  if pairStem id1 ≠ pairStem id2 then
    .error (.die ("Mismatched pairs " ++ String.mk id1 ++ " " ++ String.mk id2))
  else if id1.getLast? ≠ some '1' ∨ id2.getLast? ≠ some '2' then
    .error (.die ("Mismatched pair numbers " ++ String.mk id1 ++ " " ++ String.mk id2))
  else .ok ()

/-- `"r" + to_string(read_id) + "/1"` and `"/2"`: the name `merge_reads` gives a read. -/
def readName (readId : Nat) (pair : Char) : List Char :=
  'r' :: intToString readId ++ ['/', pair]

/-- `to_string((char)qual_offset)`: the `char` is promoted to `int`, so the qualities of the `N`
written as the mate of a merged read are the decimal digits of `qual_offset`. -/
def mateQuals (qualOffset : Int) : List Char :=
  intToString (charValue (toChar qualOffset))

/-- The body of the paired loop of `merge_reads` for records `r1` and `r2`, numbered `readId`:
the id checks, the overlap test, and the two reads the pair is written as. A merged pair is
written as the merged read and an `N`; any other pair as its two reads, the first with the
qualities the overlap test left it. -/
def mergeRecords (qualOffset : Int) (readId : Nat) (r1 r2 : FqRecord) :
    Except Stop (FqRecord × FqRecord) :=
  (checkPairIds r1.id r2.id).bind fun _ =>
  match ContigsFile.revcomp r2.seq with
  | .error msg => .error (.die msg)
  | .ok rcSeq2 =>
      let p : PairCtx := ⟨qualOffset, String.mk r1.id, String.mk r2.id, r1.seq, rcSeq2⟩
      let len := min rcSeq2.length r1.seq.length
      let startI := if len = r1.seq.length then 0 else r1.seq.length - len
      (slideLoop p len startI (len + extraTestOverlap - minOverlap) 0
          ⟨-1, -1, false, r1.quals, r2.quals.reverse⟩).map fun s =>
        if s.bestI ≥ 0 ∧ s.abortMerge = false then
          let m := mergeAt p len startI s.bestI.toNat s.quals1 s.revQuals2
          (⟨readName readId '1', m.1, m.2⟩, ⟨readName readId '2', ['N'], mateQuals qualOffset⟩)
        else (⟨readName readId '1', r1.seq, s.quals1⟩, ⟨readName readId '2', r2.seq, r2.quals⟩)

/-- The loop over the records of a paired file from `read_id = readId`: two records a pair, the
next pair numbered two above. A last record without its mate ends the loop unwritten, as the
second `get_next_fq_record` returning `0` does. Returns the reads written and `read_id` after. -/
def mergePaired (qualOffset : Int) : Nat → List FqRecord → Except Stop (List FqRecord × Nat)
  | readId, r1 :: r2 :: rs =>
      (mergeRecords qualOffset readId r1 r2).bind fun o =>
        (mergePaired qualOffset (readId + 2) rs).map fun out => (o.1 :: o.2 :: out.1, out.2)
  | readId, _ => .ok ([], readId)

/-- The loop over the records of an unpaired file: each record is written as the first read of
a pair whose second is an `N`. -/
def mergeUnpaired (qualOffset : Int) : Nat → List FqRecord → List FqRecord × Nat
  | readId, [] => ([], readId)
  | readId, r :: rs =>
      let out := mergeUnpaired qualOffset (readId + 2) rs
      (⟨readName readId '1', r.seq, r.quals⟩ ::
        ⟨readName readId '2', ['N'], mateQuals qualOffset⟩ :: out.1, out.2)

/-- A reads file as `FastqReader` gives it: whether it holds pairs, and its records in order. -/
structure ReadsFile where
  paired : Bool
  records : List FqRecord

/-- The loop of `merge_reads` over its files from `read_id = readId`: the reads written to each
file's `PackedReads`, and `read_id` after the last file. -/
def mergeFiles (qualOffset : Int) : Nat → List ReadsFile → Except Stop (List (List FqRecord) × Nat)
  | readId, [] => .ok ([], readId)
  | readId, f :: fs =>
      (if f.paired then mergePaired qualOffset readId f.records
        else .ok (mergeUnpaired qualOffset readId f.records)).bind fun out =>
      (mergeFiles qualOffset out.2 fs).map fun rest => (out.1 :: rest.1, rest.2)

section Resets

variable {p : PairCtx}

/-- A property of the two quality strings that each write of the overlap test keeps. -/
structure KeptByResets (p : PairCtx) (P : List Char → List Char → Prop) : Prop where
  reset1 : ∀ q1 q2 k, P q1 q2 → stringAt p.seq1 k = 'N' → P (q1.set k (toChar p.qualOffset)) q2
  reset2 : ∀ q1 q2 j, P q1 q2 → stringAt p.rcSeq2 j = 'N' → P q1 (q2.set j (toChar p.qualOffset))

theorem except_map_eq_ok {ε α β : Type} {x : Except ε α} {f : α → β} {b : β}
    (h : x.map f = .ok b) : ∃ a, x = .ok a ∧ f a = b := by
  cases x with
  | error e => cases h
  | ok a => exact ⟨a, rfl, Except.ok.inj h⟩

theorem except_bind_eq_ok {ε α β : Type} {x : Except ε α} {f : α → Except ε β} {b : β}
    (h : x.bind f = .ok b) : ∃ a, x = .ok a ∧ f a = .ok b := by
  cases x with
  | error e => cases h
  | ok a => exact ⟨a, rfl, h⟩

theorem qualityPerror_quals {k j : Nat} {c c' : Compare} (h : qualityPerror p k j c = .ok c') :
    c'.quals1 = c.quals1 ∧ c'.revQuals2 = c.revQuals2 := by
  unfold qualityPerror at h
  dsimp only at h
  split_ifs at h <;> first
    | (obtain ⟨e, -, rfl⟩ := except_map_eq_ok h; exact ⟨rfl, rfl⟩)
    | (cases h; exact ⟨rfl, rfl⟩)

variable {P : List Char → List Char → Prop} (hP : KeptByResets p P)
include hP

theorem nPerror_kept {k j : Nat} {c c' : Compare}
    (h : nPerror p (stringAt p.seq1 k) (stringAt p.rcSeq2 j) k j c = .ok c')
    (hc : P c.quals1 c.revQuals2) : P c'.quals1 c'.revQuals2 := by
  unfold nPerror at h
  by_cases h1 : stringAt p.seq1 k = 'N'
  · rw [if_pos h1] at h
    obtain ⟨e, -, rfl⟩ := except_map_eq_ok h
    exact hP.reset1 _ _ k hc h1
  · rw [if_neg h1] at h
    by_cases h2 : stringAt p.rcSeq2 j = 'N'
    · rw [if_pos h2] at h
      obtain ⟨e, -, rfl⟩ := except_map_eq_ok h
      exact hP.reset2 _ _ j hc h2
    · rw [if_neg h2] at h
      cases h
      exact hc

theorem comparePos_kept (e : Nat) {k j : Nat} {c : Compare} {r : Compare × Bool}
    (h : comparePos p e (stringAt p.seq1 k) (stringAt p.rcSeq2 j) k j c = .ok r)
    (hc : P c.quals1 c.revQuals2) : P r.1.quals1 r.1.revQuals2 := by
  unfold comparePos at h
  by_cases heq : stringAt p.seq1 k = stringAt p.rcSeq2 j
  · rw [if_pos heq] at h
    dsimp only at h
    split_ifs at h <;> cases h <;> simpa using hc
  · rw [if_neg heq] at h
    obtain ⟨c', hm, rfl⟩ := except_map_eq_ok h
    obtain ⟨c1, hn, hq⟩ := except_bind_eq_ok hm
    have h1 := nPerror_kept hP hn hc
    obtain ⟨hq1, hq2⟩ := qualityPerror_quals hq
    simpa [hq1, hq2] using h1

theorem compareLoop_kept (base e : Nat) :
    ∀ (n j : Nat) (c c' : Compare), compareLoop p base e n j c = .ok c' →
      P c.quals1 c.revQuals2 → P c'.quals1 c'.revQuals2
  | 0, _, c, c', h, hc => by cases h; exact hc
  | n + 1, j, c, c', h, hc => by
      rw [compareLoop] at h
      obtain ⟨⟨c1, b⟩, h1, h2⟩ := except_bind_eq_ok h
      have hk := comparePos_kept hP e h1 hc
      cases b
      · exact compareLoop_kept base e n (j + 1) c1 c' h2 hk
      · cases h2; exact hk

theorem slideStep_kept {len startI i : Nat} {s : Slide} {r : Slide × Bool}
    (h : slideStep p len startI i s = .ok r) (hs : P s.quals1 s.revQuals2) :
    P r.1.quals1 r.1.revQuals2 := by
  unfold slideStep at h
  dsimp only at h
  split at h
  · cases h; exact hs
  · obtain ⟨c, hc, rfl⟩ := except_map_eq_ok h
    exact compareLoop_kept hP _ _ _ 0 _ c hc hs

theorem slideLoop_kept {len startI : Nat} :
    ∀ (n i : Nat) (s s' : Slide), slideLoop p len startI n i s = .ok s' →
      P s.quals1 s.revQuals2 → P s'.quals1 s'.revQuals2
  | 0, _, s, s', h, hs => by cases h; exact hs
  | n + 1, i, s, s', h, hs => by
      rw [slideLoop] at h
      split at h
      · cases h; exact hs
      · obtain ⟨⟨s1, b⟩, h1, h2⟩ := except_bind_eq_ok h
        have hk := slideStep_kept hP h1 hs
        cases b
        · cases h2; exact hk
        · exact slideLoop_kept n (i + 1) s1 s' h2 hk

end Resets

section Merge

theorem stringAt_set (s : List Char) (k k' : Nat) (c : Char) :
    stringAt (s.set k c) k' = if k = k' ∧ k < s.length then c else stringAt s k' := by
  unfold stringAt
  rw [List.getD_eq_getElem?_getD, List.getD_eq_getElem?_getD, List.getElem?_set]
  by_cases h : k = k'
  · subst h
    by_cases hk : k < s.length
    · simp [hk]
    · rw [if_pos rfl, if_neg hk, if_neg (fun h' => hk h'.2), List.getElem?_eq_none (by omega)]
  · simp [h]

theorem stringAt_drop (s : List Char) (b j : Nat) : stringAt (s.drop b) j = stringAt s (b + j) := by
  unfold stringAt
  rw [List.getD_eq_getElem?_getD, List.getD_eq_getElem?_getD, List.getElem?_drop]

theorem foldl_range_induct {β : Type} (f : β → Nat → β) (P : Nat → β → Prop) {b : β}
    (h0 : P 0 b) : ∀ {n : Nat}, (∀ t b, t < n → P t b → P (t + 1) (f b t)) →
      P n ((List.range n).foldl f b)
  | 0, _ => h0
  | n + 1, hs => by
      rw [List.range_succ, List.foldl_append, List.foldl_cons, List.foldl_nil]
      exact hs n _ (Nat.lt_succ_self n)
        (foldl_range_induct f P h0 fun t b ht => hs t b (Nat.lt_succ_of_lt ht))

variable {qualOffset : Int} {rcSeq2 revQuals2 : List Char} {k j : Nat}

theorem mergePos_fst (sq : List Char × List Char) :
    (mergePos qualOffset rcSeq2 revQuals2 k j sq).1 = sq.1 ∨
      (mergePos qualOffset rcSeq2 revQuals2 k j sq).1 = sq.1.set k (stringAt rcSeq2 j) := by
  unfold mergePos
  dsimp only
  split
  · exact .inl rfl
  · split
    · exact .inr rfl
    · exact .inl rfl

theorem validQual_toChar_ite {c : Prop} [Decidable c] {a b : Int} (hoff : 0 ≤ qualOffset)
    (ha : c → qualOffset ≤ a ∧ a ≤ qualOffset + 80 ∧ a < 128)
    (hb : ¬c → qualOffset ≤ b ∧ b ≤ qualOffset + 80 ∧ b < 128) :
    ValidQual qualOffset (toChar (if c then a else b)) := by
  split
  · next h => obtain ⟨h0, h1, h2⟩ := ha h; rw [ValidQual, charValue_toChar (by omega) h2]; omega
  · next h => obtain ⟨h0, h1, h2⟩ := hb h; rw [ValidQual, charValue_toChar (by omega) h2]; omega

theorem mergePos_snd (hoff : 0 ≤ qualOffset ∧ qualOffset ≤ 86) {sq : List Char × List Char}
    (h1 : ValidQual qualOffset (stringAt sq.2 k))
    (h2 : ValidQual qualOffset (stringAt revQuals2 j)) :
    ∃ c, ValidQual qualOffset c ∧
      (mergePos qualOffset rcSeq2 revQuals2 k j sq).2 = sq.2.set k c := by
  have b1 := charValue_le (stringAt sq.2 k)
  have b2 := charValue_le (stringAt revQuals2 j)
  have hmax : maxMatchQual qualOffset = 41 + qualOffset := Int.emod_eq_of_lt (by omega) (by omega)
  unfold mergePos ValidQual at *
  generalize charValue (stringAt sq.2 k) = q1 at *
  generalize charValue (stringAt revQuals2 j) = q2 at *
  dsimp only
  by_cases heq : stringAt sq.1 k = stringAt rcSeq2 j
  · rw [if_pos heq, Int.emod_eq_of_lt (by omega) (by omega), hmax]
    exact ⟨_, validQual_toChar_ite hoff.1 (fun _ => by omega) (fun _ => by omega), rfl⟩
  · have hd : qualOffset ≤ (if q1 < q2 then q2 - q1 + qualOffset else q1 - q2 + qualOffset) ∧
        (if q1 < q2 then q2 - q1 + qualOffset else q1 - q2 + qualOffset) ≤ qualOffset + 80 := by
      split <;> omega
    rw [if_neg heq, Int.emod_eq_of_lt (by omega) (by omega)]
    exact ⟨_, validQual_toChar_ite hoff.1 (fun _ => by omega) (fun _ => by omega), rfl⟩

theorem length_mergePos_fst (sq : List Char × List Char) :
    (mergePos qualOffset rcSeq2 revQuals2 k j sq).1.length = sq.1.length := by
  rcases @mergePos_fst qualOffset rcSeq2 revQuals2 k j sq with h | h <;> rw [h]
  exact List.length_set _ _ _

theorem getElem?_eq_of_stringAt {a b : List Char} {n : Nat} (hl : a.length = b.length)
    (h : stringAt a n = stringAt b n) : a[n]? = b[n]? := by
  by_cases hn : n < a.length
  · rw [List.getElem?_eq_getElem hn, List.getElem?_eq_getElem (hl ▸ hn), ← stringAt_eq_getElem hn,
      ← stringAt_eq_getElem (hl ▸ hn), h]
  · rw [List.getElem?_eq_none (by omega), List.getElem?_eq_none (by omega)]

variable {p : PairCtx} {len startI i : Nat}

theorem mergeAt_quals (hoff : 0 ≤ p.qualOffset ∧ p.qualOffset ≤ 86)
    (hlen : startI + len ≤ p.seq1.length) (hrc : len ≤ p.rcSeq2.length)
    {quals1 revQuals2 : List Char}
    (hq : QualsOk p p.seq1.length p.rcSeq2.length quals1 revQuals2) :
    (mergeAt p len startI i quals1 revQuals2).2.length =
        (mergeAt p len startI i quals1 revQuals2).1.length ∧
      ∀ c ∈ (mergeAt p len startI i quals1 revQuals2).2, ValidQual p.qualOffset c := by
  have hfold := foldl_range_induct
    (fun sq j => mergePos p.qualOffset p.rcSeq2 revQuals2 (startI + i + j) j sq)
    (fun _ sq => sq.1.length = p.seq1.length ∧ QualsValid p.qualOffset p.seq1.length sq.2)
    (b := (p.seq1, quals1)) ⟨rfl, hq.1⟩ (n := len - i) fun t sq ht ⟨h1, h2⟩ => by
      obtain ⟨c, hc, hsnd⟩ := @mergePos_snd p.qualOffset p.rcSeq2 revQuals2 (startI + i + t) t hoff
        sq (h2.validQual_stringAt (by omega)) (hq.2.validQual_stringAt (by omega))
      exact ⟨(length_mergePos_fst sq).trans h1, hsnd ▸ h2.set hc _⟩
  obtain ⟨h1, h2⟩ := hfold
  unfold mergeAt
  dsimp only
  refine ⟨?_, fun c hc => ?_⟩
  · simp only [List.length_append, List.length_take, List.length_drop, h1, h2.1, hq.2.1]
  · rcases List.mem_append.1 hc with hc | hc
    · exact h2.2 c (List.mem_of_mem_take hc)
    · exact hq.2.2 c (List.mem_of_mem_drop hc)

theorem mergeAt_fst (hlen : startI + len = p.seq1.length) (hi : i ≤ len)
    (quals1 revQuals2 : List Char) :
    ∃ mid, (mergeAt p len startI i quals1 revQuals2).1 =
        p.seq1.take (startI + i) ++ mid ++ p.rcSeq2.drop (len - i) ∧ mid.length = len - i ∧
      ∀ j < len - i, stringAt mid j = stringAt p.seq1 (startI + i + j) ∨
        stringAt mid j = stringAt p.rcSeq2 j := by
  have hfold := foldl_range_induct
    (fun sq j => mergePos p.qualOffset p.rcSeq2 revQuals2 (startI + i + j) j sq)
    (fun _ sq => sq.1.length = p.seq1.length ∧ ∀ k', stringAt sq.1 k' = stringAt p.seq1 k' ∨
      (startI + i ≤ k' ∧ stringAt sq.1 k' = stringAt p.rcSeq2 (k' - (startI + i))))
    (b := (p.seq1, quals1)) ⟨rfl, fun _ => .inl rfl⟩ (n := len - i) fun t sq _ ⟨h1, h2⟩ => by
      refine ⟨(length_mergePos_fst sq).trans h1, fun k' => ?_⟩
      rcases @mergePos_fst p.qualOffset p.rcSeq2 revQuals2 (startI + i + t) t sq with h | h <;>
        rw [h]
      · exact h2 k'
      · rw [stringAt_set]
        split_ifs with hk
        · exact .inr ⟨by omega, by rw [show k' - (startI + i) = t by omega]⟩
        · exact h2 k'
  obtain ⟨h1, h2⟩ := hfold
  unfold mergeAt
  dsimp only
  generalize (List.range (len - i)).foldl _ _ = sq at h1 h2 ⊢
  have htake : sq.1.take (startI + i) = p.seq1.take (startI + i) :=
    List.ext_getElem? fun n => by
      rw [List.getElem?_take, List.getElem?_take]
      split_ifs with hn
      · exact getElem?_eq_of_stringAt h1 ((h2 n).resolve_right fun h => by omega)
      · rfl
  refine ⟨sq.1.drop (startI + i), ?_, by rw [List.length_drop]; omega, fun j _ => ?_⟩
  · rw [show startI + i + (len - i) = sq.1.length by omega, List.take_length, ← htake,
      List.take_append_drop]
  · rw [stringAt_drop]
    rcases h2 (startI + i + j) with h | ⟨-, h⟩
    · exact .inl h
    · exact .inr (by rw [h, Nat.add_sub_cancel_left])

end Merge

section Outcome

/-- `q` is `quals` with the quality of some of the `N`s of `seq` set to `qual_offset`, and no
other change. -/
def NResets (qualOffset : Int) (seq quals q : List Char) : Prop :=
  q.length = quals.length ∧
    ∀ k, stringAt q k = stringAt quals k ∨ (stringAt seq k = 'N' ∧ stringAt q k = toChar qualOffset)

variable {p : PairCtx}

theorem keptByResets_qualsOk (hoff : 0 ≤ p.qualOffset ∧ p.qualOffset < 128) (n1 n2 : Nat) :
    KeptByResets p (QualsOk p n1 n2) :=
  ⟨fun _ _ k h _ => ⟨h.1.set (validQual_toChar hoff.1 hoff.2) k, h.2⟩,
    fun _ _ j h _ => ⟨h.1, h.2.set (validQual_toChar hoff.1 hoff.2) j⟩⟩

theorem keptByResets_nResets (quals : List Char) :
    KeptByResets p fun q1 _ => NResets p.qualOffset p.seq1 quals q1 := by
  refine ⟨fun q1 _ k h hN => ⟨(List.length_set _ _ _).trans h.1, fun k' => ?_⟩, fun _ _ _ h _ => h⟩
  rw [stringAt_set]
  split_ifs with hk
  · exact .inr ⟨hk.1 ▸ hN, rfl⟩
  · exact h.2 k'

theorem verdict_fst (overlap thisMaxMismatch errorMaxMismatch i : Nat) (bestI foundI : Int)
    (c : Compare) :
    (verdict overlap thisMaxMismatch errorMaxMismatch i bestI foundI c).1 = i ∨
      (verdict overlap thisMaxMismatch errorMaxMismatch i bestI foundI c).1 = -1 ∨
      (verdict overlap thisMaxMismatch errorMaxMismatch i bestI foundI c).1 = bestI := by
  unfold verdict
  dsimp only
  split
  · split
    · exact .inl rfl
    · exact .inr (.inl rfl)
  · split
    · split
      · exact .inr (.inl rfl)
      · exact .inr (.inr rfl)
    · exact .inr (.inr rfl)

variable {len startI : Nat}

theorem slideStep_bestI {i : Nat} {s : Slide} {r : Slide × Bool}
    (h : slideStep p len startI i s = .ok r) :
    r.1.bestI = i ∨ r.1.bestI = -1 ∨ r.1.bestI = s.bestI := by
  unfold slideStep at h
  dsimp only at h
  split at h
  · cases h; exact .inr (.inr rfl)
  · obtain ⟨c, -, rfl⟩ := except_map_eq_ok h
    exact verdict_fst _ _ _ _ _ _ _

theorem slideLoop_bestI :
    ∀ (n i : Nat) (s s' : Slide), slideLoop p len startI n i s = .ok s' →
      i + n ≤ len + extraTestOverlap - minOverlap → s.bestI < len → s'.bestI < len
  | 0, _, s, s', h, _, hs => by cases h; exact hs
  | n + 1, i, s, s', h, hn, hs => by
      unfold extraTestOverlap minOverlap at hn
      rw [slideLoop] at h
      split at h
      · cases h; exact hs
      · obtain ⟨⟨s1, b⟩, h1, h2⟩ := except_bind_eq_ok h
        have hb : s1.bestI < len := by
          rcases slideStep_bestI h1 with h | h | h <;> rw [h] <;> omega
        cases b
        · cases h2; exact hb
        · exact slideLoop_bestI n (i + 1) s1 s' h2 (by unfold extraTestOverlap minOverlap; omega) hb

variable {qualOffset : Int} {readId : Nat} {r1 r2 : FqRecord} {o : FqRecord × FqRecord}

/-- What `mergeRecords` returns when it returns. -/
theorem mergeRecords_eq_ok (h : mergeRecords qualOffset readId r1 r2 = .ok o) :
    checkPairIds r1.id r2.id = .ok () ∧ ∃ rcSeq2, ContigsFile.revcomp r2.seq = .ok rcSeq2 ∧
      ∃ s, slideLoop ⟨qualOffset, String.mk r1.id, String.mk r2.id, r1.seq, rcSeq2⟩
          (min rcSeq2.length r1.seq.length)
          (if min rcSeq2.length r1.seq.length = r1.seq.length then 0
            else r1.seq.length - min rcSeq2.length r1.seq.length)
          (min rcSeq2.length r1.seq.length + extraTestOverlap - minOverlap) 0
          ⟨-1, -1, false, r1.quals, r2.quals.reverse⟩ = .ok s ∧
        o = if s.bestI ≥ 0 ∧ s.abortMerge = false then
          let m := mergeAt ⟨qualOffset, String.mk r1.id, String.mk r2.id, r1.seq, rcSeq2⟩
            (min rcSeq2.length r1.seq.length)
            (if min rcSeq2.length r1.seq.length = r1.seq.length then 0
              else r1.seq.length - min rcSeq2.length r1.seq.length)
            s.bestI.toNat s.quals1 s.revQuals2
          (⟨readName readId '1', m.1, m.2⟩, ⟨readName readId '2', ['N'], mateQuals qualOffset⟩)
        else
          (⟨readName readId '1', r1.seq, s.quals1⟩, ⟨readName readId '2', r2.seq, r2.quals⟩) := by
  unfold mergeRecords at h
  obtain ⟨⟨⟩, hc, h⟩ := except_bind_eq_ok h
  refine ⟨hc, ?_⟩
  split at h
  · cases h
  · next rcSeq2 hrc =>
    obtain ⟨s, hs, rfl⟩ := except_map_eq_ok h
    exact ⟨rcSeq2, hrc, s, hs, rfl⟩

theorem mergeRecords_ids (h : mergeRecords qualOffset readId r1 r2 = .ok o) :
    o.1.id = readName readId '1' ∧ o.2.id = readName readId '2' := by
  obtain ⟨-, _, -, s, -, rfl⟩ := mergeRecords_eq_ok h
  split <;> exact ⟨rfl, rfl⟩

/-- A pair whose ids pass the checks, whose second read `revcomp` accepts, and whose qualities
are as long as its reads and all within `Q2Perror`, goes through `merge_reads` without a `DIE`;
the first read it is written as has qualities as long as its bases and all in range, so the
`assert` after each merged position holds. The reads are shorter than `2 ^ 15`, so that the
`int16_t` `len` and `start_i` hold their values. -/
theorem merge_records_ok (hoff : 0 ≤ qualOffset ∧ qualOffset ≤ 86) (readId : Nat)
    (hids : checkPairIds r1.id r2.id = .ok ()) {rcSeq2 : List Char}
    (hrc : ContigsFile.revcomp r2.seq = .ok rcSeq2) (hlen1 : r1.seq.length < 2 ^ 15)
    (hlen2 : r2.seq.length < 2 ^ 15)
    (hq1 : r1.quals.length = r1.seq.length) (hq2 : r2.quals.length = r2.seq.length)
    (hv1 : ∀ c ∈ r1.quals, ValidQual qualOffset c) (hv2 : ∀ c ∈ r2.quals, ValidQual qualOffset c) :
    ∃ o, mergeRecords qualOffset readId r1 r2 = .ok o ∧ o.1.quals.length = o.1.seq.length ∧
      ∀ c ∈ o.1.quals, ValidQual qualOffset c := by
  let p : PairCtx := ⟨qualOffset, String.mk r1.id, String.mk r2.id, r1.seq, rcSeq2⟩
  have hrclen := ContigsFile.length_of_revcomp_eq_ok hrc
  have hstart : (if min rcSeq2.length r1.seq.length = r1.seq.length then 0
      else r1.seq.length - min rcSeq2.length r1.seq.length) + min rcSeq2.length r1.seq.length =
        r1.seq.length := by
    split <;> omega
  have hq0 : QualsOk p r1.seq.length rcSeq2.length r1.quals r2.quals.reverse :=
    ⟨⟨hq1, hv1⟩,
      ⟨by rw [List.length_reverse, hq2, hrclen], fun c hc => hv2 c (List.mem_reverse.1 hc)⟩⟩
  have hoff' : 0 ≤ p.qualOffset ∧ p.qualOffset < 128 := ⟨hoff.1, by show qualOffset < 128; omega⟩
  obtain ⟨s, hs⟩ := overlapTest_ok qualOffset (String.mk r1.id) (String.mk r2.id) hoff' hrc hq1 hq2
    hv1 hv2
  rw [overlapTest, hrc] at hs
  dsimp only at hs
  obtain ⟨o, ho⟩ : ∃ o, mergeRecords qualOffset readId r1 r2 = .ok o := by
    rw [mergeRecords, hids]; dsimp only [Except.bind]; rw [hrc]; dsimp only; rw [hs]; exact ⟨_, rfl⟩
  refine ⟨o, ho, ?_⟩
  obtain ⟨-, rc, hrc', s', hs', rfl⟩ := mergeRecords_eq_ok ho
  obtain rfl : rc = rcSeq2 := Except.ok.inj (hrc'.symm.trans hrc)
  have hq := slideLoop_kept (keptByResets_qualsOk hoff' _ _) _ _ _ _ hs' hq0
  split
  · exact mergeAt_quals hoff hstart.le (Nat.min_le_left _ _) hq
  · exact hq.1

/-- Reads of 16 bases overlapping by 14, the first with an `N` where the second has a `G`. -/
theorem merge_records_ok_overlap :
    (0 ≤ (33 : Int) ∧ (33 : Int) ≤ 86) ∧ checkPairIds ['a', '/', '1'] ['a', '/', '2'] = .ok () ∧
      ContigsFile.revcomp "AAGGTCACTGCAACGT".toList = .ok "ACGTTGCAGTGACCTT".toList ∧
      "GGACGTTGCANTGACC".toList.length < 2 ^ 15 ∧ "AAGGTCACTGCAACGT".toList.length < 2 ^ 15 ∧
      (∀ c ∈ List.replicate 16 'I', ValidQual 33 c) ∧
      ∃ o, mergeRecords 33 0 ⟨['a', '/', '1'], "GGACGTTGCANTGACC".toList, List.replicate 16 'I'⟩
          ⟨['a', '/', '2'], "AAGGTCACTGCAACGT".toList, List.replicate 16 'I'⟩ = .ok o ∧
        o.1.quals.length = o.1.seq.length ∧ ∀ c ∈ o.1.quals, ValidQual 33 c :=
  have hv : ∀ c ∈ List.replicate 16 'I', ValidQual 33 c := by decide
  ⟨by decide, rfl, rfl, by decide, by decide, hv,
    merge_records_ok (by decide) 0 rfl rfl (by decide) (by decide) rfl rfl hv hv⟩

end Outcome

section Numbering

/-- Modelled from the intent: the names of the reads of `n` pairs numbered two apart from
`readId`. -/
def pairNames (readId n : Nat) : List (List Char) :=
  (List.range' readId n 2).flatMap fun x => [readName x '1', readName x '2']

/-- Modelled from the intent: the pairs of records of a paired file, in order. -/
def recordPairs : List FqRecord → List (FqRecord × FqRecord)
  | r1 :: r2 :: rs => (r1, r2) :: recordPairs rs
  | _ => []

/-- Modelled from the intent: the pairs a file holds, a record of an unpaired file standing for
a pair. -/
def numPairs (f : ReadsFile) : Nat := if f.paired then f.records.length / 2 else f.records.length

/-- Modelled from the intent: the pairs the files hold. -/
def totalPairs (fs : List ReadsFile) : Nat := (fs.map numPairs).sum

theorem pairNames_succ (readId n : Nat) :
    pairNames readId (n + 1) =
      readName readId '1' :: readName readId '2' :: pairNames (readId + 2) n := by
  rw [pairNames, List.range'_succ, List.flatMap_cons]
  rfl

theorem pairNames_add (readId m n : Nat) :
    pairNames readId (m + n) = pairNames readId m ++ pairNames (readId + 2 * m) n := by
  rw [pairNames, pairNames, pairNames, Nat.add_comm m n, ← List.range'_append, List.flatMap_append]

variable {qualOffset : Int}

theorem mergePaired_eq_ok :
    ∀ (readId : Nat) (recs : List FqRecord) {out : List FqRecord} {next : Nat},
    mergePaired qualOffset readId recs = .ok (out, next) →
      next = readId + 2 * (recs.length / 2) ∧
        out.map FqRecord.id = pairNames readId (recs.length / 2) ∧
        ∀ pr ∈ recordPairs recs, checkPairIds pr.1.id pr.2.id = .ok ()
  | readId, [], _, _, h => by cases h; exact ⟨rfl, rfl, fun _ h => absurd h (List.not_mem_nil _)⟩
  | readId, [_], _, _, h => by
      cases h; exact ⟨by simp, by simp [pairNames], fun _ h => absurd h (List.not_mem_nil _)⟩
  | readId, r1 :: r2 :: rs, out, next, h => by
      rw [mergePaired] at h
      obtain ⟨o, ho, h⟩ := except_bind_eq_ok h
      obtain ⟨⟨out', next'⟩, hrest, he⟩ := except_map_eq_ok h
      cases he
      obtain ⟨hnext, hnames, hids⟩ := mergePaired_eq_ok (readId + 2) rs hrest
      obtain ⟨hid1, hid2⟩ := mergeRecords_ids ho
      have hlen : (r1 :: r2 :: rs).length / 2 = rs.length / 2 + 1 := by
        simp only [List.length_cons]; omega
      refine ⟨by rw [hnext, hlen]; omega, ?_, ?_⟩
      · rw [hlen, pairNames_succ, List.map_cons, List.map_cons, hid1, hid2, hnames]
      · intro pr hpr
        rcases List.mem_cons.1 hpr with rfl | hpr
        · exact (mergeRecords_eq_ok ho).1
        · exact hids pr hpr

theorem mergeUnpaired_eq : ∀ (readId : Nat) (recs : List FqRecord),
    (mergeUnpaired qualOffset readId recs).2 = readId + 2 * recs.length ∧
      (mergeUnpaired qualOffset readId recs).1.map FqRecord.id = pairNames readId recs.length
  | readId, [] => ⟨rfl, rfl⟩
  | readId, r :: rs => by
      obtain ⟨hnext, hnames⟩ := mergeUnpaired_eq (readId + 2) rs
      refine ⟨by rw [mergeUnpaired, hnext, List.length_cons]; omega, ?_⟩
      rw [mergeUnpaired, List.map_cons, List.map_cons, hnames, List.length_cons, pairNames_succ]

/-- A rank's run of `merge_reads` over its files, from `read_id = readId`: each file gets its own
reads; the pairs, counted through all the files, are numbered two apart from `readId`, each
pair's two reads named `/1` and `/2` under its number; `read_id` ends two per pair above
`readId`; and every pair written passed both id checks. A last record without its mate in a
paired file is not written. -/
theorem merge_files_numbering : ∀ (readId : Nat) (fs : List ReadsFile)
    {outs : List (List FqRecord)} {next : Nat}, mergeFiles qualOffset readId fs = .ok (outs, next) →
      outs.length = fs.length ∧ next = readId + 2 * totalPairs fs ∧
      outs.flatten.map FqRecord.id = pairNames readId (totalPairs fs) ∧
      ∀ f ∈ fs, f.paired → ∀ pr ∈ recordPairs f.records, checkPairIds pr.1.id pr.2.id = .ok ()
  | readId, [], _, _, h => by
      cases h; exact ⟨rfl, rfl, rfl, fun _ h => absurd h (List.not_mem_nil _)⟩
  | readId, f :: fs, outs, next, h => by
      rw [mergeFiles] at h
      obtain ⟨⟨out, mid⟩, hf, h⟩ := except_bind_eq_ok h
      obtain ⟨⟨outs', next'⟩, hrest, he⟩ := except_map_eq_ok h
      cases he
      obtain ⟨hlen, hnext, hnames, hids⟩ := merge_files_numbering mid fs hrest
      have hfile : mid = readId + 2 * numPairs f ∧
          out.map FqRecord.id = pairNames readId (numPairs f) ∧
          (f.paired → ∀ pr ∈ recordPairs f.records, checkPairIds pr.1.id pr.2.id = .ok ()) := by
        unfold numPairs
        cases hp : f.paired
        · rw [hp, if_neg Bool.false_ne_true] at hf
          rw [if_neg Bool.false_ne_true]
          obtain ⟨h1, h2⟩ := @mergeUnpaired_eq qualOffset readId f.records
          rw [Except.ok.inj hf] at h1 h2
          exact ⟨h1, h2, fun h => absurd h Bool.false_ne_true⟩
        · rw [hp, if_pos rfl] at hf
          rw [if_pos rfl]
          obtain ⟨h1, h2, h3⟩ := mergePaired_eq_ok readId f.records hf
          exact ⟨h1, h2, fun _ => h3⟩
      obtain ⟨hmid, hout, hfids⟩ := hfile
      have htotal : totalPairs (f :: fs) = numPairs f + totalPairs fs := by
        simp only [totalPairs, List.map_cons, List.sum_cons]
      refine ⟨by rw [List.length_cons, List.length_cons, hlen], by rw [hnext, hmid, htotal]; omega,
        ?_, ?_⟩
      · rw [List.flatten_cons, List.map_append, hout, hnames, hmid, htotal, pairNames_add]
      · intro g hg
        rcases List.mem_cons.1 hg with rfl | hg
        · exact hfids
        · exact hids g hg

theorem merge_files_numbering_two_files :
    mergeFiles 33 6 [⟨false, [⟨['u'], ['A', 'C'], ['I', 'I']⟩]⟩,
        ⟨true, [⟨['a', '/', '1'], ['A', 'A', 'C', 'G'], ['I', 'I', 'I', 'I']⟩,
          ⟨['a', '/', '2'], ['A', 'C', 'G', 'T'], ['I', 'I', 'I', 'I']⟩,
          ⟨['b', '/', '1'], ['A'], ['I']⟩]⟩] =
      .ok ([[⟨readName 6 '1', ['A', 'C'], ['I', 'I']⟩, ⟨readName 6 '2', ['N'], mateQuals 33⟩],
        [⟨readName 8 '1', ['A', 'A', 'C', 'G'], ['I', 'I', 'I', 'I']⟩,
          ⟨readName 8 '2', ['A', 'C', 'G', 'T'], ['I', 'I', 'I', 'I']⟩]], 10) ∧
    ([[⟨readName 6 '1', ['A', 'C'], ['I', 'I']⟩, ⟨readName 6 '2', ['N'], mateQuals 33⟩],
        [⟨readName 8 '1', ['A', 'A', 'C', 'G'], ['I', 'I', 'I', 'I']⟩,
          ⟨readName 8 '2', ['A', 'C', 'G', 'T'], ['I', 'I', 'I', 'I']⟩]] :
        List (List FqRecord)).length =
        ([⟨false, [⟨['u'], ['A', 'C'], ['I', 'I']⟩]⟩,
          ⟨true, [⟨['a', '/', '1'], ['A', 'A', 'C', 'G'], ['I', 'I', 'I', 'I']⟩,
            ⟨['a', '/', '2'], ['A', 'C', 'G', 'T'], ['I', 'I', 'I', 'I']⟩,
            ⟨['b', '/', '1'], ['A'], ['I']⟩]⟩] :
          List ReadsFile).length ∧
      10 = 6 + 2 * totalPairs [⟨false, [⟨['u'], ['A', 'C'], ['I', 'I']⟩]⟩,
        ⟨true, [⟨['a', '/', '1'], ['A', 'A', 'C', 'G'], ['I', 'I', 'I', 'I']⟩,
          ⟨['a', '/', '2'], ['A', 'C', 'G', 'T'], ['I', 'I', 'I', 'I']⟩,
          ⟨['b', '/', '1'], ['A'], ['I']⟩]⟩] ∧
      ([[⟨readName 6 '1', ['A', 'C'], ['I', 'I']⟩, ⟨readName 6 '2', ['N'], mateQuals 33⟩],
        [⟨readName 8 '1', ['A', 'A', 'C', 'G'], ['I', 'I', 'I', 'I']⟩,
          ⟨readName 8 '2', ['A', 'C', 'G', 'T'], ['I', 'I', 'I', 'I']⟩]] :
            List (List FqRecord)).flatten.map FqRecord.id =
        pairNames 6 (totalPairs [⟨false, [⟨['u'], ['A', 'C'], ['I', 'I']⟩]⟩,
        ⟨true, [⟨['a', '/', '1'], ['A', 'A', 'C', 'G'], ['I', 'I', 'I', 'I']⟩,
          ⟨['a', '/', '2'], ['A', 'C', 'G', 'T'], ['I', 'I', 'I', 'I']⟩,
          ⟨['b', '/', '1'], ['A'], ['I']⟩]⟩]) ∧
      ∀ f ∈ [(⟨false, [⟨['u'], ['A', 'C'], ['I', 'I']⟩]⟩ : ReadsFile),
        ⟨true, [⟨['a', '/', '1'], ['A', 'A', 'C', 'G'], ['I', 'I', 'I', 'I']⟩,
          ⟨['a', '/', '2'], ['A', 'C', 'G', 'T'], ['I', 'I', 'I', 'I']⟩,
          ⟨['b', '/', '1'], ['A'], ['I']⟩]⟩],
        f.paired → ∀ pr ∈ recordPairs f.records, checkPairIds pr.1.id pr.2.id = .ok () :=
  ⟨rfl, by refine @merge_files_numbering 33 6 _ _ _ ?_; rfl⟩

end Numbering

section Ranks

/-- `rank_me() * (max_num_reads + 10000) * 3`: the first `read_id` of rank `rank`. -/
def startReadId (maxNumReads rank : Nat) : Nat := rank * (maxNumReads + 10000) * 3

/-- The two `rpc` checks between neighbouring ranks on their ranges `(start_read_id, read_id)`:
the upper rank `DIE`s unless the lower one's range lies below its start, and the lower rank
unless the upper one's lies above its end. -/
def neighbourRangesOk (lo hi : Nat × Nat) : Bool :=
  (lo.1 < hi.1 && lo.2 < hi.1) && (hi.1 > lo.2 && hi.2 > lo.2)

/-- Whether no rank `DIE`s in the check, `ranges` listing each rank's range in rank order. -/
def readIdRangesOk : List (Nat × Nat) → Bool
  | lo :: hi :: rest => neighbourRangesOk lo hi && readIdRangesOk (hi :: rest)
  | _ => true

theorem readIdRangesOk_map (g : Nat → Nat × Nat) : ∀ (n a : Nat),
    readIdRangesOk ((List.range' a n).map g) = true ↔
      ∀ r, a ≤ r → r + 1 < a + n → neighbourRangesOk (g r) (g (r + 1)) = true
  | 0, _ => ⟨fun _ _ _ h => absurd h (by omega), fun _ => rfl⟩
  | 1, _ => ⟨fun _ _ h1 h2 => absurd h2 (by omega), fun _ => rfl⟩
  | n + 2, a => by
      rw [List.range'_succ, List.range'_succ, List.map_cons, List.map_cons, readIdRangesOk,
        ← List.map_cons, ← List.range'_succ, Bool.and_eq_true, readIdRangesOk_map g (n + 1) (a + 1)]
      constructor
      · rintro ⟨h0, h⟩ r har hr
        rcases Nat.eq_or_lt_of_le har with rfl | har
        · exact h0
        · exact h r har (by omega)
      · intro h
        exact ⟨h a le_rfl (by omega), fun r har hr => h r (by omega) (by omega)⟩

theorem startReadId_succ (maxNumReads r : Nat) :
    startReadId maxNumReads (r + 1) = startReadId maxNumReads r + (maxNumReads + 10000) * 3 := by
  rw [startReadId, startReadId, Nat.succ_mul, Nat.add_mul]

theorem startReadId_mono (maxNumReads : Nat) {r r' : Nat} (h : r ≤ r') :
    startReadId maxNumReads r ≤ startReadId maxNumReads r' :=
  Nat.mul_le_mul_right _ (Nat.mul_le_mul_right _ h)

theorem neighbourRangesOk_iff (maxNumReads r a b : Nat) :
    neighbourRangesOk (startReadId maxNumReads r, startReadId maxNumReads r + 2 * a)
        (startReadId maxNumReads (r + 1), startReadId maxNumReads (r + 1) + 2 * b) = true ↔
      2 * a < 3 * (maxNumReads + 10000) := by
  rw [startReadId_succ]
  simp only [neighbourRangesOk, Bool.and_eq_true, decide_eq_true_eq]
  generalize startReadId maxNumReads r = x
  omega

theorem readIds_pairNames {readId n : Nat} (h : ((readId + 2 * n : Nat) : Int) ≤ longMax) :
    (pairNames readId n).map readIdOf =
      (List.range' readId n 2).flatMap fun x => [-((x : Int) + 1), (x : Int) + 1] := by
  rw [pairNames, List.map_flatMap]
  refine List.flatMap_congr fun x hx => ?_
  obtain ⟨i, hi, rfl⟩ := List.mem_range'.1 hx
  have hx : ((readId + 2 * i : Nat) : Int) ≤ longMax := le_trans (by omega) h
  simp only [List.map_cons, List.map_nil, readName, readIdOf_eq hx, if_true,
    if_neg (show ('2' : Char) ≠ '1' by decide)]

theorem nodup_flatMap_readIds {l : List Nat} (hl : l.Nodup) :
    (l.flatMap fun x => [-((x : Int) + 1), (x : Int) + 1]).Nodup := by
  refine List.nodup_flatMap.2 ⟨fun x _ => ?_, hl.imp fun {x y} hne => ?_⟩
  · simp only [List.nodup_cons, List.mem_singleton, List.not_mem_nil, not_false_eq_true,
      List.nodup_nil, and_true]
    omega
  · simp only [Function.onFun, List.disjoint_cons_left, List.mem_cons, List.mem_singleton,
      List.not_mem_nil, or_false, List.disjoint_nil_left, and_true]
    omega

/-- A whole run of `merge_reads` over `rankN` ranks, rank `r` numbering its pairs from its
`start_read_id` and ending at `read_id = stop r`. The check at the end passes exactly when every
rank but the last holds fewer than `3 * (max_num_reads + 10000) / 2` pairs. When it passes, and
every number fits in a `long`, no two reads of the whole run get the same `PackedRead` id. -/
theorem merge_reads_ids_distinct (qualOffset : Int) (maxNumReads rankN : Nat)
    (files : Nat → List ReadsFile) (outs : Nat → List (List FqRecord)) (stop : Nat → Nat)
    (hrun : ∀ r < rankN, mergeFiles qualOffset (startReadId maxNumReads r) (files r) =
      .ok (outs r, stop r)) :
    (readIdRangesOk ((List.range rankN).map fun r => (startReadId maxNumReads r, stop r)) = true ↔
      ∀ r, r + 1 < rankN → 2 * totalPairs (files r) < 3 * (maxNumReads + 10000)) ∧
    (readIdRangesOk ((List.range rankN).map fun r => (startReadId maxNumReads r, stop r)) = true →
      (∀ r < rankN, (stop r : Int) ≤ longMax) →
      ((List.range rankN).flatMap fun r =>
        (outs r).flatten.map fun read => readIdOf read.id).Nodup) := by
  have hstop : ∀ r < rankN, stop r = startReadId maxNumReads r + 2 * totalPairs (files r) :=
    fun r hr => (merge_files_numbering _ _ (hrun r hr)).2.1
  have hiff : readIdRangesOk ((List.range rankN).map fun r => (startReadId maxNumReads r, stop r)) =
      true ↔ ∀ r, r + 1 < rankN → 2 * totalPairs (files r) < 3 * (maxNumReads + 10000) := by
    rw [List.range_eq_range', readIdRangesOk_map _ rankN 0]
    refine forall_congr' fun r => ⟨fun h hr => ?_, fun h _ hr => ?_⟩
    · have hn := h (Nat.zero_le r) (by omega)
      rwa [hstop r (by omega), hstop (r + 1) hr, neighbourRangesOk_iff] at hn
    · rw [hstop r (by omega), hstop (r + 1) (by omega), neighbourRangesOk_iff]
      exact h (by omega)
  refine ⟨hiff, fun hok hfit => ?_⟩
  have hpairs := hiff.1 hok
  have hids : ∀ r ∈ List.range rankN, ((outs r).flatten.map fun read => readIdOf read.id) =
      (List.range' (startReadId maxNumReads r) (totalPairs (files r)) 2).flatMap
        fun x => [-((x : Int) + 1), (x : Int) + 1] := fun r hr => by
    have hr' := List.mem_range.1 hr
    rw [show (fun read : FqRecord => readIdOf read.id) = readIdOf ∘ FqRecord.id from rfl,
      ← List.map_map, (merge_files_numbering _ _ (hrun r hr')).2.2.1,
      readIds_pairNames (by rw [← hstop r hr']; exact hfit r hr')]
  rw [List.flatMap_congr hids, ← List.flatMap_assoc]
  refine nodup_flatMap_readIds (List.Pairwise.nodup (r := (· < ·)) (List.pairwise_flatMap.2
    ⟨fun r _ => List.pairwise_lt_range' _ _ _ (by decide), ?_⟩))
  refine (List.pairwise_lt_range rankN).imp_of_mem fun {r r'} _ hr' hlt x hx y hy => ?_
  obtain ⟨i, hi, rfl⟩ := List.mem_range'.1 hx
  obtain ⟨j, -, rfl⟩ := List.mem_range'.1 hy
  have h1 := hpairs r (by have := List.mem_range.1 hr'; omega)
  have h2 := startReadId_mono maxNumReads (Nat.succ_le_of_lt hlt)
  rw [startReadId_succ] at h2
  omega

theorem merge_reads_ids_distinct_two_ranks :
    (∀ r < 2, mergeFiles 33 (startReadId 0 r) [⟨false, [⟨['u'], ['A'], ['I']⟩]⟩] =
      .ok ([[⟨readName (startReadId 0 r) '1', ['A'], ['I']⟩,
        ⟨readName (startReadId 0 r) '2', ['N'], mateQuals 33⟩]], startReadId 0 r + 2)) ∧
    (readIdRangesOk ((List.range 2).map fun r => (startReadId 0 r, startReadId 0 r + 2)) = true ↔
      ∀ r, r + 1 < 2 → 2 * totalPairs [⟨false, [⟨['u'], ['A'], ['I']⟩]⟩] < 3 * (0 + 10000)) ∧
    (readIdRangesOk ((List.range 2).map fun r => (startReadId 0 r, startReadId 0 r + 2)) = true →
      (∀ r < 2, ((startReadId 0 r + 2 : Nat) : Int) ≤ longMax) →
      ((List.range 2).flatMap fun r => ([[⟨readName (startReadId 0 r) '1', ['A'], ['I']⟩,
        ⟨readName (startReadId 0 r) '2', ['N'], mateQuals 33⟩]] : List (List FqRecord)).flatten.map
          fun read => readIdOf read.id).Nodup) :=
  have hrun : ∀ r < 2, mergeFiles 33 (startReadId 0 r) [⟨false, [⟨['u'], ['A'], ['I']⟩]⟩] =
      .ok ([[⟨readName (startReadId 0 r) '1', ['A'], ['I']⟩,
        ⟨readName (startReadId 0 r) '2', ['N'], mateQuals 33⟩]], startReadId 0 r + 2) :=
    fun _ _ => rfl
  ⟨hrun, merge_reads_ids_distinct 33 0 2 (fun _ => [⟨false, [⟨['u'], ['A'], ['I']⟩]⟩])
    (fun r => [[⟨readName (startReadId 0 r) '1', ['A'], ['I']⟩,
      ⟨readName (startReadId 0 r) '2', ['N'], mateQuals 33⟩]]) (fun r => startReadId 0 r + 2) hrun⟩

end Ranks

end Mhm2Proxy.MergeReads

/-! `count_kmers` of `kcount.cpp` on the reads `add_read` packed: it sees the sequences it
would see on the reads themselves. -/

namespace Mhm2Proxy.KCount

open Mhm2Proxy.PackedReads
open Mhm2Proxy.MergeReads (FqRecord)
open Mhm2Proxy.Istream (intToString longMax)

/-- The loop of `count_kmers` over the bases of a read: a base whose quality is below
`qual_offset + KCOUNT_QUAL_CUTOFF` goes to lower case. -/
def maskQuals (qualOffset cutoff : Int) (seq quals : List Char) : List Char :=
  (seq.zip quals).map fun bq => if charValue bq.2 < qualOffset + cutoff then bq.1.toLower else bq.1

/-- `PackedReads::add_read` for each read in turn: the `PackedRead` its constructor makes. -/
def addReads (qualOffset : Int) (reads : List FqRecord) : Except String (List PackedRead) :=
  reads.mapM fun r => packedRead r.id r.seq r.quals qualOffset

/-- `get_next_read` until it returns `false`: each read unpacked in turn, as its id, bases and
qualities. -/
def nextReads (qualOffset : Int) (packed : List PackedRead) :
    Option (List (List Char × List Char × List Char)) :=
  packed.mapM fun p => unpack p qualOffset

/-- The sequences `count_kmers` hands `process_seq`, in order: each read at least `kmer_len`
long, masked. -/
def countKmersSeqs (kmerLen : Nat) (qualOffset cutoff : Int)
    (reads : List (List Char × List Char × List Char)) : List (List Char) :=
  reads.filterMap fun r =>
    if r.2.1.length < kmerLen then none else some (maskQuals qualOffset cutoff r.2.1 r.2.2)

section Packing

variable {qualOffset cutoff : Int}

theorem clamp_lt_iff (hoff : 0 ≤ qualOffset ∧ qualOffset ≤ 96) (hcut : cutoff ≤ 31) {q : Char}
    (hq : qualOffset ≤ charValue q) :
    charValue (toChar (qualOffset + min (charValue q - qualOffset) 31)) < qualOffset + cutoff ↔
      charValue q < qualOffset + cutoff := by
  rw [MergeReads.charValue_toChar (by omega) (by omega)]
  omega

theorem maskQuals_clamp (hoff : 0 ≤ qualOffset ∧ qualOffset ≤ 96) (hcut : cutoff ≤ 31)
    (seq : List Char) {quals : List Char} (hq : ∀ q ∈ quals, qualOffset ≤ charValue q) :
    maskQuals qualOffset cutoff seq
        (quals.map fun q => toChar (qualOffset + min (charValue q - qualOffset) 31)) =
      maskQuals qualOffset cutoff seq quals := by
  rw [maskQuals, maskQuals, List.zip_map_right, List.map_map]
  refine List.map_congr_left fun bq hbq => ?_
  exact if_congr (clamp_lt_iff hoff hcut (hq _ (List.of_mem_zip hbq).2)) rfl rfl

/-- What `count_kmers` hands `process_seq` after `add_read` and `get_next_read`, for reads
named `r<n>/1` or `r<n>/2` as `merge_reads` names them, with qualities at or above the offset:
the masked reads themselves, the IUPAC codes read as `N`. The qualities `unpack` gives back are
clamped at `31` above the offset, and no cutoff up to `31` tells a clamped quality from the
original. -/
theorem count_kmers_sees_read_quals (hoff : 0 ≤ qualOffset ∧ qualOffset ≤ 96) (hcut : cutoff ≤ 31)
    (kmerLen : Nat) :
    ∀ reads : List FqRecord, (∀ r ∈ reads,
        (∃ (n : Nat) (pairId : Char), (pairId = '1' ∨ pairId = '2') ∧
          (n : Int) < longMax ∧ r.id = 'r' :: intToString n ++ ['/', pairId]) ∧
        (∀ c ∈ r.seq, (baseCode c).isSome) ∧ r.quals.length = r.seq.length ∧
        r.seq.length < 2 ^ 16 ∧ ∀ q ∈ r.quals, qualOffset ≤ charValue q) →
      ∃ packed, addReads qualOffset reads = .ok packed ∧
        ∃ unpacked, nextReads qualOffset packed = some unpacked ∧
          countKmersSeqs kmerLen qualOffset cutoff unpacked =
            countKmersSeqs kmerLen qualOffset cutoff (reads.map fun r =>
              (r.id, r.seq.map fun c => if c ∈ ['A', 'C', 'G', 'T'] then c else 'N', r.quals))
  | [], _ => ⟨[], rfl, [], rfl, rfl⟩
  | r :: rs, hv => by
      obtain ⟨⟨n, pairId, hp, hn, hid⟩, hseq, hlen, hshort, hq⟩ := hv r (List.mem_cons_self _ _)
      obtain ⟨p, hok, hunpack, -⟩ := unpack_packedRead_of_valid hp hn hseq hlen hshort hq
      obtain ⟨packed, hpacked, unpacked, hnext, hcount⟩ :=
        count_kmers_sees_read_quals hoff hcut kmerLen rs fun r' hr' =>
          hv r' (List.mem_cons_of_mem _ hr')
      refine ⟨p :: packed, ?_, (['@', 'r'] ++ intToString (n + 1 : Nat) ++ ['/', pairId],
        r.seq.map fun c => if c ∈ ['A', 'C', 'G', 'T'] then c else 'N',
        r.quals.map fun q => toChar (qualOffset + min (charValue q - qualOffset) 31)) :: unpacked,
        ?_, ?_⟩
      · rw [addReads, List.mapM_cons, hid, hok]
        rw [addReads] at hpacked
        rw [hpacked]
        rfl
      · rw [nextReads, List.mapM_cons, hunpack]
        rw [nextReads] at hnext
        rw [hnext]
        rfl
      · rw [List.map_cons, countKmersSeqs, countKmersSeqs, List.filterMap_cons, List.filterMap_cons,
          ← countKmersSeqs, ← countKmersSeqs, hcount, maskQuals_clamp hoff hcut _ hq]

theorem count_kmers_sees_read_quals_one_read :
    (0 ≤ (33 : Int) ∧ (33 : Int) ≤ 96) ∧ (20 : Int) ≤ 31 ∧
      (∀ r ∈ [(⟨['r', '0', '/', '1'], ['A', 'C', 'R'], ['I', '#', '5']⟩ : FqRecord)],
        (∃ (n : Nat) (pairId : Char), (pairId = '1' ∨ pairId = '2') ∧ (n : Int) < longMax ∧
          r.id = 'r' :: intToString n ++ ['/', pairId]) ∧
        (∀ c ∈ r.seq, (baseCode c).isSome) ∧ r.quals.length = r.seq.length ∧
        r.seq.length < 2 ^ 16 ∧ ∀ q ∈ r.quals, 33 ≤ charValue q) ∧
      ∃ packed,
        addReads 33 [⟨['r', '0', '/', '1'], ['A', 'C', 'R'], ['I', '#', '5']⟩] = .ok packed ∧
        ∃ unpacked, nextReads 33 packed = some unpacked ∧
          countKmersSeqs 2 33 20 unpacked =
            countKmersSeqs 2 33 20
              ([(⟨['r', '0', '/', '1'], ['A', 'C', 'R'], ['I', '#', '5']⟩ : FqRecord)].map fun r =>
                (r.id, r.seq.map fun c => if c ∈ ['A', 'C', 'G', 'T'] then c else 'N', r.quals)) :=
  have hv : ∀ r ∈ [(⟨['r', '0', '/', '1'], ['A', 'C', 'R'], ['I', '#', '5']⟩ : FqRecord)],
      (∃ (n : Nat) (pairId : Char), (pairId = '1' ∨ pairId = '2') ∧ (n : Int) < longMax ∧
        r.id = 'r' :: intToString n ++ ['/', pairId]) ∧
      (∀ c ∈ r.seq, (baseCode c).isSome) ∧ r.quals.length = r.seq.length ∧
      r.seq.length < 2 ^ 16 ∧ ∀ q ∈ r.quals, 33 ≤ charValue q := by
    intro r hr
    rw [List.mem_singleton] at hr
    subst hr
    exact ⟨⟨0, '1', .inl rfl, by unfold longMax; norm_num, rfl⟩, by decide, rfl, by decide,
      by decide⟩
  ⟨⟨by decide, by decide⟩, by decide, hv,
    count_kmers_sees_read_quals ⟨by decide, by decide⟩ (by decide) 2 _ hv⟩

end Packing

end Mhm2Proxy.KCount
