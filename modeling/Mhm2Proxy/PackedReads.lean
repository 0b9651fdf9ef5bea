import Mhm2Proxy.Istream

/-! `PackedRead` of `packed_reads.cpp`: a read held as its signed id and one byte per base, the
base code in the low three bits and the clamped quality in the high five. The C++ strings are
lists of characters, each read as the byte it stands for. -/

namespace Mhm2Proxy.PackedReads

open Mhm2Proxy.Istream

/-- A `PackedRead`: `read_id`, `read_len` and the `bytes` array. -/
structure PackedRead where
  readId : Int
  readLen : UInt16
  bytes : List UInt8
  deriving DecidableEq, Repr

/-- The value of a `char` of a C++ string on x86-64, where `char` is signed. -/
def charValue (c : Char) : Int :=
  if c.toNat % 256 < 128 then (c.toNat % 256 : Nat) else (c.toNat % 256 : Nat) - 256

/-- The `char` an `int` is stored as: its low byte. -/
def toChar (x : Int) : Char := Char.ofNat (x % 256).toNat

/-- The `switch (seq[i])` of the constructor: the 3-bit code of a base, `N` for `N`, `U` and the
IUPAC ambiguity codes, and `none` for the "Illegal char" `DIE`. -/
def baseCode : Char → Option UInt8
  | 'A' => some 0
  | 'C' => some 1
  | 'G' => some 2
  | 'T' => some 3
  | 'N' => some 4
  | 'U' | 'R' | 'Y' | 'K' | 'M' | 'S' | 'W' | 'B' | 'D' | 'H' | 'V' => some 4
  | _ => none

/-- One iteration of the constructor's loop: the base code, or'ed with
`(unsigned char)std::min(quals[i] - qual_offset, 31) << 3`. -/
def packByte (qualOffset : Int) (base qual : Char) : Except String UInt8 :=
  match baseCode base with
  | some code => .ok (code ||| UInt8.ofNat (min (charValue qual - qualOffset) 31 % 256).toNat <<< 3)
  | none => .error ("Illegal char in comp nucleotide of \x27" ++ base.toString ++ "\x27\n")

/-- The id the constructor computes from `id_str`: the number after its first character, plus
one, negated when `id_str` ends in `1`. -/
def readIdOf (idStr : List Char) : Int :=
  let readId := (strtol (idStr.drop 1)).1 + 1
  if idStr.getLast? = some '1' then readId * -1 else readId

/-- `PackedRead::PackedRead(id_str, seq, quals, qual_offset)`: the id, a byte per base, and
`read_len`, the length of the sequence cast to `uint16_t`. The loop reads `quals[i]` for every
base, so it pairs the bases with the qualities; a quality string shorter than the sequence, read
past its end by the code, is outside the model. -/
def packedRead (idStr seq quals : List Char) (qualOffset : Int) : Except String PackedRead := do
  let bytes ← (seq.zip quals).mapM fun bq => packByte qualOffset bq.1 bq.2
  pure ⟨readIdOf idStr, UInt16.ofNat seq.length, bytes⟩

/-- `nucleotide_map`, indexed by the 3-bit base code: the codes `A = 0, C = 1, G = 2, T = 3,
N = 4` of the spec. -/
def nucleotideMap : List Char := ['A', 'C', 'G', 'T', 'N']

/-- `PackedRead::get_str_id`: `"@r" + to_string(labs(read_id)) + '/' + pair_id`, with the pair
id `1` for a negative id. -/
def getStrId (p : PackedRead) : List Char :=
  ['@', 'r'] ++ intToString p.readId.natAbs ++ ['/', if p.readId < 0 then '1' else '2']

/-- `PackedRead::unpack`: the id, built as `get_str_id` builds it, and for each of the first
`read_len` bytes the base `nucleotide_map[bytes[i] & 7]` and the quality
`qual_offset + (bytes[i] >> 3)`; `none` where a code lies outside `nucleotide_map`. -/
def unpack (p : PackedRead) (qualOffset : Int) : Option (List Char × List Char × List Char) := do
  let bytes := p.bytes.take p.readLen.toNat
  let seq ← bytes.mapM fun b => nucleotideMap[(b &&& 7).toNat]?
  pure (getStrId p, seq, bytes.map fun (b : UInt8) => toChar (qualOffset + (b >>> 3).toNat))

/-- `PackedRead::to_packed_id`: the number after `"@r"`, negated when the id ends in `1`. -/
def toPackedId (idStr : List Char) : Int :=
  let readId := (strtol (idStr.drop 2)).1
  if idStr.getLast? = some '1' then readId * -1 else readId

section Byte

theorem toNat_and_seven (b : UInt8) : (b &&& 7).toNat = b.toNat % 8 := by
  rw [UInt8.and_toNat]
  exact Nat.and_pow_two_sub_one_eq_mod b.toNat 3

theorem toNat_shiftRight_three (b : UInt8) : (b >>> 3).toNat = b.toNat / 8 := by
  show b.toNat >>> 3 = _
  rw [Nat.shiftRight_eq_div_pow]

theorem toNat_packed {code : UInt8} (hc : code.toNat < 8) (v : Nat) :
    (code ||| UInt8.ofNat v <<< 3).toNat = code.toNat + 8 * (v % 32) := by
  have hshift : (UInt8.ofNat v <<< 3).toNat = 8 * (v % 32) := by
    show ((v % 256) <<< 3) % 256 = _
    rw [Nat.shiftLeft_eq]
    omega
  show code.toNat ||| (UInt8.ofNat v <<< 3).toNat = _
  rw [hshift, Nat.or_comm, Nat.add_comm, ← Nat.mul_add_lt_is_or (i := 3) hc]

theorem nucleotideMap_baseCode {c : Char} {code : UInt8} (h : baseCode c = some code) :
    code.toNat < 8 ∧
      nucleotideMap[code.toNat]? = some (if c ∈ ['A', 'C', 'G', 'T'] then c else 'N') := by
  unfold baseCode at h
  split at h <;> first | cases h; decide | cases h

theorem unpack_packByte {qualOffset : Int} {c q : Char} {b : UInt8}
    (h : packByte qualOffset c q = .ok b) :
    nucleotideMap[(b &&& 7).toNat]? = some (if c ∈ ['A', 'C', 'G', 'T'] then c else 'N') ∧
      toChar (qualOffset + (b >>> 3).toNat) =
        toChar (qualOffset + min (charValue q - qualOffset) 31 % 32) := by
  unfold packByte at h
  split at h
  · rename_i code hcode
    cases h
    obtain ⟨hlt, hmap⟩ := nucleotideMap_baseCode hcode
    have hb := toNat_packed hlt (min (charValue q - qualOffset) 31 % 256).toNat
    rw [toNat_and_seven, toNat_shiftRight_three, hb]
    refine ⟨by rwa [Nat.add_mul_mod_self_left, Nat.mod_eq_of_lt hlt], ?_⟩
    congr 2
    omega
  · cases h

end Byte

section RoundTrip

theorem mapM_packByte (qualOffset : Int) :
    ∀ (seq quals : List Char), quals.length = seq.length → (∀ c ∈ seq, (baseCode c).isSome) →
      ∃ bytes, ((seq.zip quals).mapM fun bq => packByte qualOffset bq.1 bq.2) = .ok bytes ∧
        bytes.length = seq.length ∧
        (bytes.mapM fun b => nucleotideMap[(b &&& 7).toNat]?) =
          some (seq.map fun c => if c ∈ ['A', 'C', 'G', 'T'] then c else 'N') ∧
        (bytes.map fun (b : UInt8) => toChar (qualOffset + (b >>> 3).toNat)) =
          quals.map fun q => toChar (qualOffset + min (charValue q - qualOffset) 31 % 32)
  | [], [], _, _ => ⟨[], rfl, rfl, rfl, rfl⟩
  | c :: cs, q :: qs, hlen, hseq => by
      obtain ⟨code, hcode⟩ := Option.isSome_iff_exists.1 (hseq c (List.mem_cons_self _ _))
      obtain ⟨b, hc⟩ : ∃ b, packByte qualOffset c q = .ok b := ⟨_, by rw [packByte, hcode]⟩
      obtain ⟨bytes, hok, hl, hbases, hquals⟩ := mapM_packByte qualOffset cs qs
        (Nat.succ.inj hlen) fun c' hc' => hseq c' (List.mem_cons_of_mem _ hc')
      obtain ⟨hb1, hb2⟩ := unpack_packByte hc
      refine ⟨b :: bytes, ?_, by simp only [List.length_cons, hl], ?_, ?_⟩
      · simp only [List.zip_cons_cons, List.mapM_cons, hc, hok]
        rfl
      · simp only [List.mapM_cons, hb1, hbases, List.map_cons]
        rfl
      · simp only [List.map_cons, hb2, hquals]
  | [], _ :: _, hlen, _ => absurd hlen (by simp)
  | _ :: _, [], hlen, _ => absurd hlen (by simp)

theorem mapM_take {α β : Type} (f : α → Option β) :
    ∀ (k : Nat) (xs : List α) (ys : List β), xs.mapM f = some ys →
      (xs.take k).mapM f = some (ys.take k)
  | 0, _, _, _ => rfl
  | _ + 1, [], ys, h => by
      cases h
      rfl
  | k + 1, x :: xs, ys, h => by
      simp only [List.mapM_cons, Option.bind_eq_bind, Option.bind_eq_some, Option.pure_def,
        Option.some.injEq] at h
      obtain ⟨y, hy, ys', hys', rfl⟩ := h
      simp only [List.take_succ_cons, List.mapM_cons, hy, mapM_take f k xs ys' hys']
      rfl

section Id

variable {n : Nat} {pairId : Char}

theorem readIdOf_eq (hn : (n : Int) ≤ longMax) :
    readIdOf ('r' :: intToString n ++ ['/', pairId]) =
      if pairId = '1' then -((n : Int) + 1) else n + 1 := by
  have hlo : longMin ≤ (n : Int) := by simp only [longMin]; omega
  have hlast : ('r' :: (intToString n ++ ['/', pairId])).getLast? = some pairId := by
    rw [show 'r' :: (intToString n ++ ['/', pairId]) = ('r' :: intToString n ++ ['/']) ++ [pairId] by
      simp, List.getLast?_concat]
  simp only [readIdOf, List.cons_append, List.drop_succ_cons, List.drop_zero,
    strtol_intToString (t := '/') (by decide) [pairId] hlo hn, hlast, Option.some.injEq]
  split_ifs <;> omega

theorem getStrId_eq (hp : pairId = '1' ∨ pairId = '2') {p : PackedRead}
    (hid : p.readId = if pairId = '1' then -((n : Int) + 1) else n + 1) :
    getStrId p = ['@', 'r'] ++ intToString (n + 1 : Nat) ++ ['/', pairId] := by
  rcases hp with rfl | rfl
  · rw [if_pos rfl] at hid
    have habs : p.readId.natAbs = n + 1 := by omega
    simp only [getStrId, habs, if_pos (show p.readId < 0 by omega)]
  · rw [if_neg (by decide)] at hid
    have habs : p.readId.natAbs = n + 1 := by omega
    simp only [getStrId, habs, if_neg (show ¬p.readId < 0 by omega)]

theorem toPackedId_eq (hn : (n : Int) < longMax) :
    toPackedId (['@', 'r'] ++ intToString (n + 1 : Nat) ++ ['/', pairId]) =
      if pairId = '1' then -((n : Int) + 1) else n + 1 := by
  have hlo : longMin ≤ ((n + 1 : Nat) : Int) := by simp only [longMin]; omega
  have hlast : ('@' :: 'r' :: (intToString (n + 1 : Nat) ++ ['/', pairId])).getLast? =
      some pairId := by
    rw [show '@' :: 'r' :: (intToString (n + 1 : Nat) ++ ['/', pairId]) =
      (['@', 'r'] ++ intToString (n + 1 : Nat) ++ ['/']) ++ [pairId] by simp, List.getLast?_concat]
  simp only [toPackedId, List.append_assoc, List.cons_append, List.nil_append,
    List.drop_succ_cons, List.drop_zero, hlast, Option.some.injEq,
    strtol_intToString (t := '/') (by decide) [pairId] hlo (by push_cast; omega)]
  split_ifs <;> omega

end Id

end RoundTrip

/-- What `unpack` gives back after the constructor, for every read id `r<n>/<p>` with `n + 1` a
`long`, every sequence over the bases the constructor accepts, every quality string of the same
length and every offset. The bases come back with the IUPAC codes and `U` read as `N`, and each
quality as `qual_offset + (min(q - qual_offset, 31) mod 32)`; both are cut to the length modulo
`2^16`, which `read_len` keeps. The id comes back as `@r<n + 1>/<p>`, which `to_packed_id` reads as
`get_id()`. -/
theorem unpack_packedRead {n : Nat} {pairId : Char} (hp : pairId = '1' ∨ pairId = '2')
    (hn : (n : Int) < longMax) {seq quals : List Char} (hseq : ∀ c ∈ seq, (baseCode c).isSome)
    (hlen : quals.length = seq.length) (qualOffset : Int) :
    ∃ p, packedRead ('r' :: intToString n ++ ['/', pairId]) seq quals qualOffset = .ok p ∧
      unpack p qualOffset = some (['@', 'r'] ++ intToString (n + 1 : Nat) ++ ['/', pairId],
        (seq.map fun c => if c ∈ ['A', 'C', 'G', 'T'] then c else 'N').take (seq.length % 2 ^ 16),
        (quals.map fun q => toChar (qualOffset + min (charValue q - qualOffset) 31 % 32)).take
          (seq.length % 2 ^ 16)) ∧
      toPackedId (['@', 'r'] ++ intToString (n + 1 : Nat) ++ ['/', pairId]) = p.readId := by
  obtain ⟨bytes, hok, -, hbases, hquals⟩ := mapM_packByte qualOffset seq quals hlen hseq
  have hid : readIdOf ('r' :: intToString n ++ ['/', pairId]) =
      if pairId = '1' then -((n : Int) + 1) else n + 1 := readIdOf_eq hn.le
  refine ⟨⟨readIdOf ('r' :: intToString n ++ ['/', pairId]), UInt16.ofNat seq.length, bytes⟩,
    by simp only [packedRead, hok]; rfl, ?_, by dsimp only; exact (toPackedId_eq hn).trans hid.symm⟩
  have hlen16 : (UInt16.ofNat seq.length).toNat = seq.length % 2 ^ 16 := rfl
  have hstr : getStrId ⟨readIdOf ('r' :: intToString n ++ ['/', pairId]), UInt16.ofNat seq.length,
      bytes⟩ = ['@', 'r'] ++ intToString (n + 1 : Nat) ++ ['/', pairId] :=
    getStrId_eq hp (by dsimp only; exact hid)
  simp only [unpack, hlen16, mapM_take _ _ _ _ hbases, List.map_take, hquals, hstr]
  rfl

theorem unpack_packedRead_of_valid {n : Nat} {pairId : Char} (hp : pairId = '1' ∨ pairId = '2')
    (hn : (n : Int) < longMax) {seq quals : List Char} (hseq : ∀ c ∈ seq, (baseCode c).isSome)
    (hlen : quals.length = seq.length) (hshort : seq.length < 2 ^ 16) {qualOffset : Int}
    (hq : ∀ q ∈ quals, qualOffset ≤ charValue q) :
    ∃ p, packedRead ('r' :: intToString n ++ ['/', pairId]) seq quals qualOffset = .ok p ∧
      unpack p qualOffset = some (['@', 'r'] ++ intToString (n + 1 : Nat) ++ ['/', pairId],
        seq.map (fun c => if c ∈ ['A', 'C', 'G', 'T'] then c else 'N'),
        quals.map fun q => toChar (qualOffset + min (charValue q - qualOffset) 31)) ∧
      toPackedId (['@', 'r'] ++ intToString (n + 1 : Nat) ++ ['/', pairId]) = p.readId := by
  obtain ⟨p, hok, hunpack, hid⟩ := unpack_packedRead hp hn hseq hlen qualOffset
  have hclamp : (quals.map fun q => toChar (qualOffset + min (charValue q - qualOffset) 31 % 32)) =
      quals.map fun q => toChar (qualOffset + min (charValue q - qualOffset) 31) :=
    List.map_congr_left fun q hmem => by
      rw [Int.emod_eq_of_lt (by have := hq q hmem; omega) (by omega)]
  rw [Nat.mod_eq_of_lt hshort, List.take_of_length_le (by simp),
    List.take_of_length_le (by simp [hlen]), hclamp] at hunpack
  exact ⟨p, hok, hunpack, hid⟩

/-- A quality below the offset: the Phred+33 quality `#` of a base `A`, packed with offset 64.
`min('#' - 64, 31) = -29` is cast to the byte 227, whose low five bits 3 land in the byte, so
`unpack` gives the quality `C` (64 + 3) and not `#` (64 - 29). -/
theorem unpack_quality_below_offset :
    packedRead ['r', '0', '/', '1'] ['A'] ['#'] 64 = .ok ⟨-1, 1, [24]⟩ ∧
      unpack ⟨-1, 1, [24]⟩ 64 = some (['@', 'r', '1', '/', '1'], ['A'], ['C']) ∧
      toChar (64 + min (charValue '#' - 64) 31) = '#' :=
  ⟨rfl, rfl, rfl⟩

end Mhm2Proxy.PackedReads
