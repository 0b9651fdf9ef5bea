import Mhm2Proxy.Istream

namespace Mhm2Proxy.ContigsFile

open Mhm2Proxy.Istream

/-- A contig as `dump_contigs` writes it and `load_contigs` reads it back: its id, its
sequence and its depth, a C++ `double`. -/
structure Contig where
  id : Int
  seq : List Char
  depth : Float

/-- The character the loop of `revcomp` appends for the character `c` at index `i` of `seq`:
its complement, `N` for an ambiguity code, and a `DIE` for anything else. -/
def compChar (seq : List Char) (i : Nat) (c : Char) : Except String Char :=
  match c with
  | 'A' => .ok 'T'
  | 'C' => .ok 'G'
  | 'G' => .ok 'C'
  | 'T' => .ok 'A'
  | 'N' => .ok 'N'
  | 'U' | 'R' | 'Y' | 'K' | 'M' | 'S' | 'W' | 'B' | 'D' | 'H' | 'V' => .ok 'N'
  | _ => .error ("Illegal char at " ++ toString i ++ "'" ++ toString c ++ "' (" ++
      toString c.toNat ++ ") in revcomp of '" ++ String.mk seq ++ "'")

/-- `revcomp` (utils.cpp). Its loop runs from the last index down, so it dies on the last
illegal character. -/
def revcomp (seq : List Char) : Except String (List Char) :=
  seq.enum.reverse.mapM fun e => compChar seq e.1 e.2

variable (toStringDouble : Float → List Char) (strtod : List Char → Float)

/-- The header line `dump_contigs` writes for a contig, without its newline. The rendering
`std::to_string` of a `double` (six decimals) is a parameter of the model. -/
def header (c : Contig) : List Char :=
  ">Contig".toList ++ intToString c.id ++ ' ' :: toStringDouble c.depth

/-- The two lines `dump_contigs` writes for a contig. -/
def record (c : Contig) : List Char :=
  header toStringDouble c ++ '\n' :: (c.seq ++ ['\n'])

/-- `dump_contigs` on one process: the records of its contigs of length at least
`minCtgLen`, in order. The reverse complement is computed, and can die, but is not
written. -/
def dumpContigs (minCtgLen : Nat) : List Contig → Except String (List Char)
  | [] => .ok []
  | c :: cs =>
      if c.seq.length < minCtgLen then dumpContigs minCtgLen cs
      else do
        let _ ← revcomp c.seq
        let rest ← dumpContigs minCtgLen cs
        pure (record toStringDouble c ++ rest)

/-- Modelled from the spec: the file a `dist_ofstream` leaves is the contributions of the
processes one after another. The spec leaves their order open, so `procs` lists the processes
in the order the file holds them. -/
def dumpFile (minCtgLen : Nat) (procs : List (List Contig)) : Except String (List Char) :=
  List.flatten <$> procs.mapM (dumpContigs toStringDouble minCtgLen)

/-- The `ctg_prefix` of `load_contigs`. -/
def ctgPrefix : List Char := ">Contig".toList

/-- The loop of the lambda `get_file_offset_for_rank`: read lines until one starts with
`ctgPrefix`, then read one line more. `none` when the fuel runs out. -/
def scanLines (ctgPrefix : List Char) : Nat → IStream → List Char → Option IStream
  | 0, _, _ => none
  | fuel + 1, f, line =>
      let r := getline f line
      if r.1.fail then some r.1
      else if r.2.take ctgPrefix.length = ctgPrefix then some (getline r.1 r.2).1
      else scanLines ctgPrefix fuel r.1 r.2

/-- The lambda `get_file_offset_for_rank` of `load_contigs`: the offset where process `rank`
starts, with the stream after the search. Its loop reads a line at least per round but the
last, so `fileSize + 1` rounds are enough. -/
def getFileOffsetForRank (f : IStream) (rank rankN : Nat) (ctgPrefix : List Char)
    (fileSize : Nat) : Option (Nat × IStream) :=
  if rank = 0 then some (0, f)
  else if rank = rankN then some (fileSize, f)
  else
    let offset := fileSize / rankN * rank
    (scanLines ctgPrefix (fileSize + 1) (seekg f offset) []).map fun g =>
      let t := tellg g
      (toSizeT t.1, t.2)

/-- The start offset process `rank` computes on its own stream; the process before it takes
it as its stop offset. -/
def startOffset (file : List Char) (rankN rank : Nat) : Option Nat :=
  (getFileOffsetForRank (ifstream file) rank rankN ctgPrefix file.length).map Prod.fst

/-- The stop offset of process `rank`: the start offset of the next process, which that
process sends it, and the file size for the last process. -/
def stopOffset (file : List Char) (rankN rank : Nat) : Option Nat :=
  if rank = rankN - 1 then some file.length else startOffset file rankN (rank + 1)

/-- The parsing loop of `load_contigs`: while the stream is not at its end and before
`stopOffset`, read a header line and a sequence line and add the contig, with the id `strtol`
reads after the prefix and the depth `strtod` reads where `strtol` stopped. `none` when the
fuel runs out. -/
def loadLoop (stopOffset : Nat) : Nat → IStream → List Char → List Char → List Contig →
    Option (IStream × List Contig)
  | 0, _, _, _, _ => none
  | fuel + 1, f, cname, seq, contigs =>
      if f.eof then some (f, contigs)
      else
        let t := tellg f
        if stopOffset ≤ toSizeT t.1 then some (t.2, contigs)
        else
          let r := getline t.2 cname
          if r.2 = [] then some (r.1, contigs)
          else
            let s := getline r.1 seq
            if s.2 = [] then some (s.1, contigs)
            else
              let idEnd := strtol (r.2.drop 7)
              loadLoop stopOffset fuel s.1 r.2 s.2 (contigs ++ [⟨idEnd.1, s.2, strtod idEnd.2⟩])

/-- `load_contigs` on process `rank` of `rankN`, all reading `file`: the contigs it adds, or
its `DIE` when it stops short of its stop offset. The stop offset is the start offset of the
next process, and the file size for the last one. `none` when the fuel runs out. -/
def loadContigs (file : List Char) (rankN rank : Nat) : Option (Except String (List Contig)) := do
  let start ← getFileOffsetForRank (ifstream file) rank rankN ctgPrefix file.length
  let stop ← stopOffset file rankN rank
  let r ← loadLoop strtod stop (file.length + 1) (seekg start.2 start.1) [] [] []
  let t := tellg r.1
  pure (if toSizeT t.1 < stop then
      .error ("Did not read the entire contigs file from " ++ toString start.1 ++ " to " ++
        toString stop ++ " tellg=" ++ toString (tellg t.2).1)
    else .ok r.2)

/-! ### The round trip -/

/-- The contigs the round trip is about: an `int64` id, a non-empty sequence over `ACGTN`,
and a finite depth, whose rendering holds no newline and no `'>'`. -/
structure ContigOk (c : Contig) : Prop where
  id_ge : longMin ≤ c.id
  id_le : c.id ≤ longMax
  seq_ne_nil : c.seq ≠ []
  seq_bases : ∀ ch ∈ c.seq, ch ∈ ['A', 'C', 'G', 'T', 'N']
  depth_newline : '\n' ∉ toStringDouble c.depth
  depth_gt : '>' ∉ toStringDouble c.depth

/-- The contig `load_contigs` adds for the record of `c`: the same id and sequence, and the
depth `strtod` reads back from the header. -/
def reload (c : Contig) : Contig := ⟨c.id, c.seq, strtod (' ' :: toStringDouble c.depth)⟩

/-- The contigs of all processes that `dump_contigs` keeps: those of length at least
`minCtgLen`, in the order of the processes. -/
def keptContigs (minCtgLen : Nat) (procs : List (List Contig)) : List Contig :=
  procs.flatten.filter fun c => minCtgLen ≤ c.seq.length

/-- The offset in the file of records `cs` where record `j` starts. -/
def bound (cs : List Contig) (j : Nat) : Nat := ((cs.take j).flatMap (record toStringDouble)).length

/-- Where the search of `get_file_offset_for_rank`, started at offset `p` into the records
`cs`, ends: at the start of record `j + 1` when record `j` is the first that starts at or
after `p`, and at `cs.length + 1`, past the end, when there is none. -/
def nextStart (p : Nat) : List Contig → Nat
  | [] => 1
  | c :: cs => if p = 0 then 1 else nextStart (p - (record toStringDouble c).length) cs + 1

/-- Where a stream stands on the records `cs` that fill a file from `base` to its end: good,
at the start of record `a`, or failed, with `a` past the end. -/
def AtRecord (cs : List Contig) (base a : Nat) (g : IStream) : Prop :=
  (g.eof = false ∧ g.fail = false ∧ a ≤ cs.length ∧ g.pos = base + bound toStringDouble cs a) ∨
    (g.fail = true ∧ a = cs.length + 1)

/-- The record where process `rank` of `rankN` starts on the records `cs` of the file:
`nextStart` of its byte offset, `0` for the first process, and the end of the file past the
last one. -/
def startIdx (cs : List Contig) (rankN rank : Nat) : Nat :=
  if rank = 0 then 0
  else if rank < rankN then
    nextStart toStringDouble ((cs.flatMap (record toStringDouble)).length / rankN * rank) cs
  else cs.length

/-- The records process `rank` loads: from where it starts to where the next one starts. -/
def loadedRecords (cs : List Contig) (rankN rank : Nat) : List Contig :=
  let a := min (startIdx toStringDouble cs rankN rank) cs.length
  let b := min (startIdx toStringDouble cs rankN (rank + 1)) cs.length
  (cs.drop a).take (b - a)

variable {toStringDouble strtod}

theorem mapM_ok {α β ε : Type} {g : α → Except ε β} :
    ∀ {l : List α}, (∀ a ∈ l, ∃ b, g a = .ok b) → ∃ bs, l.mapM g = .ok bs
  | [], _ => ⟨[], rfl⟩
  | a :: l, hl => by
      obtain ⟨b, hb⟩ := hl a (List.mem_cons_self _ _)
      obtain ⟨bs, hbs⟩ := mapM_ok fun a' h => hl a' (List.mem_cons_of_mem _ h)
      exact ⟨b :: bs, by rw [List.mapM_cons, hb, hbs]; rfl⟩

theorem mapM_eq_ok {α β ε : Type} {g : α → Except ε β} {h : α → β} :
    ∀ {l : List α}, (∀ a ∈ l, g a = .ok (h a)) → l.mapM g = .ok (l.map h)
  | [], _ => rfl
  | a :: l, hl => by
      rw [List.mapM_cons, hl a (List.mem_cons_self _ _),
        mapM_eq_ok fun a' h => hl a' (List.mem_cons_of_mem _ h)]
      rfl

theorem length_of_mapM_eq_ok {α β ε : Type} {g : α → Except ε β} :
    ∀ {l : List α} {bs : List β}, l.mapM g = .ok bs → bs.length = l.length
  | [], bs, h => by cases h; rfl
  | a :: l, bs, h => by
      rw [List.mapM_cons] at h
      cases hg : g a with
      | error e => rw [hg] at h; cases h
      | ok b =>
        cases hl : l.mapM g with
        | error e => rw [hg, hl] at h; cases h
        | ok bs' =>
          rw [hg, hl] at h
          cases h
          rw [List.length_cons, List.length_cons, length_of_mapM_eq_ok hl]

theorem length_of_revcomp_eq_ok {seq rc : List Char} (h : revcomp seq = .ok rc) :
    rc.length = seq.length := by
  rw [length_of_mapM_eq_ok h, List.length_reverse, List.enum_length]

section Involution

/-- The complement `revcomp` writes for `A`, `C`, `G`, `T` and `N`, as a total function: the
bases swap in pairs and every other character stays. -/
def swapBases (c : Char) : Char :=
  if c = 'A' then 'T' else if c = 'T' then 'A' else if c = 'C' then 'G'
  else if c = 'G' then 'C' else c

@[simp] theorem swapBases_swapBases (c : Char) : swapBases (swapBases c) = c := by
  unfold swapBases
  by_cases hA : c = 'A'
  · subst hA; rfl
  by_cases hT : c = 'T'
  · subst hT; rfl
  by_cases hC : c = 'C'
  · subst hC; rfl
  by_cases hG : c = 'G'
  · subst hG; rfl
  simp only [if_neg hA, if_neg hT, if_neg hC, if_neg hG]

theorem swapBases_injective : Function.Injective swapBases :=
  Function.LeftInverse.injective swapBases_swapBases

variable {b : Char} (hb : b ∈ ['A', 'C', 'G', 'T', 'N'])
include hb

theorem compChar_eq_swapBases (seq : List Char) (i : Nat) : compChar seq i b = .ok (swapBases b) := by
  simp only [List.mem_cons, List.mem_singleton, List.not_mem_nil, or_false] at hb
  rcases hb with rfl | rfl | rfl | rfl | rfl <;> rfl

theorem swapBases_mem : swapBases b ∈ ['A', 'C', 'G', 'T', 'N'] := by
  simp only [List.mem_cons, List.mem_singleton, List.not_mem_nil, or_false] at hb
  rcases hb with rfl | rfl | rfl | rfl | rfl <;> decide

end Involution

theorem revcomp_eq_swapBases {s : List Char} (hs : ∀ c ∈ s, c ∈ ['A', 'C', 'G', 'T', 'N']) :
    revcomp s = .ok (s.map swapBases).reverse := by
  rw [revcomp, mapM_eq_ok (h := swapBases ∘ Prod.snd) fun e he => compChar_eq_swapBases
    (hs e.2 (List.snd_mem_of_mem_enum (List.mem_reverse.1 he))) s e.1,
    List.map_reverse, ← List.map_map, List.enum_map_snd]

theorem swapBases_reverse_mem {s : List Char} (hs : ∀ c ∈ s, c ∈ ['A', 'C', 'G', 'T', 'N']) :
    ∀ c ∈ (s.map swapBases).reverse, c ∈ ['A', 'C', 'G', 'T', 'N'] := by
  simp only [List.mem_reverse, List.mem_map]
  rintro _ ⟨c, hc, rfl⟩
  exact swapBases_mem (hs c hc)

section Records

variable {c : Contig}

theorem take_ne_ctgPrefix {l : List Char} (h : '>' ∉ l) : l.take ctgPrefix.length ≠ ctgPrefix := by
  intro he
  exact h (List.mem_of_mem_take (he ▸ (by decide : '>' ∈ ctgPrefix)))

theorem header_eq : header toStringDouble c =
    '>' :: ("Contig".toList ++ intToString c.id ++ ' ' :: toStringDouble c.depth) := rfl

theorem take_header : (header toStringDouble c).take ctgPrefix.length = ctgPrefix := rfl

theorem drop_header : (header toStringDouble c).drop 7 =
    intToString c.id ++ ' ' :: toStringDouble c.depth := rfl

theorem header_ne_nil : header toStringDouble c ≠ [] := by simp [header_eq]

theorem not_mem_intToString {ch : Char} (hd : ch.isDigit = false) (hm : ch ≠ '-') :
    ch ∉ intToString c.id := fun h => by
  rcases mem_intToString h with h | h <;> simp_all

variable (hc : ContigOk toStringDouble c)
include hc

theorem newline_not_mem_header : '\n' ∉ header toStringDouble c := by
  have := not_mem_intToString (c := c) (by decide : '\n'.isDigit = false) (by decide)
  simp [header_eq, this, hc.depth_newline]

theorem gt_not_mem_drop_header {p : Nat} (hp : 0 < p) :
    '>' ∉ (header toStringDouble c).drop p := by
  have := not_mem_intToString (c := c) (by decide : '>'.isDigit = false) (by decide)
  obtain ⟨q, rfl⟩ : ∃ q, p = q + 1 := ⟨p - 1, by omega⟩
  rw [header_eq, List.drop_succ_cons]
  refine fun h => ?_
  have h := List.mem_of_mem_drop h
  simp [this, hc.depth_gt] at h

theorem newline_not_mem_seq : '\n' ∉ c.seq := fun h => by
  have := hc.seq_bases _ h
  revert this
  decide

theorem gt_not_mem_seq : '>' ∉ c.seq := fun h => by
  have := hc.seq_bases _ h
  revert this
  decide

omit hc in
theorem compChar_ok (seq : List Char) (i : Nat) {b : Char} (hb : b ∈ ['A', 'C', 'G', 'T', 'N']) :
    ∃ d, compChar seq i b = .ok d := by
  simp only [List.mem_cons, List.mem_singleton, List.not_mem_nil, or_false] at hb
  rcases hb with rfl | rfl | rfl | rfl | rfl <;> exact ⟨_, rfl⟩

theorem revcomp_ok : ∃ rc, revcomp c.seq = .ok rc := by
  refine mapM_ok fun e he => ?_
  obtain ⟨i, hi⟩ := List.mem_iff_get.1 (List.mem_reverse.1 he)
  exact compChar_ok _ _
    (hc.seq_bases e.2 (List.mem_iff_get.2 ⟨⟨i, by simpa using i.2⟩, by rw [← hi]; simp⟩))

omit hc in
theorem record_length : (record toStringDouble c).length =
    (header toStringDouble c).length + c.seq.length + 2 := by
  simp [record]
  omega

end Records

theorem dumpContigs_eq (minCtgLen : Nat) :
    ∀ {cs : List Contig}, (∀ c ∈ cs, ContigOk toStringDouble c) →
      dumpContigs toStringDouble minCtgLen cs =
        .ok ((cs.filter fun c => minCtgLen ≤ c.seq.length).flatMap (record toStringDouble))
  | [], _ => rfl
  | c :: cs, hcs => by
      have ih := dumpContigs_eq minCtgLen fun c' h => hcs c' (List.mem_cons_of_mem _ h)
      simp only [dumpContigs, List.filter_cons]
      by_cases hlen : c.seq.length < minCtgLen
      · simp [hlen, ih, Nat.not_le.2 hlen]
      · obtain ⟨rc, hrc⟩ := revcomp_ok (hcs c (List.mem_cons_self _ _))
        simp [hlen, Nat.le_of_not_lt hlen, hrc, ih]
        rfl

theorem dumpFile_eq (minCtgLen : Nat) {procs : List (List Contig)}
    (hok : ∀ c ∈ procs.flatten, ContigOk toStringDouble c) :
    dumpFile toStringDouble minCtgLen procs =
      .ok ((keptContigs minCtgLen procs).flatMap (record toStringDouble)) := by
  rw [dumpFile, mapM_eq_ok fun p hp =>
    dumpContigs_eq minCtgLen fun c hc => hok c (List.mem_flatten.2 ⟨p, hp, hc⟩)]
  show Except.ok _ = _
  congr 1
  clear hok
  induction procs with
  | nil => rfl
  | cons p ps ih => simp [ih, keptContigs, List.filter_append]

section Stream

variable {f : IStream}

theorem drop_pos_add {l rest : List Char} (h : f.buf.drop f.pos = l ++ rest) :
    f.buf.drop (f.pos + l.length) = rest := by
  rw [← List.drop_drop, h, List.drop_left]

theorem seekg_of_good (h : f.fail = false) (p : Nat) :
    seekg f p = { f with pos := p, eof := false } := by
  simp [seekg, h]

theorem seekg_of_fail (h : f.fail = true) (p : Nat) : seekg f p = { f with eof := false } := by
  simp [seekg, h]

variable {c : Contig} {more : List Char}

theorem getline_record (hc : ContigOk toStringDouble c) (heof : f.eof = false)
    (hfail : f.fail = false) (hbuf : f.buf.drop f.pos = record toStringDouble c ++ more) :
    (∀ str, getline f str = ({ f with pos := f.pos + (header toStringDouble c).length + 1 },
      header toStringDouble c)) ∧
    ∀ str', getline { f with pos := f.pos + (header toStringDouble c).length + 1 } str' =
      ({ f with pos := f.pos + (record toStringDouble c).length }, c.seq) := by
  have h1 : f.buf.drop f.pos = header toStringDouble c ++ '\n' :: (c.seq ++ '\n' :: more) := by
    simp [hbuf, record]
  refine ⟨fun _ => getline_line heof hfail h1 (newline_not_mem_header hc), fun str' => ?_⟩
  have h2 := drop_pos_add (l := header toStringDouble c ++ ['\n']) (by simpa using h1)
  rw [getline_line (f := { f with pos := f.pos + (header toStringDouble c).length + 1 }) heof
    hfail (by simpa [Nat.add_assoc] using h2) (newline_not_mem_seq hc), record_length]
  congr 2
  dsimp only
  omega

end Stream

section Load

variable {stop : Nat}

theorem loadLoop_record {fuel : Nat} {f : IStream} {c : Contig} {more cname seq : List Char}
    {acc : List Contig} (hc : ContigOk toStringDouble c) (heof : f.eof = false)
    (hfail : f.fail = false) (hbuf : f.buf.drop f.pos = record toStringDouble c ++ more)
    (hlt : toSizeT f.pos < stop) :
    loadLoop strtod stop (fuel + 1) f cname seq acc =
      loadLoop strtod stop fuel { f with pos := f.pos + (record toStringDouble c).length }
        (header toStringDouble c) c.seq (acc ++ [reload toStringDouble strtod c]) := by
  obtain ⟨h1, h2⟩ := getline_record hc heof hfail hbuf
  simp only [heof] at h1 h2
  have hid := strtol_intToString (t := ' ') (by decide) (toStringDouble c.depth) hc.id_ge hc.id_le
  simp only [loadLoop, heof, tellg_of_good heof hfail, Nat.not_le.2 hlt, h1, h2, if_false,
    Bool.false_eq_true,
    header_ne_nil, hc.seq_ne_nil, drop_header, hid]
  rfl

theorem loadLoop_records (more : List Char) :
    ∀ {rs : List Contig} {fuel : Nat} {f : IStream} {cname seq : List Char} {acc : List Contig},
      (∀ c ∈ rs, ContigOk toStringDouble c) → f.eof = false → f.fail = false →
      f.buf.drop f.pos = rs.flatMap (record toStringDouble) ++ more →
      stop = f.pos + (rs.flatMap (record toStringDouble)).length → stop < 2 ^ 64 →
      rs.length < fuel →
      loadLoop strtod stop fuel f cname seq acc =
        some ({ f with pos := stop }, acc ++ rs.map (reload toStringDouble strtod))
  | _, 0, _, _, _, _, _, _, _, _, _, _, hfuel => absurd hfuel (Nat.not_lt_zero _)
  | [], fuel + 1, f, _, _, _, _, heof, hfail, _, hstop, hlt, _ => by
      simp only [List.flatMap_nil, List.length_nil, Nat.add_zero] at hstop
      subst hstop
      cases f
      simp_all [loadLoop, tellg, toSizeT_natCast hlt]
  | c :: rs, fuel + 1, f, _, _, _, hok, heof, hfail, hbuf, hstop, hlt, hfuel => by
      have hc := hok c (List.mem_cons_self _ _)
      simp only [List.flatMap_cons, List.append_assoc, List.length_append] at hbuf hstop
      have hpos : f.pos < 2 ^ 64 := by
        have := @record_length toStringDouble c
        omega
      rw [loadLoop_record hc heof hfail hbuf (by
        rw [toSizeT_natCast hpos, hstop, record_length]; omega)]
      rw [loadLoop_records more (f := { f with pos := f.pos + (record toStringDouble c).length })
        (fun c' h => hok c' (List.mem_cons_of_mem _ h)) heof hfail (drop_pos_add hbuf)
        (by simp only; omega) hlt (Nat.lt_of_succ_lt_succ hfuel)]
      simp

theorem loadLoop_to_end :
    ∀ {rs : List Contig} {fuel : Nat} {f : IStream} (cname seq : List Char) (acc : List Contig),
      (∀ c ∈ rs, ContigOk toStringDouble c) → f.eof = false → f.fail = false →
      f.buf.drop f.pos = rs.flatMap (record toStringDouble) → f.pos ≤ f.buf.length →
      f.buf.length < stop → stop ≤ sizeMax → rs.length < fuel →
      ∃ g, loadLoop strtod stop fuel f cname seq acc =
        some (g, acc ++ rs.map (reload toStringDouble strtod)) ∧ stop ≤ toSizeT (tellg g).1
  | _, 0, _, _, _, _, _, _, _, _, _, _, _, hfuel => absurd hfuel (Nat.not_lt_zero _)
  | [], fuel + 1, f, _, _, _, _, heof, hfail, hbuf, hle, hlt, hmax, _ => by
      have hpos : f.pos < 2 ^ 64 := by simp only [sizeMax] at hmax; omega
      refine ⟨{ f with eof := true, fail := true }, ?_, by simpa [tellg] using hmax⟩
      simp [loadLoop, heof, tellg_of_good heof hfail, toSizeT_natCast hpos,
        Nat.not_le.2 (Nat.lt_of_le_of_lt hle hlt),
        getline_end heof hfail hbuf]
  | c :: rs, fuel + 1, f, _, _, acc, hok, heof, hfail, hbuf, hle, hlt, hmax, hfuel => by
      have hc := hok c (List.mem_cons_self _ _)
      simp only [List.flatMap_cons] at hbuf
      have hlen := congrArg List.length hbuf
      simp only [List.length_drop, List.length_append] at hlen
      have hpos : f.pos < 2 ^ 64 := by simp only [sizeMax] at hmax; omega
      rw [loadLoop_record hc heof hfail (by rw [hbuf]) (by rw [toSizeT_natCast hpos]; omega)]
      obtain ⟨g, hg, hstop⟩ := loadLoop_to_end
        (f := { f with pos := f.pos + (record toStringDouble c).length }) (header toStringDouble c)
        c.seq (acc ++ [reload toStringDouble strtod c]) (fun c' h => hok c' (List.mem_cons_of_mem _ h)) heof hfail (drop_pos_add hbuf)
        (by simp only; omega) hlt hmax (Nat.lt_of_succ_lt_succ hfuel)
      exact ⟨g, by simpa using hg, hstop⟩

theorem loadLoop_of_fail {fuel : Nat} {f : IStream} {cname seq : List Char} {acc : List Contig}
    (heof : f.eof = false) (hfail : f.fail = true) (hmax : stop ≤ sizeMax) :
    loadLoop strtod stop (fuel + 1) f cname seq acc = some (f, acc) := by
  simp [loadLoop, heof, tellg_of_fail hfail, hmax]

end Load

section Scan

variable (fuel : Nat) {f : IStream} (line : List Char)

theorem scanLines_skip {pfx l rest : List Char} (heof : f.eof = false) (hfail : f.fail = false)
    (hbuf : f.buf.drop f.pos = l ++ '\n' :: rest) (hl : '\n' ∉ l)
    (hp : l.take pfx.length ≠ pfx) :
    scanLines pfx (fuel + 1) f line =
      scanLines pfx fuel { f with pos := f.pos + l.length + 1 } l := by
  simp [scanLines, getline_line heof hfail hbuf hl, hfail, hp]

theorem scanLines_record {c : Contig} {more : List Char} (hc : ContigOk toStringDouble c)
    (heof : f.eof = false) (hfail : f.fail = false)
    (hbuf : f.buf.drop f.pos = record toStringDouble c ++ more) :
    scanLines ctgPrefix (fuel + 1) f line =
      some { f with pos := f.pos + (record toStringDouble c).length } := by
  obtain ⟨h1, h2⟩ := getline_record hc heof hfail hbuf
  simp only [hfail] at h1 h2
  simp [scanLines, h1, h2, take_header, hfail]

theorem scanLines_end {pfx : List Char} (heof : f.eof = false) (hfail : f.fail = false)
    (hbuf : f.buf.drop f.pos = []) :
    scanLines pfx (fuel + 1) f line = some { f with eof := true, fail := true } := by
  simp [scanLines, getline_end heof hfail hbuf]

theorem AtRecord.cons {c : Contig} {cs : List Contig} {base a : Nat} {g : IStream}
    (h : AtRecord toStringDouble cs (base + (record toStringDouble c).length) a g) :
    AtRecord toStringDouble (c :: cs) base (a + 1) g := by
  simp only [AtRecord, bound, List.take_succ_cons, List.flatMap_cons, List.length_append,
    List.length_cons] at h ⊢
  rcases h with ⟨h1, h2, h3, h4⟩ | ⟨h1, h2⟩
  · exact .inl ⟨h1, h2, by omega, by omega⟩
  · exact .inr ⟨h1, by omega⟩

theorem scanLines_start {cs : List Contig} {base : Nat} (hok : ∀ c ∈ cs, ContigOk toStringDouble c)
    (heof : f.eof = false) (hfail : f.fail = false) (hpos : f.pos = base)
    (hbuf : f.buf.drop base = cs.flatMap (record toStringDouble)) :
    ∃ g, scanLines ctgPrefix (fuel + 1) f line = some g ∧ g.buf = f.buf ∧
      AtRecord toStringDouble cs base (nextStart toStringDouble 0 cs) g := by
  subst hpos
  cases cs with
  | nil =>
      exact ⟨_, scanLines_end fuel line heof hfail hbuf, rfl, .inr ⟨rfl, rfl⟩⟩
  | cons c cs =>
      refine ⟨_, scanLines_record fuel line (hok c (List.mem_cons_self _ _)) heof hfail
        (by rw [hbuf, List.flatMap_cons]), rfl, .inl ⟨heof, hfail, by simp [nextStart], ?_⟩⟩
      simp [nextStart, bound]

theorem scanLines_skip_to {pfx l rest : List Char} (base : Nat) (heof : f.eof = false)
    (hfail : f.fail = false) (hbuf : f.buf.drop f.pos = l ++ '\n' :: rest) (hl : '\n' ∉ l)
    (hp : l.take pfx.length ≠ pfx) (hbase : f.pos + l.length + 1 = base) :
    scanLines pfx (fuel + 1) f line = scanLines pfx fuel { f with pos := base } l ∧
      ({ f with pos := base } : IStream).buf.drop base = rest := by
  subst hbase
  refine ⟨scanLines_skip fuel line heof hfail hbuf hl hp, ?_⟩
  simpa [Nat.add_assoc] using drop_pos_add (l := l ++ ['\n']) (by simpa using hbuf)

theorem scanLines_inside {c : Contig} {cs : List Contig} {base p : Nat}
    (hok : ∀ c' ∈ c :: cs, ContigOk toStringDouble c') (heof : f.eof = false)
    (hfail : f.fail = false) (hpos : f.pos = base + p)
    (hbuf : f.buf.drop base = record toStringDouble c ++ cs.flatMap (record toStringDouble))
    (hp0 : 0 < p) (hp : p < (record toStringDouble c).length) :
    ∃ g, scanLines ctgPrefix (fuel + 3) f line = some g ∧ g.buf = f.buf ∧
      AtRecord toStringDouble cs (base + (record toStringDouble c).length)
        (nextStart toStringDouble 0 cs) g := by
  have hc := hok c (List.mem_cons_self _ _)
  have hcs := fun c' h => hok c' (List.mem_cons_of_mem _ h)
  have hlen := @record_length toStringDouble c
  have hdrop : f.buf.drop f.pos =
      (record toStringDouble c).drop p ++ cs.flatMap (record toStringDouble) := by
    rw [hpos, ← List.drop_drop, hbuf, List.drop_append_of_le_length (by omega)]
  by_cases hph : p ≤ (header toStringDouble c).length
  · -- in the header line: skip its rest, then the sequence line
    rw [record, List.drop_append_of_le_length hph] at hdrop
    obtain ⟨h1, hb1⟩ := scanLines_skip_to (fuel + 2) line
      (base + (header toStringDouble c).length + 1) heof hfail
      (by simpa using hdrop) (fun h => newline_not_mem_header hc (List.mem_of_mem_drop h))
      (take_ne_ctgPrefix (gt_not_mem_drop_header hc hp0)) (by rw [List.length_drop]; omega)
    obtain ⟨h2, hb2⟩ := scanLines_skip_to (fuel + 1) ((header toStringDouble c).drop p)
      (f := { f with pos := base + (header toStringDouble c).length + 1 })
      (base + (record toStringDouble c).length) heof hfail hb1
      (newline_not_mem_seq hc) (take_ne_ctgPrefix (gt_not_mem_seq hc)) (by simp only; omega)
    obtain ⟨g, hg, hgb, hat⟩ := scanLines_start fuel c.seq
      (f := { f with pos := base + (record toStringDouble c).length }) hcs heof hfail rfl hb2
    exact ⟨g, by rw [h1, h2, hg], hgb, hat⟩
  · -- in the sequence line: skip its rest
    have hq : (record toStringDouble c).drop p =
        c.seq.drop (p - (header toStringDouble c).length - 1) ++ ['\n'] := by
      rw [record, ← List.singleton_append, ← List.append_assoc, List.drop_append_eq_append_drop,
        List.drop_eq_nil_of_le (by simp only [List.length_append, List.length_singleton]; omega),
        List.nil_append,
        List.drop_append_of_le_length (by simp only [List.length_append, List.length_singleton]; omega)]
      simp only [List.length_append, List.length_singleton, Nat.sub_sub]
    rw [hq] at hdrop
    obtain ⟨h1, hb1⟩ := scanLines_skip_to (fuel + 2) line
      (base + (record toStringDouble c).length) heof hfail (by simpa using hdrop)
      (fun h => newline_not_mem_seq hc (List.mem_of_mem_drop h))
      (take_ne_ctgPrefix fun h => gt_not_mem_seq hc (List.mem_of_mem_drop h))
      (by rw [List.length_drop]; omega)
    obtain ⟨g, hg, hgb, hat⟩ := scanLines_start (fuel + 1)
      (c.seq.drop (p - (header toStringDouble c).length - 1))
      (f := { f with pos := base + (record toStringDouble c).length }) hcs heof hfail rfl hb1
    exact ⟨g, by rw [h1, hg], hgb, hat⟩

theorem scanLines_from :
    ∀ {cs : List Contig} {base p : Nat} {f : IStream}, (∀ c ∈ cs, ContigOk toStringDouble c) →
      f.eof = false → f.fail = false → f.pos = base + p →
      f.buf.drop base = cs.flatMap (record toStringDouble) →
      ∃ g, scanLines ctgPrefix (fuel + 3) f line = some g ∧ g.buf = f.buf ∧
        AtRecord toStringDouble cs base (nextStart toStringDouble p cs) g
  | [], base, p, f, _, heof, hfail, hpos, hbuf =>
      ⟨_, scanLines_end (fuel + 2) line heof hfail (by rw [hpos, ← List.drop_drop, hbuf]; simp),
        rfl,
        .inr ⟨rfl, rfl⟩⟩
  | c :: cs, base, p, f, hok, heof, hfail, hpos, hbuf => by
      rw [List.flatMap_cons] at hbuf
      by_cases hp0 : p = 0
      · -- at the start of a record
        subst hp0
        refine ⟨_, scanLines_record (fuel + 2) line (hok c (List.mem_cons_self _ _)) heof hfail
          (by rw [hpos, Nat.add_zero, hbuf]), rfl, .inl ⟨heof, hfail, ?_, ?_⟩⟩ <;>
          simp [nextStart, bound, hpos]
      rw [nextStart, if_neg hp0]
      by_cases hlong : (record toStringDouble c).length ≤ p
      · -- past the record: go on with the next ones
        obtain ⟨g, hg, hgb, hat⟩ := scanLines_from (fun c' h => hok c' (List.mem_cons_of_mem _ h))
          heof hfail (show f.pos = base + (record toStringDouble c).length +
            (p - (record toStringDouble c).length) by omega)
          (by rw [← List.drop_drop, hbuf, List.drop_left])
        exact ⟨g, hg, hgb, hat.cons⟩
      · -- inside the record
        obtain ⟨g, hg, hgb, hat⟩ :=
          scanLines_inside fuel line hok heof hfail hpos hbuf (by omega) (by omega)
        rw [Nat.sub_eq_zero_of_le (by omega)]
        exact ⟨g, hg, hgb, hat.cons⟩

end Scan

section Partition

variable {cs : List Contig}

theorem nextStart_mono : ∀ {cs : List Contig} {p q : Nat}, p ≤ q →
    nextStart toStringDouble p cs ≤ nextStart toStringDouble q cs
  | [], _, _, _ => le_rfl
  | c :: cs, p, q, h => by
      simp only [nextStart]
      split_ifs with hp hq
      · exact le_rfl
      · omega
      · omega
      · exact Nat.succ_le_succ (nextStart_mono (Nat.sub_le_sub_right h _))

theorem nextStart_le : ∀ (cs : List Contig) (p : Nat),
    nextStart toStringDouble p cs ≤ cs.length + 1
  | [], _ => le_rfl
  | c :: cs, p => by
      have : nextStart toStringDouble (p - (record toStringDouble c).length) cs ≤ cs.length + 1 :=
        nextStart_le cs _
      simp only [nextStart, List.length_cons]
      split_ifs <;> omega

theorem flatMap_take_append_drop (a : Nat) :
    (cs.take a).flatMap (record toStringDouble) ++ (cs.drop a).flatMap (record toStringDouble) =
      cs.flatMap (record toStringDouble) := by
  rw [← List.flatMap_append, List.take_append_drop]

theorem bound_le (a : Nat) : bound toStringDouble cs a ≤ (cs.flatMap (record toStringDouble)).length := by
  rw [← flatMap_take_append_drop a, List.length_append, bound]
  omega

theorem bound_length : bound toStringDouble cs cs.length = (cs.flatMap (record toStringDouble)).length := by
  rw [bound, List.take_length]

theorem drop_bound (a : Nat) : (cs.flatMap (record toStringDouble)).drop (bound toStringDouble cs a) =
    (cs.drop a).flatMap (record toStringDouble) := by
  rw [← flatMap_take_append_drop a, bound, List.drop_left]

theorem drop_eq_slice_append {a b : Nat} (hab : a ≤ b) :
    cs.drop a = (cs.drop a).take (b - a) ++ cs.drop b := by
  conv_lhs => rw [← List.take_append_drop (b - a) (cs.drop a)]
  rw [List.drop_drop, Nat.add_sub_cancel' hab]

theorem bound_add {a b : Nat} (hab : a ≤ b) : bound toStringDouble cs b =
    bound toStringDouble cs a + (((cs.drop a).take (b - a)).flatMap (record toStringDouble)).length := by
  have := congrArg (fun l => (l.flatMap (record toStringDouble)).length)
    (List.take_add cs a (b - a))
  simp only [Nat.add_sub_cancel' hab, List.flatMap_append, List.length_append] at this
  rwa [bound, bound]

theorem length_le_flatMap_record : ∀ (rs : List Contig),
    rs.length ≤ (rs.flatMap (record toStringDouble)).length
  | [] => le_rfl
  | c :: rs => by
      have := length_le_flatMap_record rs
      simp only [List.length_cons, List.flatMap_cons, List.length_append, record, List.length_cons]
      omega

theorem AtRecord.offset {a : Nat} {g : IStream} (h : AtRecord toStringDouble cs 0 a g)
    (hsize : (cs.flatMap (record toStringDouble)).length < sizeMax) :
    (a ≤ cs.length ∧ toSizeT (tellg g).1 = bound toStringDouble cs a) ∨
      (a = cs.length + 1 ∧ toSizeT (tellg g).1 = sizeMax) := by
  rcases h with ⟨heof, hfail, ha, hpos⟩ | ⟨hfail, ha⟩
  · have : bound toStringDouble cs a ≤ _ := bound_le a
    simp only [sizeMax] at hsize
    exact .inl ⟨ha, by rw [tellg_of_good heof hfail, toSizeT_natCast (by omega), hpos, Nat.zero_add]⟩
  · exact .inr ⟨ha, by rw [tellg_of_fail hfail, toSizeT_neg_one]⟩

theorem AtRecord.tellg_snd {a : Nat} {g : IStream} (h : AtRecord toStringDouble cs 0 a g) :
    (tellg g).2 = g := by
  rcases h with ⟨heof, hfail, -⟩ | ⟨hfail, -⟩
  · rw [tellg_of_good heof hfail]
  · rw [tellg_of_fail hfail]

variable (hok : ∀ c ∈ cs, ContigOk toStringDouble c)
  (hsize : (cs.flatMap (record toStringDouble)).length < sizeMax)
include hok hsize

/-- `get_file_offset_for_rank` on the file of records `cs` ends at the record `startIdx`
names, and returns the offset of its stream. -/
theorem getFileOffsetForRank_eq {rankN rank : Nat} (hr : rank < rankN) :
    ∃ g, getFileOffsetForRank (ifstream (cs.flatMap (record toStringDouble))) rank rankN
        ctgPrefix (cs.flatMap (record toStringDouble)).length = some (toSizeT (tellg g).1, g) ∧
      g.buf = cs.flatMap (record toStringDouble) ∧
      AtRecord toStringDouble cs 0 (startIdx toStringDouble cs rankN rank) g := by
  unfold getFileOffsetForRank startIdx
  by_cases h0 : rank = 0
  · refine ⟨ifstream (cs.flatMap (record toStringDouble)), by simp [h0]; rfl, rfl,
      .inl ⟨rfl, rfl, ?_, ?_⟩⟩ <;> simp [h0, ifstream, bound]
  simp only [h0, if_false, Nat.ne_of_lt hr, hr, if_true, seekg, ifstream, Bool.false_eq_true]
  rcases cs with _ | ⟨c, cs⟩
  · simp only [List.flatMap_nil, List.length_nil, Nat.zero_div, Nat.zero_mul]
    exact ⟨⟨[], 0, true, true⟩, rfl, rfl, .inr ⟨rfl, rfl⟩⟩
  · have hlen := @record_length toStringDouble c
    obtain ⟨fuel, hfuel⟩ : ∃ fuel, ((c :: cs).flatMap (record toStringDouble)).length + 1 =
        fuel + 3 := ⟨_, (Nat.sub_add_cancel (by simp; omega)).symm⟩
    obtain ⟨g, hg, hgb, hat⟩ := scanLines_from fuel []
      (f := ⟨(c :: cs).flatMap (record toStringDouble),
        ((c :: cs).flatMap (record toStringDouble)).length / rankN * rank, false, false⟩)
      hok rfl rfl (Nat.zero_add _).symm rfl
    exact ⟨g, by rw [hfuel, hg, Option.map_some', hat.tellg_snd], hgb, hat⟩

omit hok hsize in
theorem startIdx_le_succ {rankN r : Nat} (hr : r + 1 < rankN) :
    startIdx toStringDouble cs rankN r ≤ startIdx toStringDouble cs rankN (r + 1) := by
  by_cases h0 : r = 0
  · simp [startIdx, h0]
  · have : nextStart toStringDouble ((cs.flatMap (record toStringDouble)).length / rankN * r) cs ≤
        nextStart toStringDouble ((cs.flatMap (record toStringDouble)).length / rankN * (r + 1))
          cs :=
      nextStart_mono (Nat.mul_le_mul_left _ (Nat.le_add_right r 1))
    simpa [startIdx, h0, hr, show r < rankN by omega] using this

omit hok hsize in
theorem min_startIdx_le_succ (rankN r : Nat) :
    min (startIdx toStringDouble cs rankN r) cs.length ≤
      min (startIdx toStringDouble cs rankN (r + 1)) cs.length := by
  by_cases hr : r + 1 < rankN
  · have : startIdx toStringDouble cs rankN r ≤ startIdx toStringDouble cs rankN (r + 1) :=
      startIdx_le_succ hr
    omega
  · have : startIdx toStringDouble cs rankN (r + 1) = cs.length := by simp [startIdx]; omega
    rw [this]
    omega

omit hok hsize in
theorem bound_mono {a b : Nat} (hab : a ≤ b) : bound toStringDouble cs a ≤ bound toStringDouble cs b := by
  rw [bound_add hab]
  omega

theorem stopOffset_eq {rankN rank : Nat} (hr : rank < rankN) :
    ∃ stop, stopOffset (cs.flatMap (record toStringDouble)) rankN rank = some stop ∧
      ((startIdx toStringDouble cs rankN (rank + 1) ≤ cs.length ∧
          stop = bound toStringDouble cs (startIdx toStringDouble cs rankN (rank + 1))) ∨
        (startIdx toStringDouble cs rankN (rank + 1) = cs.length + 1 ∧ stop = sizeMax)) := by
  by_cases hl : rank = rankN - 1
  · have hb : startIdx toStringDouble cs rankN (rank + 1) = cs.length := by
      simp [startIdx]
      omega
    exact ⟨_, by rw [stopOffset, if_pos hl], .inl ⟨by omega, by rw [hb, bound_length]⟩⟩
  · obtain ⟨g, hg, -, hat⟩ := getFileOffsetForRank_eq hok hsize (show rank + 1 < rankN by omega)
    rw [stopOffset, if_neg hl, startOffset, hg]
    rcases hat.offset hsize with ⟨hb, ht⟩ | ⟨hb, ht⟩
    · exact ⟨_, rfl, .inl ⟨hb, ht⟩⟩
    · exact ⟨_, rfl, .inr ⟨hb, ht⟩⟩

/-- `load_contigs` on process `rank` of the file of records `cs` adds the contigs of its
records, and does not die. -/
theorem loadContigs_eq {rankN rank : Nat} (hr : rank < rankN) :
    loadContigs strtod (cs.flatMap (record toStringDouble)) rankN rank =
      some (.ok ((loadedRecords toStringDouble cs rankN rank).map (reload toStringDouble strtod))) := by
  obtain ⟨g, hg, hgb, hat⟩ := getFileOffsetForRank_eq hok hsize hr
  obtain ⟨stop, hstop, hb⟩ := stopOffset_eq hok hsize hr
  have hmono : min (startIdx toStringDouble cs rankN rank) cs.length ≤
      min (startIdx toStringDouble cs rankN (rank + 1)) cs.length := min_startIdx_le_succ rankN rank
  simp only [sizeMax] at hsize
  unfold loadedRecords
  generalize startIdx toStringDouble cs rankN rank = a at hat hmono
  generalize startIdx toStringDouble cs rankN (rank + 1) = b at hb hmono
  rw [loadContigs]
  simp only [Option.bind_eq_bind]
  rw [hg, Option.some_bind]
  dsimp only
  rw [hstop, Option.some_bind]
  have hstop_le : stop ≤ sizeMax := by
    rcases hb with ⟨-, rfl⟩ | ⟨-, rfl⟩
    · have : bound toStringDouble cs b ≤ _ := bound_le b
      simp only [sizeMax]
      omega
    · exact le_rfl
  rcases hat with ⟨heof, hfail, ha, hpos⟩ | ⟨hfail, ha⟩
  · -- a good start at record `a`
    have hta : toSizeT (tellg g).1 = bound toStringDouble cs a := by
      have : bound toStringDouble cs a ≤ _ := bound_le a
      rw [tellg_of_good heof hfail, toSizeT_natCast (by omega), hpos, Nat.zero_add]
    have hdrop : g.buf.drop (bound toStringDouble cs a) =
        (cs.drop a).flatMap (record toStringDouble) := by
      rw [hgb, drop_bound]
    rw [hta, seekg_of_good hfail]
    rcases hb with ⟨hb, rfl⟩ | ⟨hb, rfl⟩
    · -- the next process starts at record `b`
      have hab : a ≤ b := by omega
      have hrsok : ∀ c ∈ (cs.drop a).take (b - a), ContigOk toStringDouble c :=
        fun c h => hok c (List.mem_of_mem_drop (List.mem_of_mem_take h))
      have hlen : bound toStringDouble cs b = bound toStringDouble cs a +
          (((cs.drop a).take (b - a)).flatMap (record toStringDouble)).length := bound_add hab
      have hle : bound toStringDouble cs b ≤ _ := bound_le b
      have hrs : ((cs.drop a).take (b - a)).length ≤
          (((cs.drop a).take (b - a)).flatMap (record toStringDouble)).length :=
        length_le_flatMap_record _
      rw [loadLoop_records ((cs.drop b).flatMap (record toStringDouble))
        (f := { g with pos := bound toStringDouble cs a, eof := false }) hrsok rfl hfail
        (by rw [hdrop, ← List.flatMap_append, ← drop_eq_slice_append hab]) hlen
        (by simp only [sizeMax] at hstop_le; omega) (by omega), Option.some_bind]
      simp only [tellg, hfail, Nat.min_eq_left ha, Nat.min_eq_left hb, List.nil_append]
      simp [toSizeT_natCast (show bound toStringDouble cs b < 2 ^ 64 by
        simp only [sizeMax] at hstop_le; omega)]
    · -- the next process's search ran off the end: read to the end of the file
      have hdok : ∀ c ∈ cs.drop a, ContigOk toStringDouble c :=
        fun c h => hok c (List.mem_of_mem_drop h)
      have hle : bound toStringDouble cs a ≤ _ := bound_le a
      have hrs : (cs.drop a).length ≤ ((cs.drop a).flatMap (record toStringDouble)).length :=
        length_le_flatMap_record _
      have hdl : ((cs.drop a).flatMap (record toStringDouble)).length ≤
          (cs.flatMap (record toStringDouble)).length := by
        rw [← drop_bound a, List.length_drop]
        omega
      obtain ⟨g', hg', hge⟩ := loadLoop_to_end
        (f := { g with pos := bound toStringDouble cs a, eof := false }) [] [] [] hdok rfl hfail
        hdrop (by rw [hgb]; exact hle)
        (show g.buf.length < sizeMax by rw [hgb]; exact hsize) le_rfl
        (show (cs.drop a).length < (cs.flatMap (record toStringDouble)).length + 1 by omega)
      rw [hg', Option.some_bind]
      simp only [Nat.not_lt.2 hge, ↓reduceIte, List.map_drop, List.nil_append, Option.pure_def,
        Nat.min_eq_left ha, List.map_take, Option.some.injEq, Except.ok.injEq, List.take_self_eq_iff,
        List.length_drop, List.length_map, tsub_le_iff_right, ge_iff_le]
      omega
  · -- a failed start: nothing to read
    rw [seekg_of_fail hfail, loadLoop_of_fail (f := { g with eof := false }) rfl hfail hstop_le,
      Option.some_bind]
    simp only [tellg_of_fail (f := { g with eof := false }) hfail, toSizeT_neg_one,
      Nat.not_lt.2 hstop_le, ↓reduceIte,
      Option.pure_def, ha, le_add_iff_nonneg_right, zero_le, inf_of_le_right, Nat.sub_eq_zero_of_le,
      List.drop_length, List.take_nil, List.map_nil]

end Partition

theorem slice_append {α : Type} (l : List α) {i j k : Nat} (hij : i ≤ j) (hjk : j ≤ k) :
    (l.drop i).take (j - i) ++ (l.drop j).take (k - j) = (l.drop i).take (k - i) := by
  rw [show k - i = (j - i) + (k - j) by omega, List.take_add, List.drop_drop,
    Nat.add_sub_cancel' hij]

theorem flatten_slices {α : Type} (l : List α) {a : Nat → Nat} (ha : ∀ r, a r ≤ a (r + 1)) :
    ∀ n, ((List.range n).map fun r => (l.drop (a r)).take (a (r + 1) - a r)).flatten =
      (l.drop (a 0)).take (a n - a 0)
  | 0 => by simp
  | n + 1 => by
      have h0 : a 0 ≤ a n := Nat.rec le_rfl (fun m ih => ih.trans (ha m)) n
      rw [List.range_succ, List.map_append, List.flatten_append, flatten_slices l ha n]
      simpa using slice_append l h0 (ha n)

theorem flatten_loadedRecords {cs : List Contig} {rankN : Nat} (hn : 0 < rankN) :
    ((List.range rankN).map (loadedRecords toStringDouble cs rankN)).flatten = cs := by
  have h := flatten_slices cs (a := fun r => min (startIdx toStringDouble cs rankN r) cs.length)
    (min_startIdx_le_succ rankN) rankN
  have hlast : startIdx toStringDouble cs rankN rankN = cs.length := by simp [startIdx]; omega
  have h0 : startIdx toStringDouble cs rankN 0 = 0 := by simp [startIdx]
  rw [h0, hlast, Nat.zero_min, Nat.min_self, List.drop_zero, Nat.sub_zero, List.take_length] at h
  exact h

end Mhm2Proxy.ContigsFile
