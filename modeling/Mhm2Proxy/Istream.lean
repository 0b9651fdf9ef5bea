import Mathlib.Data.Nat.Digits

namespace Mhm2Proxy.Istream

/-! The parts of the C++ library that `dump_contigs` and `load_contigs` rely on: reading a
file line by line through an `ifstream`, `tellg` and `seekg`, and the decimal rendering and
parsing of integers by `std::to_string` and `strtol`. -/

/-- An `ifstream` open on a file: the file's bytes, the read position, and the `eofbit` and
`failbit` of the stream. -/
structure IStream where
  buf : List Char
  pos : Nat
  eof : Bool
  fail : Bool
  deriving DecidableEq, Repr

/-- A stream freshly opened on `buf`. -/
def ifstream (buf : List Char) : IStream := ⟨buf, 0, false, false⟩

/-- The text up to the first newline, and the text after that newline (`none` when there is
no newline). -/
def splitLine : List Char → List Char × Option (List Char)
  | [] => ([], none)
  | c :: cs =>
      if c = '\n' then ([], some cs)
      else
        let r := splitLine cs
        (c :: r.1, r.2)

/-- `std::getline`. On a stream with `eofbit` or `failbit` set it only sets `failbit` and
leaves `str` as it was. Otherwise it replaces `str` with the characters up to the next newline
and consumes the newline; at the end of the file it sets `eofbit`, and `failbit` when it
extracted nothing. -/
def getline (f : IStream) (str : List Char) : IStream × List Char :=
  if f.eof || f.fail then ({ f with fail := true }, str)
  else
    match splitLine (f.buf.drop f.pos) with
    | (line, some _) => ({ f with pos := f.pos + line.length + 1 }, line)
    | (line, none) =>
        ({ f with pos := f.pos + line.length, eof := true, fail := line.isEmpty }, line)

/-- `tellg` (C++11): its sentry sets `failbit` on a stream with `eofbit` or `failbit` set, and
then it returns `-1`; on a good stream it returns the read position. -/
def tellg (f : IStream) : Int × IStream :=
  if f.eof || f.fail then (-1, { f with fail := true }) else (f.pos, f)

/-- `seekg` (C++11): clear `eofbit`, then move the read position unless the stream has
failed. -/
def seekg (f : IStream) (p : Nat) : IStream :=
  if f.fail then { f with eof := false } else { f with pos := p, eof := false }

/-- The conversion of a signed offset to `size_t`. -/
def toSizeT (x : Int) : Nat := (x % 2 ^ 64).toNat

/-- The largest `size_t`, the value `(size_t)-1` that a failed `tellg` turns into. -/
def sizeMax : Nat := 2 ^ 64 - 1

/-- The `int` a value is stored as: its residue modulo `2 ^ 32`, read as signed. -/
def toInt32 (x : Int) : Int :=
  if x % 2 ^ 32 < 2 ^ 31 then x % 2 ^ 32 else x % 2 ^ 32 - 2 ^ 32

/-- `std::to_string` of an integer: its decimal digits, after a minus sign when negative. -/
def intToString (i : Int) : List Char :=
  if i < 0 then '-' :: Nat.toDigits 10 i.natAbs else Nat.toDigits 10 i.natAbs

/-- The blanks of the C locale, which `strtol` skips. -/
def isSpace (c : Char) : Bool :=
  c = ' ' || c = '\t' || c = '\n' || c = '\x0B' || c = '\x0C' || c = '\r'

/-- The value of a run of decimal digits. -/
def digitsValue (ds : List Char) : Nat :=
  ds.foldl (fun v c => 10 * v + (c.toNat - '0'.toNat)) 0

/-- The optional sign `strtol` reads after the blanks: whether it is a minus, and the text
after it. -/
def readSign : List Char → Bool × List Char
  | '-' :: u => (true, u)
  | '+' :: u => (false, u)
  | t => (false, t)

/-- The range of a `long`. -/
def longMin : Int := -2 ^ 63

def longMax : Int := 2 ^ 63 - 1

/-- `strtol(s, &endptr, 10)`: the value of the digits after the blanks and the sign, clamped
to the range of a `long`, and the text `endptr` points to, which is all of `s` when no digit
was read. -/
def strtol (s : List Char) : Int × List Char :=
  let sign := readSign (s.dropWhile isSpace)
  let ds := sign.2.takeWhile Char.isDigit
  if ds = [] then (0, s)
  else
    let v : Int := if sign.1 then -(digitsValue ds : Int) else (digitsValue ds : Int)
    (max longMin (min longMax v), sign.2.drop ds.length)

section Getline

variable {f : IStream} {str : List Char}

theorem splitLine_append {l : List Char} (rest : List Char) (hl : '\n' ∉ l) :
    splitLine (l ++ '\n' :: rest) = (l, some rest) := by
  induction l with
  | nil => simp [splitLine]
  | cons c l ih =>
      simp only [List.mem_cons, not_or] at hl
      simp [splitLine, Ne.symm hl.1, ih hl.2]

theorem getline_line {l rest : List Char} (heof : f.eof = false) (hfail : f.fail = false)
    (hbuf : f.buf.drop f.pos = l ++ '\n' :: rest) (hl : '\n' ∉ l) :
    getline f str = ({ f with pos := f.pos + l.length + 1 }, l) := by
  simp [getline, heof, hfail, hbuf, splitLine_append rest hl]

theorem getline_end (heof : f.eof = false) (hfail : f.fail = false)
    (hbuf : f.buf.drop f.pos = []) :
    getline f str = ({ f with eof := true, fail := true }, []) := by
  simp [getline, heof, hfail, hbuf, splitLine]

end Getline

@[simp] theorem toSizeT_neg_one : toSizeT (-1) = sizeMax := by decide

theorem toSizeT_cast (x : Int) : (toSizeT x : Int) = x % 2 ^ 64 :=
  Int.toNat_of_nonneg (Int.emod_nonneg _ (by decide))

theorem toSizeT_natCast {p : Nat} (hp : p < 2 ^ 64) : toSizeT p = p := by
  simp only [toSizeT]
  omega

theorem toInt32_congr {x y : Int} (h : x % 2 ^ 32 = y % 2 ^ 32) : toInt32 x = toInt32 y := by
  rw [toInt32, toInt32, h]

theorem toInt32_emod (x : Int) : toInt32 x % 2 ^ 32 = x % 2 ^ 32 := by
  unfold toInt32
  split
  · exact Int.emod_emod _ _
  · rw [Int.sub_emod, Int.emod_self, Int.sub_zero, Int.emod_emod, Int.emod_emod]

theorem toInt32_of_lt {x : Int} (h0 : 0 ≤ x) (h : x < 2 ^ 31) : toInt32 x = x := by
  rw [toInt32, Int.emod_eq_of_lt h0 (lt_trans h (by decide)), if_pos h]

theorem toInt32_add (a d : Int) : toInt32 (toInt32 a + d) = toInt32 (a + d) :=
  toInt32_congr (by rw [Int.add_emod, toInt32_emod, ← Int.add_emod])

theorem tellg_of_fail {f : IStream} (h : f.fail = true) : tellg f = (-1, f) := by
  cases f
  simp_all [tellg]

theorem tellg_of_good {f : IStream} (heof : f.eof = false) (hfail : f.fail = false) :
    tellg f = ((f.pos : Int), f) := by
  simp [tellg, heof, hfail]

section Digits

theorem toDigitsCore_append (f n : Nat) (ds : List Char) :
    Nat.toDigitsCore 10 f n ds = Nat.toDigitsCore 10 f n [] ++ ds := by
  induction f generalizing n ds with
  | zero => rfl
  | succ f ih =>
      simp only [Nat.toDigitsCore]
      split
      · rfl
      · rw [ih _ (_ :: ds), ih _ [_]]
        simp

theorem digitChar_spec : ∀ d < 10,
    (Nat.digitChar d).isDigit = true ∧ (Nat.digitChar d).toNat - '0'.toNat = d := by
  decide

theorem isDigit_of_mem_toDigitsCore (f n : Nat) :
    ∀ c ∈ Nat.toDigitsCore 10 f n [], c.isDigit = true := by
  induction f generalizing n with
  | zero => simp [Nat.toDigitsCore]
  | succ f ih =>
      have hd := (digitChar_spec (n % 10) (Nat.mod_lt _ (by decide))).1
      simp only [Nat.toDigitsCore]
      split
      · simpa using hd
      · intro c hc
        rw [toDigitsCore_append, List.mem_append, List.mem_singleton] at hc
        rcases hc with hc | rfl
        exacts [ih _ c hc, hd]

theorem digitsValue_toDigitsCore (f n : Nat) (hn : n < f) :
    digitsValue (Nat.toDigitsCore 10 f n []) = n := by
  induction f generalizing n with
  | zero => omega
  | succ f ih =>
      have hd := (digitChar_spec (n % 10) (Nat.mod_lt _ (by decide))).2
      simp only [Nat.toDigitsCore]
      split
      · simp only [digitsValue, List.foldl_cons, List.foldl_nil, hd]
        omega
      · rename_i h
        rw [toDigitsCore_append]
        simp only [digitsValue, List.foldl_append, List.foldl_cons, List.foldl_nil, hd] at ih ⊢
        rw [ih (n / 10) (by omega)]
        omega

theorem toDigits_ne_nil (n : Nat) : Nat.toDigits 10 n ≠ [] := by
  simp only [Nat.toDigits, Nat.toDigitsCore]
  split
  · simp
  · rw [toDigitsCore_append]
    simp

theorem isDigit_of_mem_toDigits {n : Nat} {c : Char} (h : c ∈ Nat.toDigits 10 n) :
    c.isDigit = true :=
  isDigit_of_mem_toDigitsCore _ _ c h

theorem digitsValue_toDigits (n : Nat) : digitsValue (Nat.toDigits 10 n) = n :=
  digitsValue_toDigitsCore _ _ (Nat.lt_succ_self n)

end Digits

theorem mem_intToString {i : Int} {c : Char} (h : c ∈ intToString i) :
    c.isDigit = true ∨ c = '-' := by
  unfold intToString at h
  split at h
  · rcases List.mem_cons.1 h with h | h
    · exact .inr h
    · exact .inl (isDigit_of_mem_toDigits h)
  · exact .inl (isDigit_of_mem_toDigits h)

theorem isSpace_of_isDigit {c : Char} (h : c.isDigit = true) : isSpace c = false := by
  rw [Bool.eq_false_iff]
  intro hs
  simp only [isSpace, Bool.or_eq_true, decide_eq_true_eq] at hs
  rcases hs with ((((rfl | rfl) | rfl) | rfl) | rfl) | rfl <;> exact absurd h (by decide)

theorem readSign_of_ne {c : Char} {u : List Char} (h1 : c ≠ '-') (h2 : c ≠ '+') :
    readSign (c :: u) = (false, c :: u) := by
  unfold readSign
  split <;> simp_all

private theorem strtol_tail {neg : Bool} {ds rest : List Char} {t : Char} (ht : t.isDigit = false)
    (s : List Char) (hsign : readSign (s.dropWhile isSpace) = (neg, ds ++ t :: rest))
    (hne : ds ≠ []) (hds : ∀ c ∈ ds, c.isDigit = true) :
    strtol s = (max longMin (min longMax
      (if neg then -(digitsValue ds : Int) else (digitsValue ds : Int))), t :: rest) := by
  have hrest : (t :: rest).takeWhile Char.isDigit = [] := by simp [List.takeWhile_cons, ht]
  simp only [strtol, hsign, List.takeWhile_append_of_pos hds, hrest, List.append_nil, hne,
    if_false, List.drop_left]

theorem strtol_intToString {i : Int} {t : Char} (ht : t.isDigit = false) (rest : List Char)
    (hlo : longMin ≤ i) (hhi : i ≤ longMax) :
    strtol (intToString i ++ t :: rest) = (i, t :: rest) := by
  obtain ⟨d, ds, hd⟩ := List.exists_cons_of_ne_nil (toDigits_ne_nil i.natAbs)
  have hdig : d.isDigit = true := isDigit_of_mem_toDigits (by rw [hd]; exact List.mem_cons_self _ _)
  have hall := fun c (h : c ∈ Nat.toDigits 10 i.natAbs) => isDigit_of_mem_toDigits h
  simp only [longMin, longMax] at hlo hhi
  unfold intToString
  by_cases hneg : i < 0
  · have hs : readSign (('-' :: Nat.toDigits 10 i.natAbs ++ t :: rest).dropWhile isSpace) =
        (true, Nat.toDigits 10 i.natAbs ++ t :: rest) := by
      simp [List.dropWhile_cons_of_neg (by decide : ¬isSpace '-' = true), readSign]
    rw [if_pos hneg, strtol_tail ht _ hs (toDigits_ne_nil _) hall, digitsValue_toDigits]
    simp only [if_true, longMin, longMax, Prod.mk.injEq, and_true]
    omega
  · have h1 : d ≠ '-' := by rintro rfl; exact absurd hdig (by decide)
    have h2 : d ≠ '+' := by rintro rfl; exact absurd hdig (by decide)
    have hs : readSign ((Nat.toDigits 10 i.natAbs ++ t :: rest).dropWhile isSpace) =
        (false, Nat.toDigits 10 i.natAbs ++ t :: rest) := by
      rw [hd, List.cons_append, List.dropWhile_cons_of_neg (by simp [isSpace_of_isDigit hdig]),
        readSign_of_ne h1 h2]
    rw [if_neg hneg, strtol_tail ht _ hs (toDigits_ne_nil _) hall, digitsValue_toDigits]
    simp only [Bool.false_eq_true, if_false, longMin, longMax, Prod.mk.injEq, and_true]
    omega

end Mhm2Proxy.Istream
