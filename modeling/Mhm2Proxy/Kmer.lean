import Mathlib.Data.List.Basic

namespace Mhm2Proxy.Kmer

/-- A nucleotide of a packed k-mer. `Kmer<MAX_K>` stores two bits per base, so a k-mer
holds only these four letters; `N` never occurs in a k-mer or a uutig fragment. -/
inductive Base
  | A
  | C
  | G
  | T
  deriving DecidableEq, Repr

/-- `comp_nucleotide` of `utils.cpp` on the four letters a k-mer can hold. -/
def Base.comp : Base → Base
  | .A => .T
  | .C => .G
  | .G => .C
  | .T => .A

@[simp] theorem Base.comp_comp (b : Base) : b.comp.comp = b := by
  cases b <;> rfl

/-- The two-bit code of a base. -/
def Base.code : Base → Nat
  | .A => 0
  | .C => 1
  | .G => 2
  | .T => 3

theorem Base.code_injective {a b : Base} (h : a.code = b.code) : a = b := by
  cases a <;> cases b <;> first | rfl | exact absurd h (by decide)

/-- Modelled from the spec: `Kmer<MAX_K>::operator<` is not in the sources; the spec calls
the canonical form "the lexicographic min of itself and its reverse complement". -/
def lt : List Base → List Base → Bool
  | [], [] => false
  | [], _ :: _ => true
  | _ :: _, [] => false
  | a :: as, b :: bs => decide (a.code < b.code) || (decide (a = b) && lt as bs)

theorem lt_asymm {x y : List Base} (h : lt x y = true) : lt y x = false := by
  induction x generalizing y with
  | nil => cases y <;> simp_all [lt]
  | cons a x ih =>
      cases y with
      | nil => simp [lt] at h
      | cons b y =>
          simp only [lt, Bool.or_eq_true, decide_eq_true_eq, Bool.and_eq_true] at h ⊢
          rcases h with h | ⟨rfl, h⟩
          · have : ¬ b = a := fun e => by subst e; omega
            simp [this, show ¬ a.code < b.code → False from fun h' => h' h]
            omega
          · simp [ih h]

theorem lt_total {x y : List Base} (hx : lt x y = false) (hy : lt y x = false) : x = y := by
  induction x generalizing y with
  | nil => cases y <;> simp_all [lt]
  | cons a x ih =>
      cases y with
      | nil => simp [lt] at hy
      | cons b y =>
          simp only [lt, Bool.or_eq_false_iff, decide_eq_false_iff_not, Bool.and_eq_false_iff]
            at hx hy
          have hab : a = b := Base.code_injective (by omega)
          subst hab
          simp only [not_true_eq_false, false_or] at hx hy
          rw [ih hx.2 hy.2]

/-- `revcomp` of `utils.cpp` on a sequence over `A`, `C`, `G`, `T`. -/
def revcomp (s : List Base) : List Base :=
  (s.map Base.comp).reverse

@[simp] theorem revcomp_revcomp (s : List Base) : revcomp (revcomp s) = s := by
  simp [revcomp, List.map_reverse, List.map_map, Function.comp_def]

@[simp] theorem length_revcomp (s : List Base) : (revcomp s).length = s.length := by
  simp [revcomp]

/-- The canonical form of a k-mer: the code swaps a k-mer with its reverse complement
when `kmer_rc < kmer`. -/
def canonical (x : List Base) : List Base :=
  if lt (revcomp x) x then revcomp x else x

/-- Whether the canonical form is the reverse complement (`is_rc` of `get_next_step`). -/
def isRc (x : List Base) : Bool :=
  lt (revcomp x) x

theorem canonical_revcomp (x : List Base) : canonical (revcomp x) = canonical x := by
  unfold canonical
  rw [revcomp_revcomp]
  cases h : lt (revcomp x) x with
  | true => simp [lt_asymm h]
  | false =>
      cases h' : lt x (revcomp x) with
      | true => simp
      | false =>
          simp only [h, h', Bool.false_eq_true, if_false]
          exact (lt_total h' h).symm

theorem orient_canonical (x : List Base) :
    (if isRc x then revcomp (canonical x) else canonical x) = x := by
  unfold isRc canonical
  cases lt (revcomp x) x <;> simp

@[simp] theorem length_canonical (x : List Base) : (canonical x).length = x.length := by
  unfold canonical
  split <;> simp

/-- `Kmer::front()`; a k-mer is never empty, the default only makes the function total. -/
def front (x : List Base) : Base :=
  x.headD .A

/-- `Kmer::back()`. -/
def back (x : List Base) : Base :=
  x.getLastD .A

theorem dropLast_append_back {x : List Base} (hx : x ≠ []) : x.dropLast ++ [back x] = x := by
  rw [back, List.getLastD_eq_getLast?, List.getLast?_eq_getLast x hx, Option.getD_some,
    List.dropLast_concat_getLast hx]

/-- `Kmer::forward_base(b)`: drop the first base and append `b`. -/
def forwardBase (x : List Base) (b : Base) : List Base :=
  x.tail ++ [b]

/-- `Kmer::backward_base(b)`: prepend `b` and drop the last base. -/
def backwardBase (x : List Base) (b : Base) : List Base :=
  b :: x.dropLast

/-- `substr_view(kmer_str, 1, kmer_str.length() - 2)`: the bases strictly inside the k-mer. -/
def mid (x : List Base) : List Base :=
  (x.drop 1).take (x.length - 2)

/-- `Kmer::get_kmers`: every length-`k` window of a sequence, in order. -/
def windows (k : Nat) : List Base → List (List Base)
  | [] => []
  | a :: s => if k ≤ s.length + 1 then (a :: s).take k :: windows k s else []

theorem windows_eq_nil {k : Nat} {s : List Base} (h : s.length < k) : windows k s = [] := by
  cases s with
  | nil => rfl
  | cons a s => simp only [windows, List.length_cons] at h ⊢; simp [show ¬ k ≤ s.length + 1 by omega]

theorem windows_cons {k : Nat} {a : Base} {s : List Base} (h : k ≤ s.length + 1) :
    windows k (a :: s) = (a :: s).take k :: windows k s := by
  simp [windows, h]

theorem windows_of_length {k : Nat} {s : List Base} (hk : 0 < k) (h : s.length = k) :
    windows k s = [s] := by
  cases s with
  | nil => simp at h; omega
  | cons a t =>
      rw [windows_cons (by simp at h; omega), windows_eq_nil (by simp at h; omega)]
      simp [← h]

theorem windows_append (k : Nat) (hk : 0 < k) (p n : List Base) :
    windows k (p ++ n) = windows k (p ++ n.take (k - 1)) ++ windows k n := by
  induction p with
  | nil => simp [windows_eq_nil (show (n.take (k - 1)).length < k by simp; omega)]
  | cons a p ih =>
      rw [List.cons_append, List.cons_append]
      by_cases h : k ≤ (p ++ n).length + 1
      · have h' : k ≤ (p ++ n.take (k - 1)).length + 1 := by simp at h ⊢; omega
        rw [windows_cons h, windows_cons h', ih, List.cons_append]
        congr 1
        obtain ⟨j, rfl⟩ : ∃ j, k = j + 1 := ⟨k - 1, by omega⟩
        simp only [List.take_succ_cons, Nat.add_sub_cancel, List.take_append_eq_append_take,
          List.take_take]
        congr 3
        omega
      · rw [windows_eq_nil (by simp at h ⊢; omega), windows_eq_nil (by simp at h ⊢; omega),
          windows_eq_nil (by simp at h ⊢; omega)]
        rfl

theorem windows_append_singleton {k : Nat} (hk : 0 < k) (s : List Base) (b : Base)
    (h : k ≤ s.length + 1) :
    windows k (s ++ [b]) = windows k s ++ [(s ++ [b]).drop (s.length + 1 - k)] := by
  induction s with
  | nil =>
      obtain rfl : k = 1 := by simp at h; omega
      rfl
  | cons a s ih =>
      simp only [List.length_cons] at h
      rcases Nat.lt_or_ge (s.length + 1) k with hlt | hle
      · obtain rfl : k = s.length + 2 := by omega
        rw [List.cons_append, windows_cons (by simp), windows_eq_nil (by simp),
          windows_eq_nil (by simp)]
        simp
      · rw [List.cons_append, windows_cons (by simp; omega), ih hle, windows_cons hle,
          List.cons_append]
        obtain ⟨j, rfl⟩ : ∃ j, k = j + 1 := ⟨k - 1, by omega⟩
        rw [List.take_succ_cons, List.take_succ_cons,
          List.take_append_of_le_length (by omega), List.length_cons,
          show s.length + 1 + 1 - (j + 1) = (s.length + 1 - (j + 1)) + 1 by omega,
          List.drop_succ_cons]

theorem mem_windows_iff {k : Nat} (hk : 0 < k) {s x : List Base} :
    x ∈ windows k s ↔ x.length = k ∧ x <:+: s := by
  induction s with
  | nil =>
      simp only [windows, List.not_mem_nil, false_iff, List.infix_nil, not_and]
      rintro h rfl
      simp at h
      omega
  | cons a s ih =>
      rw [List.infix_cons_iff]
      by_cases h : k ≤ s.length + 1
      · rw [windows_cons h, List.mem_cons, ih, List.prefix_iff_eq_take]
        constructor
        · rintro (rfl | ⟨hl, hi⟩)
          · have hl : ((a :: s).take k).length = k := by simp; omega
            exact ⟨hl, .inl (by rw [hl])⟩
          · exact ⟨hl, .inr hi⟩
        · rintro ⟨hl, hp | hi⟩
          · exact .inl (by rw [hp, hl])
          · exact .inr ⟨hl, hi⟩
      · rw [windows_eq_nil (by simp; omega)]
        simp only [List.not_mem_nil, false_iff, not_and]
        rintro hl (hx | hx)
        · have := hx.length_le
          simp at this
          omega
        · have := hx.length_le
          omega

theorem IsInfix.revcomp {x s : List Base} (h : x <:+: s) : revcomp x <:+: revcomp s :=
  List.reverse_infix.2 (h.map Base.comp)

theorem mem_windows_revcomp {k : Nat} (hk : 0 < k) {s x : List Base} :
    x ∈ windows k (revcomp s) ↔ revcomp x ∈ windows k s := by
  rw [mem_windows_iff hk, mem_windows_iff hk, length_revcomp]
  refine and_congr_right fun _ => ⟨fun h => ?_, fun h => ?_⟩
  · simpa using IsInfix.revcomp h
  · simpa using IsInfix.revcomp h

theorem windows_overlap {k : Nat} (hk : 0 < k) (p o q : List Base) (ho : o.length = k - 1) :
    windows k (p ++ o ++ q) = windows k (p ++ o) ++ windows k (o ++ q) := by
  rw [List.append_assoc, windows_append k hk p (o ++ q), List.take_left' ho]

end Mhm2Proxy.Kmer
