import Mhm2Proxy.ConstructFrags

/-!
What a walk has spelled. A fragment is the sequence of the k-mers its walk claimed, glued
along their `k - 1` overlaps: its windows are the claimed k-mers in walk orientation. The
shapes below say how far the walk's next k-mer is ahead of the uutig, and the lemmas show
that each iteration keeps the shape and adds the claimed k-mer as one window.
-/

namespace Mhm2Proxy.WalkSpelling

open Mhm2Proxy.Kmer
open Mhm2Proxy.KmerIndex
open Mhm2Proxy.GetNextStep
open Mhm2Proxy.ConstructFrags

/-- The sequence a walk has spelled: the fragment it would store if it ended now. During the
LEFT call the uutig holds the claimed bases in reverse and the tail of the start k-mer is
still to come; before the RIGHT call's first claim, its last base is. -/
def spelled (w : Walk) : List Base :=
  match w.dirn with
  | .left => w.uutig.reverse ++ w.start.tail
  | .right => if w.state.revisitAllowed then w.uutig ++ [w.state.nextExt] else w.uutig

variable (k : Nat)

/-- The LEFT call is one base ahead of the spelled sequence: the k-mer to visit next is the
base to append followed by the first `k - 1` spelled bases. -/
def LeftShape (w : Walk) : Prop :=
  w.state.revisitAllowed = false ∧ w.state.kmer = (w.state.nextExt :: spelled w).take k

/-- The RIGHT call is either about to revisit its start, the uutig ending where the start
k-mer's last base goes, or its next k-mer is the last `k - 1` bases followed by the base to
append. -/
def RightShape (w : Walk) : Prop :=
  (w.state = rightStart w.start ∧ ∃ pre, w.uutig = pre ++ w.start.dropLast) ∨
    (w.state.revisitAllowed = false ∧ k - 1 ≤ w.uutig.length ∧
      w.state.kmer = w.uutig.drop (w.uutig.length - (k - 1)) ++ [w.state.nextExt])

/-- The shape of a walk in flight. -/
def Shape (w : Walk) : Prop :=
  w.start.length = k ∧
    match w.dirn with
    | .left => (∃ rest, w.uutig = front w.start :: rest) ∧ LeftShape k w
    | .right => RightShape k w

variable {k}

theorem start_ne_nil {w : Walk} (hk : 0 < k) (h : w.start.length = k) : w.start ≠ [] := by
  rintro hw
  simp [hw] at h
  omega

theorem leftShape_init (tok : GPtr) {kmer : List Base} (h : kmer.length = k) :
    LeftShape k (Walk.init tok kmer) := by
  subst h
  cases kmer with
  | nil => exact ⟨rfl, rfl⟩
  | cons a t => exact ⟨rfl, by simp [Walk.init, leftStart, spelled, front]⟩

private theorem dropLast_take_of_le {l : List Base} {n : Nat} (h : n ≤ l.length) :
    (l.take n).dropLast = l.take (n - 1) := by
  rw [List.dropLast_eq_take, List.take_take, List.length_take, Nat.min_eq_left h,
    Nat.min_eq_left (Nat.sub_le n 1)]

theorem spelled_length_left {w : Walk} (hd : w.dirn = .left) (h : w.start.length = k) :
    k - 1 ≤ (spelled w).length := by
  simp [spelled, hd, h]

theorem windows_spelled_claim_left {w : Walk} (hk : 0 < k) (hd : w.dirn = .left)
    (hs : LeftShape k w) (hlen : w.start.length = k) (count : Nat) (next : WalkState) :
    windows k (spelled (w.claim count w.state.nextExt next)) =
      w.state.kmer :: windows k (spelled w) := by
  have hsp : spelled (w.claim count w.state.nextExt next) = w.state.nextExt :: spelled w := by
    simp [spelled, Walk.claim, hd]
  rw [hsp, windows_cons (by have := spelled_length_left hd hlen; omega), ← hs.2]

theorem leftShape_claim {w : Walk} (hk : 0 < k) (hd : w.dirn = .left) (hs : LeftShape k w)
    (hlen : w.start.length = k) (count : Nat) (e : Base) :
    LeftShape k (w.claim count w.state.nextExt (advance .left w.state.kmer e)) := by
  have hsp : spelled (w.claim count w.state.nextExt (advance .left w.state.kmer e)) =
      w.state.nextExt :: spelled w := by
    simp [spelled, Walk.claim, hd]
  have hl := spelled_length_left hd hlen
  refine ⟨rfl, ?_⟩
  rw [hsp]
  show backwardBase w.state.kmer e = _
  rw [backwardBase, hs.2, dropLast_take_of_le (by simp; omega)]
  obtain ⟨j, rfl⟩ : ∃ j, k = j + 1 := ⟨k - 1, by omega⟩
  rfl

theorem windows_spelled_claim_right {w : Walk} (hk : 0 < k) (hd : w.dirn = .right)
    (hrv : w.state.revisitAllowed = false) (hl : k - 1 ≤ w.uutig.length)
    (hκ : w.state.kmer = w.uutig.drop (w.uutig.length - (k - 1)) ++ [w.state.nextExt])
    (count : Nat) (next : WalkState) (hnext : next.revisitAllowed = false) :
    windows k (spelled (w.claim count w.state.nextExt next)) =
      windows k (spelled w) ++ [w.state.kmer] := by
  simp only [spelled, Walk.claim, hd, hrv, hnext, Bool.false_eq_true, if_false]
  rw [windows_append_singleton hk _ _ (by omega), hκ,
    show w.uutig.length + 1 - k = w.uutig.length - (k - 1) by omega,
    List.drop_append_of_le_length (by omega)]

theorem rightShape_claim {w : Walk} (hk : 0 < k) (hl : k - 1 ≤ w.uutig.length)
    (hκ : w.state.kmer = w.uutig.drop (w.uutig.length - (k - 1)) ++ [w.state.nextExt])
    (count : Nat) (e : Base) :
    RightShape k (w.claim count w.state.nextExt (advance .right w.state.kmer e)) := by
  refine .inr ⟨rfl, by simp [Walk.claim]; omega, ?_⟩
  show forwardBase w.state.kmer e = _
  simp only [forwardBase, hκ, Walk.claim, List.length_append, List.length_singleton]
  rw [← List.drop_append_of_le_length (by omega), List.tail_drop]
  congr 3
  omega

theorem spelled_rightStart {w : Walk} (hd : w.dirn = .right) (hne : w.start ≠ [])
    (hst : w.state = rightStart w.start) {pre : List Base} (hu : w.uutig = pre ++ w.start.dropLast) :
    spelled w = pre ++ w.start := by
  simp only [spelled, hd, hst, rightStart, if_true, hu, List.append_assoc,
    dropLast_append_back hne]

theorem spelled_claim_revisit {w : Walk} (hk : 0 < k) (hd : w.dirn = .right)
    (hlen : w.start.length = k) (hst : w.state = rightStart w.start)
    (hpre : ∃ pre, w.uutig = pre ++ w.start.dropLast) (count : Nat) (e : Base) :
    spelled (w.claim count w.state.nextExt (advance .right w.state.kmer e)) = spelled w ∧
      RightShape k (w.claim count w.state.nextExt (advance .right w.state.kmer e)) := by
  obtain ⟨pre, hu⟩ := hpre
  have hne := start_ne_nil hk hlen
  have hspl : w.uutig ++ [back w.start] = pre ++ w.start := by
    rw [hu, List.append_assoc, dropLast_append_back hne]
  constructor
  · simp [spelled, Walk.claim, hd, hst, rightStart, advance]
  · refine .inr ⟨rfl, ?_, ?_⟩
    · simp only [Walk.claim, hst, rightStart, hspl, List.length_append, hlen]
      omega
    · show forwardBase w.state.kmer e = _
      simp only [Walk.claim, hst, rightStart, forwardBase, hspl, List.length_append, hlen]
      rw [show pre.length + k - (k - 1) = pre.length + 1 by omega, List.drop_append,
        List.drop_one]
      rfl

theorem rightShape_turn {w : Walk} (hu : ∃ rest, w.uutig = front w.start :: rest)
    (v : Option GPtr) : RightShape k (w.turn v) := by
  obtain ⟨rest, hu⟩ := hu
  refine .inl ⟨rfl, ?_⟩
  simp only [Walk.turn, hu, List.reverse_cons, List.append_assoc]
  match hs : w.start with
  | [] => exact ⟨_, (List.append_nil _).symm⟩
  | [a] => exact ⟨rest.reverse ++ [front [a]], by simp [mid]⟩
  | a :: b :: t =>
      refine ⟨rest.reverse, ?_⟩
      simp [front, mid, List.dropLast_eq_take]

theorem spelled_turn {w : Walk} (hk : 2 ≤ k) (hd : w.dirn = .left)
    (hlen : w.start.length = k) (v : Option GPtr) : spelled (w.turn v) = spelled w := by
  obtain ⟨a, t, hat⟩ : ∃ a t, w.start = a :: t := by
    cases h : w.start with
    | nil => exact absurd h (start_ne_nil (by omega) hlen)
    | cons a t => exact ⟨a, t, rfl⟩
  have htne : t ≠ [] := by
    rintro rfl
    simp [hat] at hlen
    omega
  have hmid : mid (a :: t) = t.dropLast := by
    simp [mid, List.dropLast_eq_take]
  have hback : back (a :: t) = t.getLast htne := by
    simp [back, List.getLast?_cons, List.getLast?_eq_getLast t htne]
  simp only [spelled, Walk.turn, hd, rightStart, if_true, hmid, hback, hat, List.tail_cons,
    List.append_assoc, List.dropLast_concat_getLast htne]

theorem spelled_turn_one {w : Walk} (hd : w.dirn = .left) (hlen : w.start.length = 1)
    (v : Option GPtr) : spelled (w.turn v) = spelled w ++ w.start := by
  match hs : w.start, hlen with
  | [a], _ => simp [spelled, Walk.turn, hd, hs, rightStart, mid, back]

theorem start_mem_windows {pre : List Base} {start : List Base} (hk : 0 < k)
    (hlen : start.length = k) : start ∈ windows k (pre ++ start) := by
  rw [windows_append k hk, windows_of_length hk hlen]
  exact List.mem_append_right _ (List.mem_singleton_self _)

theorem claim_init (hk : 0 < k) (tok : GPtr) {kmer : List Base} (hlen : kmer.length = k)
    (count : Nat) (e : Base) :
    spelled ((Walk.init tok kmer).claim count (front kmer) (advance .left kmer e)) = kmer ∧
      Shape k ((Walk.init tok kmer).claim count (front kmer) (advance .left kmer e)) := by
  have hl0 := leftShape_init tok hlen
  refine ⟨?_, hlen, ⟨[], rfl⟩, leftShape_claim (by omega) rfl hl0 hlen count e⟩
  cases kmer with
  | nil => simp at hlen; omega
  | cons a t => rfl

theorem start_mem_spelled {w : Walk} (hk : 0 < k) (hd : w.dirn = .right)
    (hlen : w.start.length = k) (hst : w.state = rightStart w.start)
    (hpre : ∃ pre, w.uutig = pre ++ w.start.dropLast) : w.start ∈ windows k (spelled w) := by
  obtain ⟨pre, hu⟩ := hpre
  rw [spelled_rightStart hd (start_ne_nil hk hlen) hst hu]
  exact start_mem_windows hk hlen

theorem shape_claim (hk : 0 < k) {w : Walk} (hs : Shape k w) (count : Nat) (e : Base) :
    Shape k (w.claim count w.state.nextExt (advance w.dirn w.state.kmer e)) ∧
      ((w.state.revisitAllowed = false ∧
          (windows k (spelled (w.claim count w.state.nextExt
            (advance w.dirn w.state.kmer e)))).Perm (w.state.kmer :: windows k (spelled w))) ∨
        (w.state.kmer ∈ windows k (spelled w) ∧
          spelled (w.claim count w.state.nextExt (advance w.dirn w.state.kmer e)) = spelled w)) := by
  obtain ⟨hlen, hs⟩ := hs
  unfold Shape
  rw [Walk.claim_dirn, Walk.claim_start]
  cases hd : w.dirn with
  | left =>
      rw [hd] at hs
      obtain ⟨⟨rest, hu⟩, hl⟩ := hs
      refine ⟨⟨hlen, ⟨rest ++ [w.state.nextExt], by simp [hu]⟩,
        leftShape_claim hk hd hl hlen count e⟩, .inl ⟨hl.1, ?_⟩⟩
      rw [windows_spelled_claim_left hk hd hl hlen]
  | right =>
      rw [hd] at hs
      rcases hs with ⟨hst, hpre⟩ | ⟨hrv, hl, hκ⟩
      · obtain ⟨hsp, hr⟩ := spelled_claim_revisit hk hd hlen hst hpre count e
        refine ⟨⟨hlen, hr⟩, .inr ⟨?_, hsp⟩⟩
        rw [hst]
        exact start_mem_spelled hk hd hlen hst hpre
      · refine ⟨⟨hlen, rightShape_claim hk hl hκ count e⟩, .inl ⟨hrv, ?_⟩⟩
        rw [windows_spelled_claim_right hk hd hrv hl hκ count _ rfl]
        exact List.perm_append_singleton _ _

end Mhm2Proxy.WalkSpelling
