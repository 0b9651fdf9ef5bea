import Mhm2Proxy.CleanLinks
import Mhm2Proxy.ContigsFile
import Mathlib.Algebra.Order.Ring.Nat
import Mathlib.Data.Rat.Defs

/-!
`connect_frags`. Each process walks from each of its fragments along the cleaned links, in
both directions, and glues the neighbours' sequences onto the uutig along their `k - 1`
overlaps. A process changes only the `visited` flags of its own fragments and reads no other
process's flags, so the processes run independently here.
-/

namespace Mhm2Proxy.ConnectFrags

open Mhm2Proxy.Kmer
open Mhm2Proxy.GetNextStep
open Mhm2Proxy.ConstructFrags
open Mhm2Proxy.CleanLinks

/-- `get_other_side_gptr`: the link of `fragElem` that does not lead back to `prev`. -/
def getOtherSideGptr (fragElem : FragElem) (prev : GPtr) : Option GPtr :=
  if fragElem.leftGptr = some prev then fragElem.rightGptr else fragElem.leftGptr

/-- The direction a walk takes from its first neighbour's overlap (`dirn` is `NONE` before):
right when the uutig ends with the neighbour's start, left when the neighbour ends with the
uutig's start, forward before reverse complemented. -/
def chooseDirn (uutig nbSeq : List Base) (overlapLen : Nat) : Except Fault Dirn :=
  match isOverlap uutig nbSeq overlapLen, isOverlap nbSeq uutig overlapLen with
  | .error e, _ => .error e
  | .ok true, _ => .ok .right
  | .ok false, .error e => .error e
  | .ok false, .ok true => .ok .left
  | .ok false, .ok false =>
      match isOverlap uutig (revcomp nbSeq) overlapLen,
          isOverlap (revcomp nbSeq) uutig overlapLen with
      | .error e, _ => .error e
      | .ok true, _ => .ok .right
      | .ok false, .error e => .error e
      | .ok false, .ok true => .ok .left
      | .ok false, .ok false => .error (.die "No overlap")

/-- The uutig with the neighbour glued on in direction `dirn`, forward if it overlaps and
else reverse complemented: on the left its first `length - k + 1` bases go in front, on the
right its bases after the first `k - 1` go behind. -/
def join (dirn : Dirn) (uutig nbSeq : List Base) (kmerLen : Nat) : Except Fault (List Base) :=
  match dirn with
  | .left =>
      match isOverlap nbSeq uutig (kmerLen - 1) with
      | .error e => .error e
      | .ok true => .ok (nbSeq.take (nbSeq.length + 1 - kmerLen) ++ uutig)
      | .ok false =>
          match isOverlap (revcomp nbSeq) uutig (kmerLen - 1) with
          | .error e => .error e
          | .ok true => .ok ((revcomp nbSeq).take (nbSeq.length + 1 - kmerLen) ++ uutig)
          | .ok false => .error (.die "No valid overlap in dirn left")
  | .right =>
      match isOverlap uutig nbSeq (kmerLen - 1) with
      | .error e => .error e
      | .ok true => .ok (uutig ++ nbSeq.drop (kmerLen - 1))
      | .ok false =>
          match isOverlap uutig (revcomp nbSeq) (kmerLen - 1) with
          | .error e => .error e
          | .ok true => .ok (uutig ++ (revcomp nbSeq).drop (kmerLen - 1))
          | .ok false => .error (.die "No valid overlap in dirn right")

theorem isOverlap_eq_true {l r : List Base} {n : Nat} (h : isOverlap l r n = .ok true) :
    n ≤ l.length ∧ l.drop (l.length - n) = r.take n := by
  unfold isOverlap at h
  split at h
  · cases h
  · simp only [Except.ok.injEq, decide_eq_true_eq] at h
    exact ⟨by omega, h⟩

section Glue

variable {k : Nat} (hk : 0 < k) {l r : List Base} (h : isOverlap l r (k - 1) = .ok true)
include hk h

theorem take_append_of_overlap : l.take (l.length + 1 - k) ++ r = l ++ r.drop (k - 1) := by
  obtain ⟨hl, ho⟩ := isOverlap_eq_true h
  rw [show l.length + 1 - k = l.length - (k - 1) by omega]
  conv_rhs => rw [← List.take_append_drop (l.length - (k - 1)) l, ho, List.append_assoc,
    List.take_append_drop]

theorem windows_glue : windows k (l ++ r.drop (k - 1)) = windows k l ++ windows k r := by
  obtain ⟨hl, ho⟩ := isOverlap_eq_true h
  have hlen : (l.drop (l.length - (k - 1))).length = k - 1 := by simp; omega
  have := windows_overlap hk (l.take (l.length - (k - 1))) _ (r.drop (k - 1)) hlen
  rwa [List.take_append_drop, ho, List.take_append_drop] at this

end Glue

theorem join_eq_ok {dirn : Dirn} {u v u' : List Base} {k : Nat} (hk : 0 < k)
    (h : join dirn u v k = .ok u') :
    ∃ v', (v' = v ∨ v' = revcomp v) ∧
      ((isOverlap u v' (k - 1) = .ok true ∧ u' = u ++ v'.drop (k - 1)) ∨
        (isOverlap v' u (k - 1) = .ok true ∧ u' = v' ++ u.drop (k - 1))) := by
  cases dirn with
  | left =>
      dsimp only [join] at h
      split at h
      · cases h
      · next ho =>
        cases h
        exact ⟨v, .inl rfl, .inr ⟨ho, take_append_of_overlap hk ho⟩⟩
      · split at h
        · cases h
        · next ho =>
          cases h
          refine ⟨revcomp v, .inr rfl, .inr ⟨ho, ?_⟩⟩
          rw [← take_append_of_overlap hk ho, length_revcomp]
        · cases h
  | right =>
      dsimp only [join] at h
      split at h
      · cases h
      · next ho =>
        cases h
        exact ⟨v, .inl rfl, .inl ⟨ho, rfl⟩⟩
      · split at h
        · cases h
        · next ho =>
          cases h
          exact ⟨revcomp v, .inr rfl, .inl ⟨ho, rfl⟩⟩
        · cases h

theorem windows_join {dirn : Dirn} {u v u' : List Base} {k : Nat} (hk : 0 < k)
    (h : join dirn u v k = .ok u') :
    ∃ v', (v' = v ∨ v' = revcomp v) ∧
      ∀ x ∈ windows k u', x ∈ windows k u ∨ x ∈ windows k v' := by
  obtain ⟨v', hv', ⟨ho, rfl⟩ | ⟨ho, rfl⟩⟩ := join_eq_ok hk h
  · refine ⟨v', hv', fun x hx => ?_⟩
    rwa [windows_glue hk ho, List.mem_append] at hx
  · refine ⟨v', hv', fun x hx => ?_⟩
    rw [windows_glue hk ho, List.mem_append] at hx
    exact hx.symm

/-- The variables a walk of `connect_frags` updates: the uutig, `depths`, and
`my_frag_elems_visited`, the local fragments it went through. -/
structure WalkAcc where
  uutig : List Base
  depths : Int
  myVisited : List GPtr
  deriving DecidableEq, Repr

/-- The depth a neighbour adds: its `sum_depths` times `1.0 - (kmer_len - 1) / frag_len`,
where the quotient is unsigned division. -/
def depthOf (kmerLen : Nat) (nb : FragElem) : Int :=
  nb.sumDepths * (1 - ((kmerLen - 1) / nb.fragSeq.length : Nat))

/-- `my_frag_elems_visited` after the walk reaches `g` on process `r`: a local fragment is
recorded. -/
def noteVisited (r : Nat) (g : GPtr) (myVisited : List GPtr) : List GPtr :=
  if g.rank = r then myVisited ++ [g] else myVisited

variable (kmerLen : Nat) (F : Frags) (r : Nat)

/-- The loop of `walk_frags_dirn` on process `r`, from `prev` to `next`: `false` when it steps
towards a higher rank (the walk is dropped), `true` at a pointer it visited already or at a
missing link. Each turn visits a new pointer; `fuel` bounds the turns, and `none` is the
model running out of it. -/
def walkLoop : Nat → GPtr → Option GPtr → Option Dirn → List GPtr → WalkAcc →
    Option (Except Fault (Bool × WalkAcc))
  | 0, _, _, _, _, _ => none
  | fuel + 1, prev, next, dirn, visited, acc =>
      match next with
      | none => some (.ok (true, acc))
      | some g =>
          if r < g.rank then some (.ok (false, acc))
          else if g ∈ visited then some (.ok (true, acc))
          else
            match fetch F g with
            | .error e => some (.error e)
            | .ok nb =>
                if g.rank = r ∧ nb.visited = true then some (.error (.alreadyVisited g))
                else
                  match dirn.elim (chooseDirn acc.uutig nb.fragSeq (kmerLen - 1)) .ok with
                  | .error e => some (.error e)
                  | .ok d =>
                      match join d acc.uutig nb.fragSeq kmerLen with
                      | .error e => some (.error e)
                      | .ok u =>
                          walkLoop fuel g (getOtherSideGptr nb prev) (some d) (g :: visited)
                            ⟨u, acc.depths + depthOf kmerLen nb, noteVisited r g acc.myVisited⟩

/-- The number of fragments on processes `0, …, r`: a walk of process `r` visits each at
most once. -/
def fragCount : Nat :=
  ((List.range (r + 1)).map fun q => (F q).length).sum

/-- `walk_frags_dirn` from the fragment `fragElemGptr` along the link `nextGptr`. -/
def walkFragsDirn (fragElemGptr : GPtr) (nextGptr : Option GPtr) (acc : WalkAcc) :
    Option (Except Fault (Bool × WalkAcc)) :=
  walkLoop kmerLen F r (fragCount F r + 1) fragElemGptr nextGptr none [fragElemGptr] acc

/-- A uutig as `connect_frags` adds it to `my_uutigs`, before `traverse_debruijn_graph`
numbers it: its sequence, the `depths` of its walks, and the divisor of its depth,
`uutig.length() - kmer_len + 2`. -/
structure Uutig where
  seq : List Base
  depths : Int
  kmerSpan : Nat
  deriving DecidableEq, Repr

/-- The depth the code stores, `(double)depths / (uutig.length() - kmer_len + 2)`, as an
exact quotient. -/
def Uutig.depth (u : Uutig) : ℚ :=
  u.depths / u.kmerSpan

/-- The local fragments a successful walk went through, marked `visited`. -/
def markVisited (F : Frags) : List GPtr → Frags
  | [] => F
  | g :: gs =>
      match (F g.rank).get? g.idx with
      | some f => markVisited (setFrag F g.rank g.idx { f with visited := true }) gs
      | none => markVisited F gs

/-- The loop of `connect_frags` on process `r` over the positions `is` of its fragments: the
uutigs it adds, in order. A fragment shorter than `k` or visited is skipped; a dropped walk
adds nothing. -/
def connectLoop (F : Frags) : List Nat → Option (Except Fault (List Uutig))
  | [] => some (.ok [])
  | i :: is =>
      match (F r).get? i with
      | none => connectLoop F is
      | some f =>
          if f.fragSeq.length < kmerLen ∨ f.visited = true then connectLoop F is
          else
            match walkFragsDirn kmerLen F r ⟨r, i⟩ f.leftGptr ⟨f.fragSeq, f.sumDepths, []⟩ with
            | none => none
            | some (.error e) => some (.error e)
            | some (.ok (false, _)) => connectLoop F is
            | some (.ok (true, acc)) =>
                match walkFragsDirn kmerLen F r ⟨r, i⟩ f.rightGptr acc with
                | none => none
                | some (.error e) => some (.error e)
                | some (.ok (false, _)) => connectLoop F is
                | some (.ok (true, acc)) =>
                    match connectLoop (markVisited F acc.myVisited) is with
                    | some (.ok us) =>
                        some (.ok (⟨acc.uutig, acc.depths, acc.uutig.length + 2 - kmerLen⟩ :: us))
                    | other => other

theorem fragSeqs_markVisited (F : Frags) (gs : List GPtr) (q : Nat) :
    (markVisited F gs q).map FragElem.fragSeq = (F q).map FragElem.fragSeq := by
  induction gs generalizing F with
  | nil => rfl
  | cons g gs ih =>
      cases hf : (F g.rank).get? g.idx with
      | none => simp only [markVisited, hf]; exact ih F
      | some f => simp only [markVisited, hf]; rw [ih, fragSeqs_setFrag hf (by rfl)]

/-- `connect_frags` on process `r`. -/
def connectFrags : Option (Except Fault (List Uutig)) :=
  connectLoop kmerLen r F (List.range (F r).length)

variable {kmerLen F r} in
theorem walkLoop_succ_ok {fuel : Nat} {prev : GPtr} {next : Option GPtr} {dirn : Option Dirn}
    {visited : List GPtr} {acc : WalkAcc} {b : Bool} {acc' : WalkAcc}
    (h : walkLoop kmerLen F r (fuel + 1) prev next dirn visited acc = some (.ok (b, acc'))) :
    acc' = acc ∨ ∃ g nb d u, fetch F g = .ok nb ∧ join d acc.uutig nb.fragSeq kmerLen = .ok u ∧
      walkLoop kmerLen F r fuel g (getOtherSideGptr nb prev) (some d) (g :: visited)
        ⟨u, acc.depths + depthOf kmerLen nb, noteVisited r g acc.myVisited⟩ =
          some (.ok (b, acc')) := by
  unfold walkLoop at h
  split at h
  · cases h; exact .inl rfl
  split at h
  · cases h; exact .inl rfl
  split at h
  · cases h; exact .inl rfl
  split at h
  · cases h
  next nb hfetch =>
  split at h
  · cases h
  split at h
  · cases h
  next d _ =>
  split at h
  · cases h
  next u hjoin => exact .inr ⟨_, nb, d, u, hfetch, hjoin, h⟩

/-- The pointers to the fragments of processes `0, …, r`, the ones a walk of process `r` can
visit. -/
def fragPtrs : List GPtr :=
  (List.range (r + 1)).flatMap fun q => (List.range (F q).length).map fun i => ⟨q, i⟩

section Fuel

variable {kmerLen F r}

theorem length_fragPtrs : (fragPtrs F r).length = fragCount F r := by
  simp [fragPtrs, fragCount, List.length_flatMap, Function.comp_def]

theorem mem_fragPtrs {g : GPtr} : g ∈ fragPtrs F r ↔ g.rank ≤ r ∧ g.idx < (F g.rank).length := by
  simp only [fragPtrs, List.mem_flatMap, List.mem_range, List.mem_map]
  constructor
  · rintro ⟨q, hq, i, hi, rfl⟩
    exact ⟨Nat.lt_succ_iff.1 hq, hi⟩
  · exact fun ⟨hq, hi⟩ => ⟨g.rank, Nat.lt_succ_iff.2 hq, g.idx, hi, rfl⟩

theorem mem_fragPtrs_of_fetch {g : GPtr} {nb : FragElem} (hr : g.rank ≤ r)
    (h : fetch F g = .ok nb) : g ∈ fragPtrs F r := by
  unfold fetch at h
  split at h
  · next hf => exact mem_fragPtrs.2 ⟨hr, (List.get?_eq_some.1 hf).1⟩
  · cases h

theorem walkLoop_succ_cases (fuel : Nat) (prev : GPtr) (next : Option GPtr) (dirn : Option Dirn)
    (visited : List GPtr) (acc : WalkAcc) :
    (∃ res, walkLoop kmerLen F r (fuel + 1) prev next dirn visited acc = some res) ∨
      ∃ g ∉ visited, g ∈ fragPtrs F r ∧ ∃ next' dirn' acc',
        walkLoop kmerLen F r (fuel + 1) prev next dirn visited acc =
          walkLoop kmerLen F r fuel g next' dirn' (g :: visited) acc' := by
  rw [walkLoop.eq_def]
  dsimp only
  split
  · exact .inl ⟨_, rfl⟩
  rename_i g
  split_ifs with hr hv
  · exact .inl ⟨_, rfl⟩
  · exact .inl ⟨_, rfl⟩
  split
  · exact .inl ⟨_, rfl⟩
  next nb hfetch =>
  split_ifs
  · exact .inl ⟨_, rfl⟩
  split
  · exact .inl ⟨_, rfl⟩
  split
  · exact .inl ⟨_, rfl⟩
  exact .inr ⟨g, hv, mem_fragPtrs_of_fetch (Nat.le_of_not_lt hr) hfetch, _, _, _, rfl⟩

/-- The walk never runs out of fuel while the fragments it has not visited are fewer than the
turns it has left: each turn visits a new one. -/
theorem walkLoop_ne_none :
    ∀ (fuel : Nat) (prev : GPtr) (next : Option GPtr) (dirn : Option Dirn) (visited : List GPtr)
      (acc : WalkAcc), visited.Nodup → (∀ g ∈ visited, g ∈ fragPtrs F r) →
      fragCount F r < fuel + visited.length →
      walkLoop kmerLen F r fuel prev next dirn visited acc ≠ none
  | 0, _, _, _, visited, _, hnd, hsub, hlt => by
      have := (hnd.subperm hsub).length_le
      rw [length_fragPtrs] at this
      omega
  | fuel + 1, prev, next, dirn, visited, acc, hnd, hsub, hlt => by
      rcases walkLoop_succ_cases fuel prev next dirn visited acc with
        ⟨res, h⟩ | ⟨g, hg, hgF, next', dirn', acc', h⟩
      · exact h ▸ Option.some_ne_none res
      · rw [h]
        exact walkLoop_ne_none fuel g next' dirn' (g :: visited) acc' (List.nodup_cons.2 ⟨hg, hnd⟩)
          (List.forall_mem_cons.2 ⟨hgF, hsub⟩) (by rw [List.length_cons]; omega)

theorem walkFragsDirn_ne_none {i : Nat} (hi : i < (F r).length) (next : Option GPtr)
    (acc : WalkAcc) : walkFragsDirn kmerLen F r ⟨r, i⟩ next acc ≠ none :=
  walkLoop_ne_none _ _ _ _ _ _ (List.nodup_singleton _)
    (fun g hg => by rw [List.mem_singleton.1 hg]; exact mem_fragPtrs.2 ⟨le_rfl, hi⟩)
    (by rw [List.length_singleton]; omega)

/-- The loop of `connect_frags` always returns, whatever the fragments: the model's fuel never
runs out, so a result of `none` never stands for a run of the code. -/
theorem connectLoop_ne_none : ∀ (is : List Nat) (F : Frags), connectLoop kmerLen r F is ≠ none
  | [], _ => Option.some_ne_none _
  | i :: is, F => by
      unfold connectLoop
      split
      · exact connectLoop_ne_none is F
      next f hf =>
      have hi : i < (F r).length := (List.get?_eq_some.1 hf).1
      split_ifs
      · exact connectLoop_ne_none is F
      split
      · next h => exact absurd h (walkFragsDirn_ne_none hi _ _)
      · exact Option.some_ne_none _
      · exact connectLoop_ne_none is F
      split
      · next h => exact absurd h (walkFragsDirn_ne_none hi _ _)
      · exact Option.some_ne_none _
      · exact connectLoop_ne_none is F
      split
      · exact Option.some_ne_none _
      · exact connectLoop_ne_none is _

/-- `connect_frags` on process `r` always returns, whatever the fragments and their links. -/
theorem connectFrags_ne_none : connectFrags kmerLen F r ≠ none :=
  connectLoop_ne_none _ _

end Fuel

section Windows

variable {kmerLen r} {P : List Base → Prop} (hk : 0 < kmerLen) (hP : ∀ x, P x → P (revcomp x))
include hk hP

theorem walkLoop_windows {F : Frags}
    (hF : ∀ q, ∀ v ∈ (F q).map FragElem.fragSeq, ∀ x ∈ windows kmerLen v, P x) :
    ∀ fuel prev next dirn visited acc b acc',
      walkLoop kmerLen F r fuel prev next dirn visited acc = some (.ok (b, acc')) →
      (∀ x ∈ windows kmerLen acc.uutig, P x) → ∀ x ∈ windows kmerLen acc'.uutig, P x
  | 0, _, _, _, _, _, _, _, h, _ => nomatch h
  | fuel + 1, prev, next, dirn, visited, acc, b, acc', h, hacc => by
      rcases walkLoop_succ_ok h with rfl | ⟨g, nb, d, u, hfetch, hjoin, h⟩
      · exact hacc
      refine walkLoop_windows hF fuel _ _ _ _ _ b acc' h fun x hx => ?_
      have hnb := List.mem_map_of_mem FragElem.fragSeq (mem_of_fetch hfetch)
      obtain ⟨v', hv', hw⟩ := windows_join hk hjoin
      rcases hw x hx with hx | hx
      · exact hacc x hx
      · rcases hv' with rfl | rfl
        · exact hF _ _ hnb x hx
        · simpa using hP _ (hF _ _ hnb _ ((mem_windows_revcomp hk).1 hx))

/-- Every window of every uutig `connect_frags` adds has the property `P`, if every window of
every fragment has it. -/
theorem connectLoop_windows :
    ∀ (is : List Nat) (F : Frags),
      (∀ q, ∀ v ∈ (F q).map FragElem.fragSeq, ∀ x ∈ windows kmerLen v, P x) →
      ∀ us, connectLoop kmerLen r F is = some (.ok us) →
      ∀ u ∈ us, ∀ x ∈ windows kmerLen u.seq, P x
  | [], _, _, us, h => by cases h; simp
  | i :: is, F, hF, us, h => by
      unfold connectLoop at h
      split at h
      · exact connectLoop_windows is F hF us h
      next f hf =>
      have hstart : ∀ x ∈ windows kmerLen f.fragSeq, P x :=
        hF r _ (List.mem_map_of_mem _ (List.get?_mem hf))
      split at h
      · exact connectLoop_windows is F hF us h
      split at h
      · cases h
      · cases h
      · exact connectLoop_windows is F hF us h
      next acc hl =>
      split at h
      · cases h
      · cases h
      · exact connectLoop_windows is F hF us h
      next acc' hr =>
      have hF' : ∀ q, ∀ v ∈ (markVisited F acc'.myVisited q).map FragElem.fragSeq,
          ∀ x ∈ windows kmerLen v, P x := fun q => by
        rw [fragSeqs_markVisited]
        exact hF q
      split at h
      · next us' hus =>
        cases h
        intro u hu
        rcases List.mem_cons.1 hu with rfl | hu
        · exact walkLoop_windows hk hP hF _ _ _ _ _ _ _ _ hr
            (walkLoop_windows hk hP hF _ _ _ _ _ _ _ _ hl hstart)
        · exact connectLoop_windows is _ hF' us' hus u hu
      · next other hne => exact absurd h (hne us)

end Windows

section Depths

theorem depthOf_of_le {kmerLen : Nat} {nb : FragElem} (hk : 0 < kmerLen)
    (h : kmerLen ≤ nb.fragSeq.length) : depthOf kmerLen nb = nb.sumDepths := by
  rw [depthOf, Nat.div_eq_of_lt (by omega)]
  simp

theorem walkLoop_depths {kmerLen : Nat} {F : Frags} (hk : 0 < kmerLen)
    (hF : ∀ q, ∀ f ∈ F q, kmerLen ≤ f.fragSeq.length) :
    ∀ fuel prev next dirn visited acc b acc',
      walkLoop kmerLen F r fuel prev next dirn visited acc = some (.ok (b, acc')) →
      ∃ nbs : List FragElem, (∀ nb ∈ nbs, ∃ q, nb ∈ F q) ∧
        acc'.depths = acc.depths + (nbs.map fun nb => (nb.sumDepths : Int)).sum
  | 0, _, _, _, _, _, _, _, h => nomatch h
  | fuel + 1, prev, next, dirn, visited, acc, b, acc', h => by
      rcases walkLoop_succ_ok h with rfl | ⟨g, nb, d, u, hfetch, -, h⟩
      · exact ⟨[], by simp, by simp⟩
      obtain ⟨nbs, hnbs, hd⟩ := walkLoop_depths hk hF fuel _ _ _ _ _ b acc' h
      have hnb := mem_of_fetch hfetch
      refine ⟨nb :: nbs, List.forall_mem_cons.2 ⟨⟨_, hnb⟩, hnbs⟩, ?_⟩
      rw [hd, depthOf_of_le hk (hF _ _ hnb), List.map_cons, List.sum_cons, Int.add_assoc]

/-- Modelled from the spec: the `depths` of a contig joined from the fragment `start` and the
`others` of its chain, each of these weighted by `1 - (k - 1) / frag_len` over the rationals,
and the sum truncated towards zero after each addition, as the `int64_t` keeps it. -/
def weightedDepths (kmerLen : Nat) (start : FragElem) (others : List FragElem) : Int :=
  others.foldl (fun d g =>
    let q : ℚ := d + g.sumDepths * (1 - (kmerLen - 1 : ℚ) / g.fragSeq.length)
    q.num.tdiv q.den) start.sumDepths

/-- `AC` with `sum_depths` 2, its right link to `CG`. -/
def fragAC : FragElem := ⟨none, some ⟨0, 1⟩, false, false, [.A, .C], 2, false⟩

/-- `CG` with `sum_depths` 2, its left link back to `AC`. -/
def fragCG : FragElem := ⟨some ⟨0, 0⟩, none, false, false, [.C, .G], 2, false⟩

/-- The chain `AC`, `CG` on process 0, for `k = 2`. -/
def acgChain : Frags := fun r => if r = 0 then [fragAC, fragCG] else []

/-- On the chain `AC`, `CG` at `k = 2` the contig `ACG` gets depth `4 / 3`: `CG` adds all of its
`sum_depths`. Weighted by `1 - 1 / 2`, as meant, it adds half of it, and the depth is `1`. -/
theorem overlap_weight_dropped :
    ∃ u, connectFrags 2 acgChain 0 = some (.ok [u]) ∧ u.seq = [.A, .C, .G] ∧ u.depth = 4 / 3 ∧
      (weightedDepths 2 fragAC [fragCG] : ℚ) / u.kmerSpan = 1 :=
  ⟨_, rfl, rfl, by with_unfolding_all rfl, by with_unfolding_all rfl⟩

end Depths

section ReverseComplements

open ContigsFile (swapBases revcomp_eq_swapBases swapBases_reverse_mem swapBases_injective)

/-- On sequences over `A`, `C`, `G`, `T` and `N`, the `revcomp` of `utils.cpp` is an
involution that keeps the length, and `b` reverse complemented overlaps `a` reverse
complemented exactly as `a` overlaps `b`: the forward and reverse complemented tests of
`set_link_status` and `walk_frags_dirn` agree. -/
theorem revcomp_overlap_symm (s a b : List Char) (o : Nat)
    (hs : ∀ c ∈ s, c ∈ ['A', 'C', 'G', 'T', 'N']) (ha : ∀ c ∈ a, c ∈ ['A', 'C', 'G', 'T', 'N'])
    (hb : ∀ c ∈ b, c ∈ ['A', 'C', 'G', 'T', 'N']) (ho : o ≤ min a.length b.length) :
    (∃ rs, ContigsFile.revcomp s = .ok rs ∧ rs.length = s.length ∧
        ContigsFile.revcomp rs = .ok s) ∧
      ∃ ra rb, ContigsFile.revcomp a = .ok ra ∧ ContigsFile.revcomp b = .ok rb ∧
        isOverlap rb ra o = isOverlap a b o := by
  refine ⟨⟨_, revcomp_eq_swapBases hs, by simp, ?_⟩,
    ⟨_, _, revcomp_eq_swapBases ha, revcomp_eq_swapBases hb,
      isOverlap_reverse_map swapBases_injective (by omega) (by omega)⟩⟩
  rw [revcomp_eq_swapBases (swapBases_reverse_mem hs)]
  simp [List.map_reverse, Function.comp_def]

theorem revcomp_overlap_symm_ACN :
    ((∀ c ∈ ['A', 'C', 'N'], c ∈ ['A', 'C', 'G', 'T', 'N']) ∧ 2 ≤ min 3 3) ∧
      ∃ ra rb, ContigsFile.revcomp ['A', 'C', 'G'] = .ok ra ∧
        ContigsFile.revcomp ['C', 'G', 'T'] = .ok rb ∧ isOverlap rb ra 2 = .ok true :=
  ⟨⟨by decide, by decide⟩,
    (revcomp_overlap_symm ['A', 'C', 'N'] ['A', 'C', 'G'] ['C', 'G', 'T'] 2 (by decide)
      (by decide) (by decide) (by decide)).2⟩

end ReverseComplements

section Sides

/-- Modelled from the spec: what `clean_frag_links` is meant to leave on the link of the
fragment `f` at `g` on side `dirn`: no link, or a link to a fragment that overlaps `f` by
`k - 1` on that side, forward with its facing link back to `g`, or reverse complemented with
its other link back to `g`. -/
def LinkCleaned (kmerLen : Nat) (F : Frags) (g : GPtr) (f : FragElem) (dirn : Dirn) : Prop :=
  match (match dirn with | .left => f.leftGptr | .right => f.rightGptr) with
  | none => True
  | some h =>
      ∃ nb, fetch F h = .ok nb ∧
        ((overlapOn dirn nb.fragSeq f.fragSeq (kmerLen - 1) = .ok true ∧ facing dirn nb = some g) ∨
          (overlapOn dirn (revcomp nb.fragSeq) f.fragSeq (kmerLen - 1) = .ok true ∧
            facingRc dirn nb = some g))

/-- Modelled from the spec: a fragment graph as link cleaning is meant to leave it, with two
different links on each fragment that has a left one, and every link reciprocal and overlapping
on its own side. -/
def GraphCleaned (kmerLen : Nat) (F : Frags) : Prop :=
  ∀ r i f, (F r).get? i = some f → (f.leftGptr = none ∨ f.leftGptr ≠ f.rightGptr) ∧
    LinkCleaned kmerLen F ⟨r, i⟩ f .left ∧ LinkCleaned kmerLen F ⟨r, i⟩ f .right

/-- Two fragments on process 0 at `k = 2`: `AC`, whose left link goes to `CA`, and `CA`, whose
right link comes back. `CA` ends with the `A` that starts `AC`, and starts with the `C` that
ends it. -/
def acPair : Frags := fun r =>
  if r = 0 then
    [⟨some ⟨0, 1⟩, none, false, false, [.A, .C], 1, false⟩,
      ⟨none, some ⟨0, 0⟩, false, false, [.C, .A], 1, false⟩]
  else []

/-- The left walk from `AC` along its left link, to `CA`, appends where it should prepend:
`chooseDirn` tries the right side first and finds the overlap there too, so the uutig is
`ACA`, which does not end with `AC`, and not `CAC`. -/
theorem left_walk_appends :
    GraphCleaned 2 acPair ∧
      walkFragsDirn 2 acPair 0 ⟨0, 0⟩ (some ⟨0, 1⟩) ⟨[.A, .C], 1, []⟩ =
        some (.ok (true, ⟨[.A, .C, .A], 2, [⟨0, 1⟩]⟩)) ∧
      ¬ [Base.A, .C] <:+ [.A, .C, .A] := by
  refine ⟨fun r i f h => ?_, rfl, by decide⟩
  rcases r with _ | r
  · rcases i with _ | _ | i
    · cases h
      exact ⟨.inr (by decide), ⟨_, rfl, .inl ⟨rfl, rfl⟩⟩, trivial⟩
    · cases h
      exact ⟨.inl rfl, trivial, ⟨_, rfl, .inl ⟨rfl, rfl⟩⟩⟩
    · cases h
  · cases h

end Sides

end Mhm2Proxy.ConnectFrags
