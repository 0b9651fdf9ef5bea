import Mhm2Proxy.ConstructFrags

/-!
`clean_frag_links`. Every process goes through its own fragments and, for each link, reads
the neighbour with `rget` and keeps, clears or marks the link. A process writes only its own
fragments; what it reads of a neighbour depends on whether the neighbour's process has
cleaned it yet, so the processes interleave by a schedule, one `set_link_status` at a time.
-/

namespace Mhm2Proxy.CleanLinks

open Mhm2Proxy.Kmer
open Mhm2Proxy.GetNextStep
open Mhm2Proxy.ConstructFrags

/-- How a process stops short of the end: a `DIE`, the `std::out_of_range` that
`string::compare` throws, or an `rget` of a pointer to no fragment, which the code never
checks. -/
inductive Fault
  | die (msg : String)
  | alreadyVisited (gptr : GPtr)
  | outOfRange
  | badGptr (gptr : GPtr)
  deriving DecidableEq, Repr

/-- The `frag_elems` of every process. -/
abbrev Frags := Nat → List FragElem

/-- `rget` of the fragment a pointer names. -/
def fetch (F : Frags) (g : GPtr) : Except Fault FragElem :=
  match (F g.rank).get? g.idx with
  | some f => .ok f
  | none => .error (.badGptr g)

theorem mem_of_fetch {F : Frags} {g : GPtr} {f : FragElem} (h : fetch F g = .ok f) :
    f ∈ F g.rank := by
  unfold fetch at h
  split at h
  · next hf => cases h; exact List.get?_mem hf
  · cases h

/-- `is_overlap`: the last `overlapLen` characters of `leftSeq` are the first `overlapLen`
characters of `rightSeq`. The code compares strings; fragments hold bases. The start
`leftSeq.length() - overlap_len` wraps around below zero, and then `compare` throws. -/
def isOverlap {α : Type} [DecidableEq α] (leftSeq rightSeq : List α) (overlapLen : Nat) :
    Except Fault Bool :=
  if leftSeq.length < overlapLen then .error .outOfRange
  else .ok (decide (leftSeq.drop (leftSeq.length - overlapLen) = rightSeq.take overlapLen))

theorem isOverlap_reverse_map {α β : Type} [DecidableEq α] [DecidableEq β] {f : α → β}
    (hf : Function.Injective f) {a b : List α} {o : Nat} (ha : o ≤ a.length) (hb : o ≤ b.length) :
    isOverlap (b.map f).reverse (a.map f).reverse o = isOverlap a b o := by
  simp only [isOverlap, List.length_reverse, List.length_map, List.drop_reverse,
    List.take_reverse, Nat.sub_sub_self hb, List.reverse_inj, ← List.map_take, ← List.map_drop,
    (List.map_injective_iff.2 hf).eq_iff, if_neg (Nat.not_lt.2 ha), if_neg (Nat.not_lt.2 hb),
    eq_comm]

/-- The overlap test of `set_link_status` on side `dirn`: the neighbour's sequence goes before
the fragment's on the left and after it on the right. -/
def overlapOn (dirn : Dirn) (nbSeq uutig : List Base) (overlapLen : Nat) : Except Fault Bool :=
  match dirn with
  | .left => isOverlap nbSeq uutig overlapLen
  | .right => isOverlap uutig nbSeq overlapLen

/-- The neighbour's link that `set_link_status` compares when the neighbour joins forward:
its right link for a left neighbour, its left link for a right neighbour. -/
def facing (dirn : Dirn) (nb : FragElem) : Option GPtr :=
  match dirn with
  | .left => nb.rightGptr
  | .right => nb.leftGptr

/-- The neighbour's link that `set_link_status` compares when the neighbour joins reverse
complemented. -/
def facingRc (dirn : Dirn) (nb : FragElem) : Option GPtr :=
  match dirn with
  | .left => nb.leftGptr
  | .right => nb.rightGptr

/-- `set_link_status` for the link `nbGptr` on side `dirn` of the fragment `uutig`: the link
and the `is_rc` flag it leaves. The link is cleared when the neighbour's compared link is
the neighbour itself; a link with no overlap either way is left as it is. -/
def setLinkStatus (F : Frags) (dirn : Dirn) (nbGptr : Option GPtr) (isRc : Bool)
    (uutig : List Base) (kmerLen : Nat) : Except Fault (Option GPtr × Bool) :=
  match nbGptr with
  | none => .ok (none, isRc)
  | some g =>
      match fetch F g with
      | .error e => .error e
      | .ok nb =>
          match overlapOn dirn nb.fragSeq uutig (kmerLen - 1) with
          | .error e => .error e
          | .ok true => .ok (if facing dirn nb = some g then (none, isRc) else (some g, isRc))
          | .ok false =>
              match overlapOn dirn (revcomp nb.fragSeq) uutig (kmerLen - 1) with
              | .error e => .error e
              | .ok true =>
                  .ok (if facingRc dirn nb = some g then (none, isRc) else (some g, true))
              | .ok false => .ok (some g, isRc)

/-- Where a process is in `clean_frag_links`: the fragment it cleans and whether its left
link is done. `fatal` records how it stopped short. -/
structure CleanProc where
  pos : Nat
  rightNext : Bool
  fatal : Option Fault
  deriving DecidableEq, Repr

structure CleanSys where
  frags : Frags
  procs : Nat → CleanProc

/-- The state at the start of `clean_frag_links`, on the fragments `construct_frags` left. -/
def CleanSys.init (F : Frags) : CleanSys :=
  ⟨F, fun _ => ⟨0, false, none⟩⟩

/-- Fragment `i` of process `r` replaced. -/
def setFrag (F : Frags) (r i : Nat) (f : FragElem) : Frags :=
  Function.update F r ((F r).set i f)

theorem set_self_of_get? {α : Type} {l : List α} {i : Nat} {a : α} (h : l.get? i = some a) :
    l.set i a = l :=
  List.ext_getElem? fun j => by
    rw [List.getElem?_set']
    split
    · subst_vars
      rw [← List.get?_eq_getElem?, h]
      rfl
    · rfl

theorem fragSeqs_setFrag {F : Frags} {r i : Nat} {f g : FragElem} (h : (F r).get? i = some f)
    (hg : g.fragSeq = f.fragSeq) (q : Nat) :
    (setFrag F r i g q).map FragElem.fragSeq = (F q).map FragElem.fragSeq := by
  unfold setFrag
  by_cases hq : q = r
  · subst hq
    rw [Function.update_same, List.map_set, hg]
    exact set_self_of_get? (by rw [List.get?_eq_getElem?, List.getElem?_map,
      ← List.get?_eq_getElem?, h]; rfl)
  · rw [Function.update_noteq hq]

variable (kmerLen : Nat)

/-- Process `r` takes one step of `clean_frag_links`: it skips a short fragment, clears a
fragment's two equal links, or runs `set_link_status` on the left or the right link. -/
def cleanStep (c : CleanSys) (r : Nat) : CleanSys :=
  let p := c.procs r
  if p.fatal.isSome then c else
  match (c.frags r).get? p.pos with
  | none => c
  | some f =>
      let next := { p with pos := p.pos + 1, rightNext := false }
      let stop := fun e => { c with procs := Function.update c.procs r { p with fatal := some e } }
      if !p.rightNext then
        if f.fragSeq.length < kmerLen then { c with procs := Function.update c.procs r next }
        else if f.leftGptr.isSome && f.leftGptr == f.rightGptr then
          ⟨setFrag c.frags r p.pos { f with leftGptr := none, rightGptr := none },
            Function.update c.procs r next⟩
        else
          match setLinkStatus c.frags .left f.leftGptr f.leftIsRc f.fragSeq kmerLen with
          | .error e => stop e
          | .ok (g, rc) =>
              ⟨setFrag c.frags r p.pos { f with leftGptr := g, leftIsRc := rc },
                Function.update c.procs r { p with rightNext := true }⟩
      else
        match setLinkStatus c.frags .right f.rightGptr f.rightIsRc f.fragSeq kmerLen with
        | .error e => stop e
        | .ok (g, rc) =>
            ⟨setFrag c.frags r p.pos { f with rightGptr := g, rightIsRc := rc },
              Function.update c.procs r next⟩

theorem fragSeqs_cleanStep (c : CleanSys) (r q : Nat) :
    ((cleanStep kmerLen c r).frags q).map FragElem.fragSeq = (c.frags q).map FragElem.fragSeq := by
  unfold cleanStep
  dsimp only
  split
  · rfl
  split
  · rfl
  next f hf =>
    repeat' split
    all_goals first | rfl | exact fragSeqs_setFrag hf (by rfl) q

def runClean (c : CleanSys) : List Nat → CleanSys
  | [] => c
  | r :: rs => runClean (cleanStep kmerLen c r) rs

theorem fragSeqs_runClean (c : CleanSys) (σ : List Nat) (q : Nat) :
    ((runClean kmerLen c σ).frags q).map FragElem.fragSeq = (c.frags q).map FragElem.fragSeq := by
  induction σ generalizing c with
  | nil => rfl
  | cons r σ ih => rw [runClean, ih, fragSeqs_cleanStep]

/-- Every process of `0, …, rankN - 1` has cleaned all its fragments without stopping short:
the barrier at the end of `clean_frag_links` is passed. -/
def CleanSys.done (rankN : Nat) (c : CleanSys) : Bool :=
  (List.range rankN).all fun r =>
    (c.procs r).fatal.isNone && decide ((c.frags r).length ≤ (c.procs r).pos)

/-- One process with three fragments at `k = 2`: `AC` links right to `CG`, whose left link is
`TC`. Both links overlap forward. -/
def crossedLinks : Frags := fun r =>
  if r = 0 then
    [⟨none, some ⟨0, 1⟩, false, false, [.A, .C], 1, false⟩,
     ⟨some ⟨0, 2⟩, none, false, false, [.C, .G], 1, false⟩,
     ⟨none, none, false, false, [.T, .C], 1, false⟩]
  else []

/-- Cleaning keeps the link from `AC` to `CG` although the link of `CG` facing it points to
`TC`: `set_link_status` compares that link with the neighbour's own pointer, not with the
fragment's. -/
theorem clean_keeps_unreciprocated_link :
    (runClean 2 (CleanSys.init crossedLinks) [0, 0, 0, 0, 0, 0]).done 1 = true ∧
      ((runClean 2 (CleanSys.init crossedLinks) [0, 0, 0, 0, 0, 0]).frags 0).map
          (fun f => (f.fragSeq, f.leftGptr, f.rightGptr, f.leftIsRc, f.rightIsRc)) =
        [([.A, .C], none, some ⟨0, 1⟩, false, false),
         ([.C, .G], some ⟨0, 2⟩, none, false, false),
         ([.T, .C], none, none, false, false)] := by
  decide

/-- One process with two fragments at `k = 2`: `AA` links right to `CC`, which overlaps it in
neither orientation. -/
def strayLink : Frags := fun r =>
  if r = 0 then
    [⟨none, some ⟨0, 1⟩, false, false, [.A, .A], 1, false⟩,
     ⟨none, none, false, false, [.C, .C], 1, false⟩]
  else []

/-- Cleaning keeps a link whose `k - 1` overlap holds in neither orientation:
`set_link_status` falls through without clearing it. -/
theorem clean_keeps_link_without_overlap :
    (runClean 2 (CleanSys.init strayLink) [0, 0, 0, 0]).done 1 = true ∧
      ((runClean 2 (CleanSys.init strayLink) [0, 0, 0, 0]).frags 0).map
          (fun f => (f.fragSeq, f.leftGptr, f.rightGptr, f.leftIsRc, f.rightIsRc)) =
        [([.A, .A], none, some ⟨0, 1⟩, false, false), ([.C, .C], none, none, false, false)] ∧
      [Base.A, .A].drop 1 ≠ [Base.C, .C].take 1 ∧ [Base.A, .A].drop 1 ≠ (revcomp [.C, .C]).take 1 := by
  decide

end Mhm2Proxy.CleanLinks
