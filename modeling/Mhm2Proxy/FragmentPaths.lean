import Mhm2Proxy.FragmentKmers
import Mathlib.Data.List.Chain

/-!
Every fragment of `construct_frags` is a walk of the de Bruijn graph that the extensions
define, for `k ≥ 2`: consecutive windows of its sequence agree with the stored extensions,
read in the orientation the window has in the sequence. A claim adds one window at the end the
walk grows, and the two tests of `get_next_step` that let it claim, the extension it moves by
and the conflict test on the base it arrived by, are the two halves of the new edge.
-/

namespace Mhm2Proxy.FragmentPaths

open Mhm2Proxy.Kmer
open Mhm2Proxy.KmerIndex
open Mhm2Proxy.GetNextStep
open Mhm2Proxy.ConstructFrags
open Mhm2Proxy.WalkSpelling
open Mhm2Proxy.ConstructInvariant
open Mhm2Proxy.Ownership
open Mhm2Proxy.FragmentKmers

/-- The stored extensions of the k-mer `x` read in the orientation of `x`: those of its
canonical form, swapped and complemented when that is the reverse complement of `x`; `none`
when `x` is not in the index or an extension is `'F'` or `'X'`. -/
def orientedExts (d : KmerDHT) (x : List Base) : Option (Base × Base) :=
  (find (canonical x) d.entries).bind fun kc =>
    match extStatus kc with
    | .ok (l, r) => some (oriented (isRc x) l r)
    | .error _ => none

/-- Modelled from the spec: the window `w'` follows `w` in the de Bruijn graph of the
extensions: the right extension of `w` is the last base of `w'`, and the left extension of
`w'` is the first base of `w`. -/
def DbgEdge (d : KmerDHT) (w w' : List Base) : Prop :=
  (orientedExts d w).map Prod.snd = some (back w') ∧
    (orientedExts d w').map Prod.fst = some (front w)

instance (d : KmerDHT) : DecidableRel (DbgEdge d) :=
  fun _ _ => inferInstanceAs (Decidable (_ ∧ _))

/-- The extension on the side that a walk in direction `dirn` grows. -/
def aheadExt (dirn : Dirn) (lr : Base × Base) : Base :=
  match dirn with
  | .left => lr.1
  | .right => lr.2

theorem getNextStep_claim_exts {d : KmerDHT} {owner : List Base → Option GPtr} {dirn : Dirn}
    {tok : GPtr} {w : WalkState} {key : List Base} {count : Nat} {ext : Base} {next : WalkState}
    (h : getNextStep d owner dirn tok w = .claim key count ext next) :
    ∃ lr, orientedExts d w.kmer = some lr ∧ conflicts dirn w.prevExt lr.1 lr.2 = false ∧
      next = advance dirn w.kmer (aheadExt dirn lr) := by
  unfold getNextStep at h
  simp only at h
  cases hf : find (canonical w.kmer) d.entries with
  | none => simp [hf] at h
  | some kc =>
      cases he : extStatus kc with
      | error st => simp [hf, he] at h
      | ok lr =>
          obtain ⟨l, r⟩ := lr
          simp only [hf, he] at h
          split at h
          · cases h
          · next hc =>
            obtain ⟨hcl, -⟩ := ownerCheck_eq_claim h
            simp only [claimStep, StepResult.claim.injEq] at hcl
            refine ⟨oriented (isRc w.kmer) l r, by simp [orientedExts, hf, he],
              by simpa using hc, ?_⟩
            rw [← hcl.2.2.2, orient_canonical]
            cases dirn <;> rfl

theorem back_of_conflicts_left {p : Base} {l r : Base} (h : conflicts .left (some p) l r = false) :
    p = r := by
  simpa [conflicts] using h

theorem front_of_conflicts_right {p : Base} {l r : Base}
    (h : conflicts .right (some p) l r = false) : p = l := by
  simpa [conflicts] using h

theorem back_append_singleton (s : List Base) (b : Base) : back (s ++ [b]) = b := by
  simp [back]

theorem getLast?_windows_append {k : Nat} (hk : 0 < k) (pre : List Base) {x : List Base}
    (hx : x.length = k) : (windows k (pre ++ x)).getLast? = some x := by
  rw [windows_append k hk, windows_of_length hk hx, List.getLast?_append, List.getLast?_singleton]
  rfl

variable (d : KmerDHT)

/-- A walk in flight has spelled a walk of the graph, and the end it grows is ready for the
next edge: the window there has the extension the walk moves by, and the walk keeps that
window's far base as `prev_ext` for the conflict test. The RIGHT call has spelled at least the
start k-mer. -/
def PathOk (w : Walk) : Prop :=
  List.Chain' (DbgEdge d) (windows d.kmerLen (spelled w)) ∧
    match w.dirn with
    | .left => ∃ x rest, windows d.kmerLen (spelled w) = x :: rest ∧
        (orientedExts d x).map Prod.fst = some w.state.nextExt ∧ w.state.prevExt = some (back x)
    | .right => d.kmerLen ≤ (spelled w).length ∧ (w.state.revisitAllowed = true ∨
        ∃ x, (windows d.kmerLen (spelled w)).getLast? = some x ∧
          (orientedExts d x).map Prod.snd = some w.state.nextExt ∧
          w.state.prevExt = some (front x))

/-- A fragment at least `k` long whose windows are a walk of the graph. -/
def FragOk (f : FragElem) : Prop :=
  d.kmerLen ≤ f.fragSeq.length ∧ List.Chain' (DbgEdge d) (windows d.kmerLen f.fragSeq)

/-- Every walk in flight and every fragment is a walk of the graph. -/
structure PathInv (s : Sys) : Prop where
  walk_ok : ∀ r w, (s.procs r).walk = some w → PathOk d w
  frag_ok : ∀ r f, f ∈ (s.procs r).fragElems → FragOk d f

variable {d}

theorem PathInv.update {s : Sys} (h : PathInv d s) (o : List Base → Option GPtr) {r : Nat}
    {p : Proc} (hp : ∀ w, p.walk = some w → PathOk d w) (hf : ∀ f ∈ p.fragElems, FragOk d f) :
    PathInv d ⟨o, Function.update s.procs r p⟩ where
  walk_ok r' w hw := by
    by_cases hr : r' = r
    · subst hr
      simp only [Function.update_same] at hw
      exact hp w hw
    · simp only [Function.update_noteq hr] at hw
      exact h.walk_ok r' w hw
  frag_ok r' f hf' := by
    by_cases hr : r' = r
    · subst hr
      simp only [Function.update_same] at hf'
      exact hf f hf'
    · simp only [Function.update_noteq hr] at hf'
      exact h.frag_ok r' f hf'

section Claim

variable (hk : 2 ≤ d.kmerLen) {L : Layout} {s : Sys} {w : Walk} {lr : Base × Base} {count : Nat}
include hk

theorem pathOk_claim_left (hd : w.dirn = .left) (hs : Shape d.kmerLen w) (hp : PathOk d w)
    (hx : orientedExts d w.state.kmer = some lr)
    (hc : conflicts .left w.state.prevExt lr.1 lr.2 = false) :
    PathOk d (w.claim count w.state.nextExt (advance .left w.state.kmer lr.1)) := by
  obtain ⟨hlen, hs⟩ := hs
  rw [hd] at hs
  obtain ⟨hchain, hb⟩ := hp
  rw [hd] at hb
  obtain ⟨x, rest, hwin, hfst, hprev⟩ := hb
  have hwin' := windows_spelled_claim_left (by omega) hd hs.2 hlen count
    (advance .left w.state.kmer lr.1)
  have hfront : front w.state.kmer = w.state.nextExt := by
    rw [hs.2.2, show d.kmerLen = (d.kmerLen - 1) + 1 by omega]
    rfl
  have hedge : DbgEdge d w.state.kmer x := by
    rw [hprev] at hc
    refine ⟨?_, by rw [hfst, hfront]⟩
    rw [hx, back_of_conflicts_left hc]
    rfl
  rw [PathOk, Walk.claim_dirn, hd]
  refine ⟨?_, ⟨w.state.kmer, x :: rest, by rw [hwin', hwin], by rw [hx]; rfl, rfl⟩⟩
  rw [hwin', hwin]
  exact List.Chain'.cons hedge (hwin ▸ hchain)

theorem pathOk_claim_revisit (hd : w.dirn = .right) (hs : Shape d.kmerLen w) (hp : PathOk d w)
    (hst : w.state = rightStart w.start) (hpre : ∃ pre, w.uutig = pre ++ w.start.dropLast)
    (hx : orientedExts d w.state.kmer = some lr) :
    PathOk d (w.claim count w.state.nextExt (advance .right w.state.kmer lr.2)) := by
  obtain ⟨hlen, -⟩ := hs
  obtain ⟨hsp, -⟩ := spelled_claim_revisit (by omega) hd hlen hst hpre count lr.2
  obtain ⟨hchain, hb⟩ := hp
  rw [hd] at hb
  obtain ⟨pre, hu⟩ := hpre
  have hlast : (windows d.kmerLen (spelled w)).getLast? = some w.start := by
    rw [spelled_rightStart hd (start_ne_nil (by omega) hlen) hst hu]
    exact getLast?_windows_append (by omega) pre hlen
  have hkmer : w.state.kmer = w.start := by rw [hst]; rfl
  rw [PathOk, Walk.claim_dirn, hd, hsp]
  refine ⟨hchain, hb.1, .inr ⟨w.start, hlast, by rw [← hkmer, hx]; rfl, by rw [hkmer]; rfl⟩⟩

theorem pathOk_claim_right (hd : w.dirn = .right) (hrv : w.state.revisitAllowed = false)
    (hl : d.kmerLen - 1 ≤ w.uutig.length)
    (hκ : w.state.kmer = w.uutig.drop (w.uutig.length - (d.kmerLen - 1)) ++ [w.state.nextExt])
    (hp : PathOk d w) (hx : orientedExts d w.state.kmer = some lr)
    (hc : conflicts .right w.state.prevExt lr.1 lr.2 = false) :
    PathOk d (w.claim count w.state.nextExt (advance .right w.state.kmer lr.2)) := by
  obtain ⟨hchain, hb⟩ := hp
  rw [hd] at hb
  obtain ⟨hlen, hb⟩ := hb
  obtain ⟨x, hlast, hsnd, hprev⟩ := hb.resolve_left (by rw [hrv]; exact Bool.false_ne_true)
  have hwin' := windows_spelled_claim_right (by omega) hd hrv hl hκ count
    (advance .right w.state.kmer lr.2) rfl
  have hedge : DbgEdge d x w.state.kmer := by
    rw [hprev] at hc
    refine ⟨by rw [hsnd, hκ, back_append_singleton], ?_⟩
    rw [hx, front_of_conflicts_right hc]
    rfl
  have hsp : spelled (w.claim count w.state.nextExt (advance .right w.state.kmer lr.2)) =
      spelled w ++ [w.state.nextExt] := by
    simp [spelled, Walk.claim, hd, hrv, advance]
  rw [PathOk, Walk.claim_dirn, hd]
  refine ⟨?_, by rw [hsp, List.length_append]; omega,
    .inr ⟨w.state.kmer, ?_, by rw [hx]; rfl, rfl⟩⟩
  · rw [hwin']
    exact hchain.append (List.chain'_singleton _) fun a ha b hb' => by
      rw [hlast, Option.mem_some_iff] at ha
      rw [List.head?_singleton, Option.mem_some_iff] at hb'
      rw [← ha, ← hb']
      exact hedge
  · rw [hwin', List.getLast?_append, List.getLast?_singleton]
    rfl

theorem pathOk_claim (hinv : Inv d L s) {r : Nat} (hpw : (s.procs r).walk = some w)
    (hp : PathOk d w) {key : List Base} {ext : Base} {next : WalkState}
    (hget : getNextStep d s.owner w.dirn w.token w.state = .claim key count ext next) :
    PathOk d (w.claim count ext next) := by
  obtain ⟨lr, hx, hc, rfl⟩ := getNextStep_claim_exts hget
  obtain ⟨-, rfl, -⟩ := getNextStep_eq_claim hget
  have hs := (hinv.walk_ok r w hpw).shape
  cases hd : w.dirn with
  | left =>
      rw [hd] at hc
      exact pathOk_claim_left hk hd hs hp hx hc
  | right =>
      rw [hd] at hc
      have hs' := hs.2
      rw [hd] at hs'
      rcases hs' with ⟨hst, hpre⟩ | ⟨hrv, hl, hκ⟩
      · exact pathOk_claim_revisit hk hd hs hp hst hpre hx
      · exact pathOk_claim_right hk hd hrv hl hκ hp hx hc

end Claim

section Step

variable (hk : 2 ≤ d.kmerLen) {L : Layout} {s : Sys} {r : Nat}
include hk

theorem PathInv.iterate_claim (hinv : Inv d L s) (h : PathInv d s) {w : Walk}
    (hpw : (s.procs r).walk = some w) {key : List Base} {count : Nat} {ext : Base}
    {next : WalkState}
    (hget : getNextStep d s.owner w.dirn w.token w.state = .claim key count ext next) :
    PathInv d (iterate d s r (s.procs r) w) := by
  rw [iterate_of_claim hget]
  refine h.update _ ?_ (h.frag_ok r)
  rintro w' ⟨⟩
  exact pathOk_claim hk hinv hpw (h.walk_ok r w hpw) hget

theorem PathInv.iterate_stop (hinv : Inv d L s) (h : PathInv d s) {w : Walk}
    (hpw : (s.procs r).walk = some w) {status : WalkStatus} {v : Option GPtr}
    (hget : getNextStep d s.owner w.dirn w.token w.state = .stop status v) :
    PathInv d (iterate d s r (s.procs r) w) := by
  obtain ⟨hchain, hb⟩ := h.walk_ok r w hpw
  obtain ⟨hlen, hs⟩ := (hinv.walk_ok r w hpw).shape
  cases hd : w.dirn with
  | left =>
      rw [hd] at hs
      obtain ⟨stats, heq⟩ := iterate_of_stop_left hget hd
      obtain ⟨rest, hu⟩ := hs.1
      have hsp := spelled_turn hk hd hlen v
      rw [heq]
      refine h.update _ ?_ (h.frag_ok r)
      rintro w' ⟨⟩
      refine ⟨by rw [hsp]; exact hchain, ?_⟩
      show d.kmerLen ≤ (spelled (w.turn v)).length ∧ (true = true ∨ _)
      refine ⟨?_, .inl rfl⟩
      rw [hsp]
      simp [spelled, hd, hu, hlen]
      omega
  | right =>
      rw [hd] at hs hb
      rcases hs with ⟨hst, hpre⟩ | ⟨hrv, -, -⟩
      · obtain ⟨_, _, _, hc⟩ := hinv.rightStart_claims hk hpw hd hst hpre
        rw [hc] at hget
        cases hget
      · obtain ⟨stats, heq⟩ := iterate_of_stop_right hget hd
        have hsp : spelled w = w.uutig := by simp [spelled, hd, hrv]
        rw [heq]
        refine h.update _ (fun _ h => nomatch h) fun f hf => ?_
        rcases List.mem_append.1 hf with hf | hf
        · exact h.frag_ok r f hf
        · rw [List.mem_singleton.1 hf]
          show d.kmerLen ≤ w.uutig.length ∧ List.Chain' _ (windows d.kmerLen w.uutig)
          rw [← hsp]
          exact ⟨hb.1, hchain⟩

theorem PathInv.start (h : PathInv d s) {kmer : List Base} {kc : KmerCounts}
    (hget : (localKmers d L r).get? (s.procs r).it = some (kmer, kc))
    (hfree : s.owner kmer = none) (hw : kc.isWalkable = true) :
    PathInv d (iterate d s r { s.procs r with it := (s.procs r).it + 1 }
      (Walk.init ⟨r, (s.procs r).fragElems.length⟩ kmer)) := by
  have hent := ((mem_localKmers d L).1 (List.get?_mem hget)).1
  have hlen : kmer.length = d.kmerLen := d.length_key _ hent
  obtain ⟨count, ext, next, hc⟩ := @getNextStep_claims d s.owner .left
    ⟨r, (s.procs r).fragElems.length⟩ (leftStart kmer) kc (d.canonical_key _ hent)
    (find_of_mem d.nodup_keys hent) hw rfl (.inl hfree)
  obtain ⟨lr, hx, -, rfl⟩ := getNextStep_claim_exts hc
  obtain ⟨-, rfl, -⟩ := getNextStep_eq_claim hc
  rw [@iterate_of_claim d _ _ _ (Walk.init _ kmer) _ _ _ _ hc]
  refine h.update _ ?_ (h.frag_ok r)
  rintro w' ⟨⟩
  show PathOk d ((Walk.init _ kmer).claim count (front kmer) (advance .left kmer lr.1))
  obtain ⟨hsp, -⟩ := claim_init (by omega) ⟨r, (s.procs r).fragElems.length⟩ hlen count lr.1
  have hwin : windows d.kmerLen (spelled ((Walk.init ⟨r, (s.procs r).fragElems.length⟩ kmer).claim
      count (front kmer) (advance .left kmer lr.1))) = [kmer] := by
    rw [hsp, windows_of_length (by omega) hlen]
  refine ⟨by rw [hwin]; exact List.chain'_singleton _, ⟨kmer, [], hwin, ?_, rfl⟩⟩
  show _ = some lr.1
  rw [show kmer = (leftStart kmer).kmer from rfl, hx]
  rfl

theorem PathInv.constructStep (hinv : Inv d L s) (h : PathInv d s) (r : Nat) :
    PathInv d (constructStep d L s r) := by
  rcases constructStep_cases d L s r with heq | ⟨w, hw, heq⟩ |
    ⟨kmer, kc, hw, hg, hskip, heq⟩ | ⟨kmer, kc, hw, hg, hfree, hwk, heq⟩ <;> rw [heq]
  · exact h
  · cases hget : getNextStep d s.owner w.dirn w.token w.state with
    | claim key count ext next => exact h.iterate_claim hk hinv hw hget
    | stop status v => exact h.iterate_stop hk hinv hw hget
  · exact h.update _ (fun w hw' => by simp [hw] at hw') (h.frag_ok r)
  · exact h.start hk hg hfree hwk

end Step

theorem pathInv_init : PathInv d Sys.init where
  walk_ok _ _ h := nomatch h
  frag_ok _ _ h := nomatch h

theorem pathInv_of_reachable (hk : 2 ≤ d.kmerLen) {L : Layout} {s : Sys} (hs : Reachable d L s) :
    PathInv d s := by
  induction hs with
  | init => exact pathInv_init
  | step r hs ih => exact ih.constructStep hk (inv_of_reachable hk hs) r

/-- For `k ≥ 2`, every fragment `construct_frags` stores, under any interleaving of the walks,
is at least `k` long and spells a walk of the de Bruijn graph of the extensions. -/
theorem frags_are_graph_walks (hk : 2 ≤ d.kmerLen) {L : Layout} {s : Sys}
    (hs : Reachable d L s) (r : Nat) {f : FragElem} (hf : f ∈ (s.procs r).fragElems) :
    d.kmerLen ≤ f.fragSeq.length ∧ List.Chain' (DbgEdge d) (windows d.kmerLen f.fragSeq) :=
  (pathInv_of_reachable hk hs).frag_ok r f hf

/-- The fragments of the hairpin run: `CAAGACG` has four windows, the last stored as its
reverse complement, and `ACGT` is its own reverse complement. -/
theorem frags_are_graph_walks_hairpin :
    2 ≤ hairpinIdx.kmerLen ∧ Reachable hairpinIdx hairpinLayout hairpinRun ∧
      (List.range 2).map (fun r => (hairpinRun.procs r).fragElems.map FragElem.fragSeq) =
        [[[.C, .A, .A, .G, .A, .C, .G]], [[.A, .C, .G, .T]]] ∧
      ∀ r, ∀ f ∈ (hairpinRun.procs r).fragElems, hairpinIdx.kmerLen ≤ f.fragSeq.length ∧
        List.Chain' (DbgEdge hairpinIdx) (windows hairpinIdx.kmerLen f.fragSeq) :=
  have hs := reachable_runConstruct hairpinIdx hairpinLayout .init _
  ⟨by decide, hs, by decide, fun r _ hf => frags_are_graph_walks (by decide) hs r hf⟩

/-- The index of the one 1-mer `A`, extended by `A` on the left and by `C` on the right. -/
def singleA : KmerDHT :=
  ⟨1, by decide, [([.A], ⟨1, .base .A, .base .C⟩)], by decide, by decide, by decide⟩

/-- At `k = 1` the claim fails: the walk from `A` stops at once to the left, by the conflict
test, and the RIGHT call's revisit of `A` spells it a second time. The fragment `AA` has the
window `A` followed by `A`, though the right extension of `A` is `C`. -/
theorem singleA_frag_breaks_edge :
    ((runConstruct singleA oneRank Sys.init [0, 0, 0, 0]).procs 0).fragElems.map
        FragElem.fragSeq = [[.A, .A]] ∧
      ¬ List.Chain' (DbgEdge singleA) (windows singleA.kmerLen [.A, .A]) := by
  refine ⟨by decide, ?_⟩
  rw [show windows singleA.kmerLen [.A, .A] = [[.A], [.A]] from rfl, List.chain'_pair]
  decide

end Mhm2Proxy.FragmentPaths
