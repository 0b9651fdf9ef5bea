import Mhm2Proxy.SumDepths

/-!
The two models of a walk of `construct_frags` agree. `ConstructFrags` runs a walk one iteration
of the loop of `get_next_step` at a time, each an atomic step of its process, and adds the
counts exactly; `TraverseDirn` runs it as the code does, in invocations of `get_next_step` that
`traverse_dirn` reissues, with `uint32_t` sums. A process that starts a walk and then runs
alone goes through the plain walk `walkDirn` step by step, and stores the fragment that the two
calls of `traverse_dirn` build, on any layout of the index, with the same owner pointers; the
depth sums agree modulo `2 ^ 32`.
-/

namespace Mhm2Proxy.WalkRefinement

open Mhm2Proxy.Kmer
open Mhm2Proxy.KmerIndex
open Mhm2Proxy.GetNextStep
open Mhm2Proxy.ConstructFrags
open Mhm2Proxy.TraverseDirn
open Mhm2Proxy.SumDepths (constructFragsWalk)

section Solo

variable {d : KmerDHT} {L : Layout} {r : Nat} {dirn : Dirn} {tok : GPtr}

theorem runConstruct_replicate_succ (s : Sys) (n : Nat) :
    runConstruct d L s (List.replicate (n + 1) r) =
      runConstruct d L (constructStep d L s r) (List.replicate n r) := rfl

theorem runConstruct_append (s : Sys) :
    ∀ σ τ : List Nat, runConstruct d L s (σ ++ τ) = runConstruct d L (runConstruct d L s σ) τ
  | [], _ => rfl
  | r :: σ, τ => runConstruct_append (constructStep d L s r) σ τ

theorem constructStep_of_walk {s : Sys} {w : Walk} (hf : (s.procs r).fatal = none)
    (hw : (s.procs r).walk = some w) : constructStep d L s r = iterate d s r (s.procs r) w := by
  simp only [constructStep, hf, hw, Option.isSome_none, Bool.false_eq_true, if_false]

theorem constructStep_start {s : Sys} {kmer : List Base} {kc : KmerCounts}
    (hf : (s.procs r).fatal = none) (hw : (s.procs r).walk = none)
    (hk : (localKmers d L r).get? (s.procs r).it = some (kmer, kc))
    (hfree : s.owner kmer = none) (hwalk : kc.isWalkable = true) :
    constructStep d L s r = constructStep d L (s.setProc r { s.procs r with
      it := (s.procs r).it + 1, walk := some (Walk.init ⟨r, (s.procs r).fragElems.length⟩ kmer) })
      r := by
  have hstart : constructStep d L s r = iterate d s r { s.procs r with it := (s.procs r).it + 1 }
      (Walk.init ⟨r, (s.procs r).fragElems.length⟩ kmer) := by
    simp only [List.get?_eq_getElem?] at hk
    simp [constructStep, hf, hw, hk, hfree, hwalk]
  rw [hstart, constructStep_of_walk (w := Walk.init ⟨r, (s.procs r).fragElems.length⟩ kmer)
    (by simp [Sys.setProc, hf]) (by simp [Sys.setProc])]
  unfold iterate
  simp only [Sys.setProc, Function.update_same, Function.update_idem]

theorem walkDirn_shift {G : Nat} {owner : List Base → Option GPtr} {w : WalkState}
    {u : List Base} {s t : Nat} {o : Outcome} (h : walkDirn d dirn tok G owner w u s = some (o, t))
    (s' : Nat) : ∃ t', walkDirn d dirn tok G owner w u s' = some (o, t') ∧ t + s' = t' + s := by
  induction G generalizing owner w u s s' with
  | zero => cases h
  | succ G ih =>
      cases hg : getNextStep d owner dirn tok w with
      | stop status v =>
          rw [walkDirn_stop hg] at h
          cases h
          exact ⟨s', walkDirn_stop hg, Nat.add_comm _ _⟩
      | claim key count ext next =>
          rw [walkDirn_claim hg] at h
          obtain ⟨t', h', ht⟩ := ih h (s' + count)
          refine ⟨t', by rw [walkDirn_claim hg]; exact h', by omega⟩

/-- Process `r` running alone from a walk in flight makes the claims the plain walk makes, one
step each, and reaches the stop that ends the direction. The other processes keep their
records. -/
theorem runConstruct_claims :
    ∀ (G : Nat) {s : Sys} {w : Walk} {o : Outcome} {sum : Nat}, (s.procs r).fatal = none →
      (s.procs r).walk = some w →
      walkDirn d w.dirn w.token G s.owner w.state w.uutig w.sumDepths = some (o, sum) →
      ∃ n st, runConstruct d L s (List.replicate n r) =
          ⟨o.owner, Function.update s.procs r { s.procs r with
            walk := some { w with state := st, uutig := o.uutig, sumDepths := sum } }⟩ ∧
        getNextStep d o.owner w.dirn w.token st = .stop o.walkStatus o.visitedFragElemGptr
  | 0, _, _, _, _, _, _, h => by cases h
  | G + 1, s, w, o, sum, hf, hw, h => by
      cases hg : getNextStep d s.owner w.dirn w.token w.state with
      | stop status v =>
          rw [walkDirn_stop hg] at h
          cases h
          have hp : { s.procs r with walk := some w } = s.procs r := by rw [← hw]
          exact ⟨0, w.state, by rw [hp, Function.update_eq_self]; rfl, hg⟩
      | claim key count ext next =>
          rw [walkDirn_claim hg] at h
          have hstep : constructStep d L s r = ⟨Function.update s.owner key (some w.token),
              Function.update s.procs r { s.procs r with walk := some (w.claim count ext next) }⟩ :=
            by rw [constructStep_of_walk hf hw, iterate_of_claim hg]
          obtain ⟨n, st, hrun, hst⟩ := runConstruct_claims G (s := constructStep d L s r)
            (w := w.claim count ext next)
            (by simp [hstep, hf]) (by simp [hstep]) (by rw [hstep]; exact h)
          refine ⟨n + 1, st, ?_, hst⟩
          rw [runConstruct_replicate_succ, hrun, hstep]
          simp only [Function.update_same, Function.update_idem]
          rfl

theorem runConstruct_stop (G : Nat) {s : Sys} {w : Walk} {o : Outcome} {sum : Nat}
    (hf : (s.procs r).fatal = none) (hw : (s.procs r).walk = some w)
    (h : walkDirn d w.dirn w.token G s.owner w.state w.uutig w.sumDepths = some (o, sum)) :
    ∃ n st, getNextStep d o.owner w.dirn w.token st = .stop o.walkStatus o.visitedFragElemGptr ∧
      runConstruct d L s (List.replicate (n + 1) r) =
        iterate d ⟨o.owner, Function.update s.procs r { s.procs r with
            walk := some { w with state := st, uutig := o.uutig, sumDepths := sum } }⟩ r
          { s.procs r with walk := some { w with state := st, uutig := o.uutig, sumDepths := sum } }
          { w with state := st, uutig := o.uutig, sumDepths := sum } := by
  obtain ⟨n, st, hrun, hst⟩ := runConstruct_claims (L := L) G hf hw h
  refine ⟨n, st, hst, ?_⟩
  rw [List.replicate_succ', runConstruct_append, hrun]
  exact (constructStep_of_walk (w := { w with state := st, uutig := o.uutig, sumDepths := sum })
    (by simp [hf]) (by simp)).trans (by simp only [Function.update_same])

theorem runConstruct_left (G : Nat) {s : Sys} {w : Walk} {o : Outcome} {sum : Nat}
    (hf : (s.procs r).fatal = none) (hw : (s.procs r).walk = some w) (hd : w.dirn = .left)
    (h : walkDirn d w.dirn w.token G s.owner w.state w.uutig w.sumDepths = some (o, sum)) :
    ∃ n stats, runConstruct d L s (List.replicate (n + 1) r) =
      ⟨o.owner, Function.update s.procs r { s.procs r with
        walkTermStats := stats
        walk := some (Walk.turn { w with uutig := o.uutig, sumDepths := sum }
          o.visitedFragElemGptr) }⟩ := by
  obtain ⟨n, st, hst, hrun⟩ := runConstruct_stop (L := L) G hf hw h
  obtain ⟨stats, hit⟩ := iterate_of_stop_left (r := r)
    (s := ⟨o.owner, Function.update s.procs r { s.procs r with
      walk := some { w with state := st, uutig := o.uutig, sumDepths := sum } }⟩)
    (w := { w with state := st, uutig := o.uutig, sumDepths := sum }) hst hd
  refine ⟨n, stats, ?_⟩
  rw [hrun, hit]
  simp only [Sys.setProc, Function.update_idem]
  rfl

theorem runConstruct_right (G : Nat) {s : Sys} {w : Walk} {o : Outcome} {sum : Nat}
    (hf : (s.procs r).fatal = none) (hw : (s.procs r).walk = some w) (hd : w.dirn = .right)
    (h : walkDirn d w.dirn w.token G s.owner w.state w.uutig w.sumDepths = some (o, sum)) :
    ∃ n stats, runConstruct d L s (List.replicate (n + 1) r) =
      ⟨o.owner, Function.update s.procs r { s.procs r with
        walkTermStats := stats
        walk := none
        fragElems := (s.procs r).fragElems ++
          [Walk.toFragElem { w with uutig := o.uutig, sumDepths := sum }
            o.visitedFragElemGptr] }⟩ := by
  obtain ⟨n, st, hst, hrun⟩ := runConstruct_stop (L := L) G hf hw h
  obtain ⟨stats, hit⟩ := iterate_of_stop_right (r := r)
    (s := ⟨o.owner, Function.update s.procs r { s.procs r with
      walk := some { w with state := st, uutig := o.uutig, sumDepths := sum } }⟩)
    (w := { w with state := st, uutig := o.uutig, sumDepths := sum }) hst hd
  refine ⟨n, stats, ?_⟩
  rw [hrun, hit]
  simp only [Sys.setProc, Function.update_idem]
  rfl

/-- A walk that process `r` starts from its next local k-mer and then runs alone goes through
the plain LEFT walk and the plain RIGHT walk, and stores their fragment, with the exact sum of
the counts. -/
theorem runConstruct_walk {s : Sys} {kmer : List Base} {kc : KmerCounts} {gl gr sL sR : Nat}
    {oL oR : Outcome} (hf : (s.procs r).fatal = none) (hw : (s.procs r).walk = none)
    (hk : (localKmers d L r).get? (s.procs r).it = some (kmer, kc))
    (hfree : s.owner kmer = none) (hwalk : kc.isWalkable = true)
    (hL : walkDirn d .left ⟨r, (s.procs r).fragElems.length⟩ gl s.owner (leftStart kmer) [] 0 =
      some (oL, sL))
    (hR : walkDirn d .right ⟨r, (s.procs r).fragElems.length⟩ gr oL.owner (rightStart kmer)
      (oL.uutig.reverse ++ mid kmer) sL = some (oR, sR)) :
    ∃ n stats, runConstruct d L s (List.replicate n r) =
      ⟨oR.owner, Function.update s.procs r { s.procs r with
        it := (s.procs r).it + 1
        walkTermStats := stats
        walk := none
        fragElems := (s.procs r).fragElems ++ [⟨oL.visitedFragElemGptr, oR.visitedFragElemGptr,
          false, false, oR.uutig, sR, false⟩] }⟩ := by
  obtain ⟨nL, statsL, hrunL⟩ := runConstruct_left (L := L) (r := r) gl
    (w := Walk.init ⟨r, (s.procs r).fragElems.length⟩ kmer) (s := s.setProc r { s.procs r with
      it := (s.procs r).it + 1
      walk := some (Walk.init ⟨r, (s.procs r).fragElems.length⟩ kmer) })
    (by simp [Sys.setProc, hf]) (by simp [Sys.setProc]) rfl hL
  obtain ⟨nR, statsR, hrunR⟩ := runConstruct_right (L := L) (r := r) gr
    (s := runConstruct d L (s.setProc r { s.procs r with
      it := (s.procs r).it + 1
      walk := some (Walk.init ⟨r, (s.procs r).fragElems.length⟩ kmer) })
      (List.replicate (nL + 1) r))
    (w := Walk.turn { Walk.init ⟨r, (s.procs r).fragElems.length⟩ kmer with
      uutig := oL.uutig
      sumDepths := sL } oL.visitedFragElemGptr)
    (by rw [hrunL]; simp [Sys.setProc, hf]) (by rw [hrunL]; simp) rfl (by rw [hrunL]; exact hR)
  refine ⟨nL + 1 + (nR + 1), statsR, ?_⟩
  rw [List.replicate_add, runConstruct_append, runConstruct_replicate_succ s nL,
    constructStep_start hf hw hk hfree hwalk, ← runConstruct_replicate_succ, hrunR, hrunL]
  simp only [Sys.setProc, Function.update_same, Function.update_idem]
  rfl

/-- With no other walk and enough fuel, the two calls of `traverse_dirn` for a walk, on any layout,
compute its plain LEFT walk and then its plain RIGHT walk from the reversed uutig; the fragment
stores a depth sum equal to the exact one modulo `2 ^ 32`. -/
theorem constructFragsWalk_walkDirn (L' : Layout) (tok : GPtr) (owner : List Base → Option GPtr)
    (kmer : List Base) {fuel : Nat} (hfuel : d.entries.length + 2 ≤ fuel) :
    ∃ gl oL sL gr oR sR t, walkDirn d .left tok gl owner (leftStart kmer) [] 0 = some (oL, sL) ∧
      walkDirn d .right tok gr oL.owner (rightStart kmer) (oL.uutig.reverse ++ mid kmer) sL =
        some (oR, sR) ∧
      constructFragsWalk d L' tok (.idle tok) (.idle tok) fuel owner kmer =
        some (⟨oL.visitedFragElemGptr, oR.visitedFragElemGptr, false, false, oR.uutig, t, false⟩,
          oR.owner) ∧
      t % 2 ^ 32 = sR % 2 ^ 32 := by
  obtain ⟨rL, hrL, gl, oL, sL, hwL, hoL, hsL⟩ :=
    @traverseDirn_walkDirn d .left tok L' owner kmer [] 0 fuel hfuel
  obtain ⟨rR, hrR, gr, oR, sR', hwR, hoR, hsR⟩ :=
    @traverseDirn_walkDirn d .right tok L' rL.owner kmer rL.uutig rL.sumDepths fuel hfuel
  have hown : rL.owner = oL.owner := (congrArg Outcome.owner hoL :)
  have huutig : rL.uutig = oL.uutig.reverse := (congrArg Outcome.uutig hoL :)
  rw [hown, huutig] at hwR
  obtain ⟨sR, hwR', hsum⟩ := walkDirn_shift hwR sL
  have hoR' : rR.toOutcome = oR := by rw [hoR]; rfl
  subst hoR'
  refine ⟨gl, oL, sL, gr, _, sR, rR.sumDepths, hwL, hwR', ?_, by omega⟩
  rw [constructFragsWalk, hrL, Option.some_bind, hrR, Option.map_some',
    show rL.visitedFragElemGptr = oL.visitedFragElemGptr from
      (congrArg Outcome.visitedFragElemGptr hoL :)]

/-- The code's walk refines the model's: a walk that process `r` starts from its next local
k-mer and then runs alone, one atomic iteration per step, stores the fragment that the two calls
of `traverse_dirn` build on any layout `L'` of the index, and leaves the same owner pointers.
The two fragments differ at most in the depth sum, which the model adds exactly and the code per
invocation in a `uint32_t`; the two sums agree modulo `2 ^ 32`. -/
theorem construct_frags_refines_traverse_dirn (L' : Layout) {s : Sys} {kmer : List Base}
    {kc : KmerCounts} {fuel : Nat} (hf : (s.procs r).fatal = none) (hw : (s.procs r).walk = none)
    (hk : (localKmers d L r).get? (s.procs r).it = some (kmer, kc))
    (hfree : s.owner kmer = none) (hwalk : kc.isWalkable = true)
    (hfuel : d.entries.length + 2 ≤ fuel) :
    ∃ n stats fe owner', runConstruct d L s (List.replicate n r) =
        ⟨owner', Function.update s.procs r { s.procs r with
          it := (s.procs r).it + 1
          walkTermStats := stats
          walk := none
          fragElems := (s.procs r).fragElems ++ [fe] }⟩ ∧
      ∃ t, constructFragsWalk d L' ⟨r, (s.procs r).fragElems.length⟩ (.idle _) (.idle _) fuel
          s.owner kmer = some ({ fe with sumDepths := t }, owner') ∧
        t % 2 ^ 32 = fe.sumDepths % 2 ^ 32 := by
  obtain ⟨gl, oL, sL, gr, oR, sR, t, hL, hR, hcode, ht⟩ :=
    constructFragsWalk_walkDirn L' ⟨r, (s.procs r).fragElems.length⟩ s.owner kmer hfuel
  obtain ⟨n, stats, hrun⟩ := runConstruct_walk hf hw hk hfree hwalk hL hR
  exact ⟨n, stats, _, _, hrun, t, hcode, ht⟩

end Solo

theorem construct_frags_refines_traverse_dirn_circleAC :
    (Sys.init.procs 0).fatal = none ∧ (Sys.init.procs 0).walk = none ∧
      (localKmers circleAC splitAC 0).get? (Sys.init.procs 0).it =
        some ([.A], ⟨1, .base .C, .base .C⟩) ∧
      Sys.init.owner [.A] = none ∧ (⟨1, .base .C, .base .C⟩ : KmerCounts).isWalkable = true ∧
      circleAC.entries.length + 2 ≤ 4 ∧
      ∃ n stats fe owner', runConstruct circleAC splitAC Sys.init (List.replicate n 0) =
          ⟨owner', Function.update Sys.init.procs 0 { Sys.init.procs 0 with
            it := (Sys.init.procs 0).it + 1
            walkTermStats := stats
            walk := none
            fragElems := (Sys.init.procs 0).fragElems ++ [fe] }⟩ ∧
        ∃ t, constructFragsWalk circleAC Ownership.oneRank ⟨0, (Sys.init.procs 0).fragElems.length⟩
            (.idle _) (.idle _) 4 Sys.init.owner [.A] = some ({ fe with sumDepths := t }, owner') ∧
          t % 2 ^ 32 = fe.sumDepths % 2 ^ 32 :=
  ⟨rfl, rfl, rfl, rfl, rfl, by decide,
    construct_frags_refines_traverse_dirn Ownership.oneRank rfl rfl rfl rfl rfl (by decide)⟩

end Mhm2Proxy.WalkRefinement
