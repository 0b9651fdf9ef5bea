import Mhm2Proxy.Ownership
import Mathlib.Algebra.Order.Ring.Nat

/-!
`traverse_dirn` with its reissue loop and `get_next_step` with its local loop, as the code
runs them. An invocation runs at the home process of its start k-mer and goes on while the
next k-mer is homed there; `traverse_dirn` re-canonicalizes a `RUNNING` result and reissues
it at the next home. Other walks may claim k-mers between two invocations.

Every call ends, after at most `N + 1` claims and `N + 2` invocations for an index of `N`
k-mers, whatever the other walks do: the number of index k-mers the walk does not own, plus
one while a revisit is allowed, falls with every claim. With no other walk, a call computes
the plain walk of `GetNextStep.getNextStep` iterations, so its uutig, status, neighbour
pointer and owner pointers do not depend on where the k-mers live.
-/

namespace Mhm2Proxy.TraverseDirn

open Mhm2Proxy.Kmer
open Mhm2Proxy.KmerIndex
open Mhm2Proxy.GetNextStep

/-- `StepInfo`, what an invocation of `get_next_step` returns. While the loop runs locally
`kmer` is the stored key; once the walk leaves the process it is the next k-mer in walk
orientation. `sum_depths` is a `uint32_t`. The constructor's `walk_status{}` is no
enumerator; every exit of the loop sets the status before it is read, and the model starts
from `RUNNING`. -/
structure StepInfo where
  kmer : List Base
  prevExt : Option Base
  nextExt : Base
  uutig : List Base
  sumDepths : Nat
  walkStatus : WalkStatus
  visitedFragElemGptr : Option GPtr

/-- `step_info` after a claim that appends `ext`, adds `count` and moves to `next`. -/
def StepInfo.claim (si : StepInfo) (count : Nat) (ext : Base) (next : WalkState) : StepInfo :=
  { si with kmer := next.kmer, prevExt := next.prevExt, nextExt := next.nextExt,
            walkStatus := .running, uutig := si.uutig ++ [ext],
            sumDepths := (si.sumDepths + count) % 2 ^ 32 }

@[simp] theorem StepInfo.claim_uutig (si : StepInfo) (c : Nat) (x : Base) (n : WalkState) :
    (si.claim c x n).uutig = si.uutig ++ [x] := rfl

@[simp] theorem StepInfo.claim_sumDepths (si : StepInfo) (c : Nat) (x : Base) (n : WalkState) :
    (si.claim c x n).sumDepths = (si.sumDepths + c) % 2 ^ 32 := rfl

@[simp] theorem StepInfo.claim_walkStatus (si : StepInfo) (c : Nat) (x : Base) (n : WalkState) :
    (si.claim c x n).walkStatus = .running := rfl

/-- The body of the loop of `get_next_step` up to the claim, on the stored key `w.kmer` with
`is_rc = rc`; `w` holds `step_info`'s extensions and `revisit_allowed`. -/
def stepKey (d : KmerDHT) (owner : List Base → Option GPtr) (dirn : Dirn) (fragElemGptr : GPtr)
    (rc : Bool) (w : WalkState) : StepResult :=
  match find w.kmer d.entries with
  | none => .stop .deadend none
  | some kc =>
      match extStatus kc with
      | .error status => .stop status none
      | .ok (l, r) =>
          let (left, right) := oriented rc l r
          if conflicts dirn w.prevExt left right then .stop .conflict none
          else ownerCheck (owner w.kmer) fragElemGptr w.revisitAllowed
            (claimStep dirn w.kmer kc rc left right w)

theorem stepKey_canonical (d : KmerDHT) (owner : List Base → Option GPtr) (dirn : Dirn)
    (tok : GPtr) (x : List Base) (p : Option Base) (n : Base) (rv : Bool) :
    stepKey d owner dirn tok (isRc x) ⟨canonical x, p, n, rv⟩ =
      getNextStep d owner dirn tok ⟨x, p, n, rv⟩ := rfl

/-- `get_next_step` at process `rankMe`: its loop from `step_info` with `revisit_allowed` and
`is_rc` over the owner pointers, and the owner pointers it leaves. After a claim it
re-canonicalizes the next k-mer, returns it in walk orientation when its home is another
process, and otherwise goes on from the canonical form. `visited_frag_elem_gptr` is null
until a `VISITED` stop sets it, so every stop writes the pointer its `StepResult` carries. -/
def getNextStepLoop (d : KmerDHT) (L : Layout) (rankMe : Nat) (dirn : Dirn)
    (fragElemGptr : GPtr) :
    Nat → (List Base → Option GPtr) → StepInfo → Bool → Bool →
      Option (StepInfo × (List Base → Option GPtr))
  | 0, _, _, _, _ => none
  | fuel + 1, owner, si, revisitAllowed, rc =>
      match stepKey d owner dirn fragElemGptr rc ⟨si.kmer, si.prevExt, si.nextExt, revisitAllowed⟩
      with
      | .stop status v => some ({ si with walkStatus := status, visitedFragElemGptr := v }, owner)
      | .claim key count ext next =>
          if L.home (canonical next.kmer) ≠ rankMe then
            some (si.claim count ext next, Function.update owner key (some fragElemGptr))
          else
            getNextStepLoop d L rankMe dirn fragElemGptr fuel
              (Function.update owner key (some fragElemGptr))
              { si.claim count ext next with kmer := canonical next.kmer } false (isRc next.kmer)

/-- Other walks between two invocations of the walk `tok`: before invocation `i` they turn
the owner pointers `o` into `step i o`. They claim k-mers for themselves only, so a k-mer is
the walk's own afterwards exactly when it was before. -/
structure Interference (tok : GPtr) where
  step : Nat → (List Base → Option GPtr) → List Base → Option GPtr
  own_iff : ∀ i o x, step i o x = some tok ↔ o x = some tok

/-- No other walk runs. -/
def Interference.idle (tok : GPtr) : Interference tok :=
  ⟨fun _ o => o, fun _ _ _ => Iff.rfl⟩

@[simp] theorem Interference.idle_step (tok : GPtr) (i : Nat) (o : List Base → Option GPtr) :
    (Interference.idle tok).step i o = o := rfl

/-- What the walk of one direction leaves: the uutig, the terminal status it hands to
`walk_term_stats.update`, the neighbour pointer `traverse_dirn` returns, and the owner
pointers. -/
structure Outcome where
  uutig : List Base
  walkStatus : WalkStatus
  visitedFragElemGptr : Option GPtr
  owner : List Base → Option GPtr

/-- A call of `traverse_dirn`: its outcome, the caller's `sum_depths` after it, and the
invocations of `get_next_step` it issued, which it adds to `_num_rpcs`. -/
structure DirnResult extends Outcome where
  sumDepths : Nat
  numRpcs : Nat

/-- The loop of `traverse_dirn` from its invocation `i` on. Other walks act, `get_next_step`
runs at the home of the canonical k-mer with `stepFuel`, its uutig and `sum_depths` are
added, and a `RUNNING` result is reissued from the k-mer it returns. -/
def traverseLoop (d : KmerDHT) (L : Layout) (dirn : Dirn) (fragElemGptr : GPtr)
    (env : Interference fragElemGptr) (stepFuel : Nat) :
    Nat → Nat → (List Base → Option GPtr) → List Base → Option Base → Base → Bool →
      List Base → Nat → Option DirnResult
  | 0, _, _, _, _, _, _, _, _ => none
  | fuel + 1, i, owner, kmer, prevExt, nextExt, revisitAllowed, uutig, sumDepths =>
      (getNextStepLoop d L (L.home (canonical kmer)) dirn fragElemGptr stepFuel (env.step i owner)
          ⟨canonical kmer, prevExt, nextExt, [], 0, .running, none⟩ revisitAllowed
          (isRc kmer)).bind fun (si, owner) =>
        if si.walkStatus ≠ .running then
          some ⟨⟨if dirn = .left then (uutig ++ si.uutig).reverse else uutig ++ si.uutig,
            si.walkStatus, si.visitedFragElemGptr, owner⟩, sumDepths + si.sumDepths, i + 1⟩
        else
          traverseLoop d L dirn fragElemGptr env stepFuel fuel (i + 1) owner si.kmer si.prevExt
            si.nextExt false (uutig ++ si.uutig) (sumDepths + si.sumDepths)

/-- `traverse_dirn` from `kmer`, with the caller's `uutig` and `sum_depths`; `fuel` bounds
both loops. -/
def traverseDirn (d : KmerDHT) (L : Layout) (dirn : Dirn) (fragElemGptr : GPtr)
    (env : Interference fragElemGptr) (fuel : Nat) (owner : List Base → Option GPtr)
    (kmer uutig : List Base) (sumDepths : Nat) : Option DirnResult :=
  traverseLoop d L dirn fragElemGptr env fuel fuel 0 owner kmer none
    (if dirn = .left then front kmer else back kmer) (if dirn = .left then false else true)
    (if dirn = .right then uutig ++ mid kmer else uutig) sumDepths

/-- The walk of one direction as the plain sequence of iterations of the loop body, with no
process boundary: what `traverse_dirn` is for. It gives the outcome before the LEFT reversal
and the exact sum of the counts. -/
def walkDirn (d : KmerDHT) (dirn : Dirn) (tok : GPtr) :
    Nat → (List Base → Option GPtr) → WalkState → List Base → Nat → Option (Outcome × Nat)
  | 0, _, _, _, _ => none
  | fuel + 1, owner, w, uutig, sum =>
      match getNextStep d owner dirn tok w with
      | .stop status v => some (⟨uutig, status, v, owner⟩, sum)
      | .claim key count ext next =>
          walkDirn d dirn tok fuel (Function.update owner key (some tok)) next (uutig ++ [ext])
            (sum + count)

/-- The LEFT call reverses the uutig it walked backwards. -/
def Outcome.finish (dirn : Dirn) (o : Outcome) : Outcome :=
  { o with uutig := if dirn = .left then o.uutig.reverse else o.uutig }

section Steps

variable {d : KmerDHT} {L : Layout} {rankMe : Nat} {dirn : Dirn} {tok : GPtr}
  {owner : List Base → Option GPtr} {si : StepInfo} {rv : Bool} {x : List Base} {f : Nat}

theorem getNextStepLoop_stop {status : WalkStatus} {v : Option GPtr}
    (hk : si.kmer = canonical x)
    (hg : getNextStep d owner dirn tok ⟨x, si.prevExt, si.nextExt, rv⟩ = .stop status v) :
    getNextStepLoop d L rankMe dirn tok (f + 1) owner si rv (isRc x) =
      some ({ si with walkStatus := status, visitedFragElemGptr := v }, owner) := by
  rw [getNextStepLoop, hk, stepKey_canonical, hg]

theorem getNextStepLoop_claim {key : List Base} {count : Nat} {ext : Base} {next : WalkState}
    (hk : si.kmer = canonical x)
    (hg : getNextStep d owner dirn tok ⟨x, si.prevExt, si.nextExt, rv⟩ =
      .claim key count ext next) :
    getNextStepLoop d L rankMe dirn tok (f + 1) owner si rv (isRc x) =
      if L.home (canonical next.kmer) ≠ rankMe then
        some (si.claim count ext next, Function.update owner key (some tok))
      else
        getNextStepLoop d L rankMe dirn tok f (Function.update owner key (some tok))
          { si.claim count ext next with kmer := canonical next.kmer } false (isRc next.kmer) := by
  rw [getNextStepLoop, hk, stepKey_canonical, hg]

variable {w : WalkState} {u : List Base} {s : Nat}

theorem walkDirn_stop {status : WalkStatus} {v : Option GPtr}
    (hg : getNextStep d owner dirn tok w = .stop status v) :
    walkDirn d dirn tok (f + 1) owner w u s = some (⟨u, status, v, owner⟩, s) := by
  rw [walkDirn, hg]

theorem walkDirn_claim {key : List Base} {count : Nat} {ext : Base} {next : WalkState}
    (hg : getNextStep d owner dirn tok w = .claim key count ext next) :
    walkDirn d dirn tok (f + 1) owner w u s =
      walkDirn d dirn tok f (Function.update owner key (some tok)) next (u ++ [ext]) (s + count) := by
  rw [walkDirn, hg]

theorem eq_of_claim {key : List Base} {count : Nat} {ext : Base} {next : WalkState}
    (hg : getNextStep d owner dirn tok w = .claim key count ext next) :
    next = ⟨next.kmer, next.prevExt, next.nextExt, false⟩ := by
  obtain ⟨-, -, -, -, e, rfl⟩ := getNextStep_eq_claim hg
  cases dirn <;> rfl

end Steps

section Measure

variable {d : KmerDHT} {tok : GPtr}

/-- The index k-mers that the walk `tok` does not own. -/
def notOwned (d : KmerDHT) (tok : GPtr) (owner : List Base → Option GPtr) : Nat :=
  d.entries.countP fun e => owner e.1 != some tok

theorem notOwned_le_length (owner : List Base → Option GPtr) :
    notOwned d tok owner ≤ d.entries.length :=
  List.countP_le_length _

theorem notOwned_step (env : Interference tok) (i : Nat) (owner : List Base → Option GPtr) :
    notOwned d tok (env.step i owner) = notOwned d tok owner :=
  List.countP_congr fun e _ => by simp [env.own_iff]

private theorem countP_lt_countP {α : Type} {p q : α → Bool} :
    ∀ {l : List α}, (∀ a ∈ l, q a → p a) → (∃ a ∈ l, p a ∧ ¬ q a) → l.countP q < l.countP p
  | [], _, ⟨_, ha, _⟩ => absurd ha (List.not_mem_nil _)
  | a :: l, hle, ⟨b, hb, hpb, hqb⟩ => by
      have hl : ∀ c ∈ l, q c → p c := fun c hc => hle c (List.mem_cons_of_mem a hc)
      have ha := hle a (List.mem_cons_self a l)
      simp only [List.countP_cons]
      rcases List.mem_cons.1 hb with rfl | hb
      · have := List.countP_mono_left hl
        rw [if_pos hpb, if_neg hqb]
        omega
      · have := countP_lt_countP hl ⟨b, hb, hpb, hqb⟩
        by_cases hq : q a
        · rw [if_pos hq, if_pos (ha hq)]
          omega
        · rw [if_neg hq]
          split <;> omega

theorem notOwned_update_lt {owner : List Base → Option GPtr} {key : List Base} {kc : KmerCounts}
    (hkey : (key, kc) ∈ d.entries) (hfree : owner key ≠ some tok) :
    notOwned d tok (Function.update owner key (some tok)) < notOwned d tok owner := by
  refine countP_lt_countP (fun e _ h => ?_) ⟨(key, kc), hkey, by simpa using hfree, by simp⟩
  rw [Function.update_apply] at h
  split at h <;> simp_all

theorem notOwned_claim {owner : List Base → Option GPtr} {dirn : Dirn} {w : WalkState}
    {key : List Base} {count : Nat} {ext : Base} {next : WalkState}
    (hg : getNextStep d owner dirn tok w = .claim key count ext next) :
    notOwned d tok (Function.update owner key (some tok)) + 1 ≤
      notOwned d tok owner + w.revisitAllowed.toNat := by
  obtain ⟨-, -, ⟨kc, hf, -, -⟩, hown, -⟩ := getNextStep_eq_claim hg
  rcases hown with hn | ⟨hs, hr⟩
  · have : notOwned d tok (Function.update owner key (some tok)) < notOwned d tok owner :=
      notOwned_update_lt (mem_of_find hf) (by simp [hn])
    omega
  · have hself : Function.update owner key (some tok) = owner :=
      Function.update_eq_self_iff.2 hs.symm
    rw [hself, hr]
    rfl

end Measure

section Termination

variable {d : KmerDHT} {L : Layout} {rankMe : Nat} {dirn : Dirn} {tok : GPtr}

theorem getNextStepLoop_some {f : Nat} {owner : List Base → Option GPtr} {si : StepInfo}
    {rv : Bool} {x : List Base} (hk : si.kmer = canonical x)
    (hf : notOwned d tok owner + rv.toNat < f) :
    ∃ si' owner', getNextStepLoop d L rankMe dirn tok f owner si rv (isRc x) = some (si', owner') ∧
      ∃ added, si'.uutig = si.uutig ++ added ∧
        notOwned d tok owner' + added.length ≤ notOwned d tok owner + rv.toNat ∧
        (si'.walkStatus = .running → added ≠ []) := by
  induction f generalizing owner si rv x with
  | zero => omega
  | succ f ih =>
      cases hg : getNextStep d owner dirn tok ⟨x, si.prevExt, si.nextExt, rv⟩ with
      | stop status v =>
          rw [getNextStepLoop_stop hk hg]
          exact ⟨_, _, rfl, [], by simp, by simp, fun h => absurd h (getNextStep_eq_stop hg).1⟩
      | claim key count ext next =>
          have hm := notOwned_claim hg
          dsimp only at hm
          rw [getNextStepLoop_claim hk hg]
          by_cases hh : L.home (canonical next.kmer) = rankMe
          · rw [if_neg (not_not.2 hh)]
            obtain ⟨si', owner', h, added, hu, hle, -⟩ :=
              @ih (Function.update owner key (some tok))
                { si.claim count ext next with kmer := canonical next.kmer } false next.kmer rfl
                (by simp only [Bool.toNat_false]; omega)
            exact ⟨si', owner', h, ext :: added, by simp [hu],
              by simp only [List.length_cons, Bool.toNat_false] at hle ⊢; omega,
              fun _ => List.cons_ne_nil _ _⟩
          · rw [if_pos hh]
            exact ⟨_, _, rfl, [ext], rfl, by simp only [List.length_singleton]; omega,
              fun _ => List.cons_ne_nil _ _⟩

variable {env : Interference tok} {S : Nat}

/-- The reissue loop started below the measure, with that much fuel for each invocation,
returns after at most one invocation more than the measure; the bases it appends, one per
claim, lower the measure each. -/
theorem traverseLoop_some {F i : Nat} {owner : List Base → Option GPtr} {kmer : List Base}
    {p : Option Base} {n : Base} {rv : Bool} {uutig : List Base} {sum : Nat}
    (hS : notOwned d tok owner + rv.toNat < S) (hF : notOwned d tok owner + rv.toNat < F) :
    ∃ r, traverseLoop d L dirn tok env S F i owner kmer p n rv uutig sum = some r ∧
      r.numRpcs ≤ i + notOwned d tok owner + rv.toNat + 1 ∧
      ∃ added, added.length + notOwned d tok r.owner ≤ notOwned d tok owner + rv.toNat ∧
        r.uutig = if dirn = .left then (uutig ++ added).reverse else uutig ++ added := by
  induction F generalizing i owner kmer p n rv uutig sum with
  | zero => omega
  | succ F ih =>
      rw [← notOwned_step env i] at hS
      obtain ⟨si, owner', hl, added, hu, hle, hrun⟩ :=
        @getNextStepLoop_some d L (L.home (canonical kmer)) dirn tok S (env.step i owner)
          ⟨canonical kmer, p, n, [], 0, .running, none⟩ rv kmer rfl hS
      rw [notOwned_step] at hS hle
      rw [traverseLoop, hl, Option.some_bind]
      dsimp only
      by_cases hr : si.walkStatus = .running
      · rw [if_neg (not_not.2 hr)]
        have hpos : 0 < added.length := List.length_pos.2 (hrun hr)
        obtain ⟨r, h, hrpc, added', hle', hu'⟩ :=
          @ih (i + 1) owner' si.kmer si.prevExt si.nextExt false (uutig ++ si.uutig)
            (sum + si.sumDepths) (by simp only [Bool.toNat_false]; omega)
            (by simp only [Bool.toNat_false]; omega)
        refine ⟨r, h, by simp only [Bool.toNat_false] at hrpc; omega, added ++ added', ?_, ?_⟩
        · simp only [Bool.toNat_false, List.length_append] at hle' ⊢
          omega
        · simp [hu', hu]
      · rw [if_pos hr]
        exact ⟨_, rfl, by dsimp only; omega, added, by dsimp only; omega, by simp [hu]⟩

/-- Every call of `traverse_dirn` on an index of `N` k-mers ends, whatever other walks do
between its invocations: within `N + 2` invocations, appending one base per claim and at
most `N + 1` of them. Every claim but the RIGHT call's revisit of its start k-mer takes a
k-mer the walk did not own. -/
theorem traverse_dirn_terminates (d : KmerDHT) (L : Layout) (dirn : Dirn) (tok : GPtr)
    (env : Interference tok) (owner : List Base → Option GPtr) (kmer uutig : List Base)
    (sumDepths fuel : Nat) (hfuel : d.entries.length + 2 ≤ fuel) :
    ∃ r, traverseDirn d L dirn tok env fuel owner kmer uutig sumDepths = some r ∧
      r.numRpcs ≤ d.entries.length + 2 ∧
      ∃ claimed, claimed.length + notOwned d tok r.owner ≤
          notOwned d tok owner + (if dirn = .right then 1 else 0) ∧
        claimed.length ≤ d.entries.length + 1 ∧
        r.uutig = if dirn = .left then (uutig ++ claimed).reverse
          else uutig ++ mid kmer ++ claimed := by
  have hN := @notOwned_le_length d tok owner
  have hrv : (if dirn = .left then false else true).toNat = if dirn = .right then 1 else 0 := by
    cases dirn <;> rfl
  have hrv1 : (if dirn = .right then 1 else 0) ≤ 1 := by split <;> omega
  obtain ⟨r, h, hrpc, claimed, hle, hu⟩ :=
    @traverseLoop_some d L dirn tok env fuel fuel 0 owner kmer none
      (if dirn = .left then front kmer else back kmer) (if dirn = .left then false else true)
      (if dirn = .right then uutig ++ mid kmer else uutig) sumDepths (by omega) (by omega)
  rw [hrv] at hrpc hle
  refine ⟨r, h, by omega, claimed, hle, by omega, ?_⟩
  cases dirn <;> simpa using hu

/-- The circle `AC` at `k = 1`: the k-mers `A` and `C`, each extended by the other on both
sides. -/
def circleAC : KmerDHT :=
  ⟨1, by decide, [([.A], ⟨1, .base .C, .base .C⟩), ([.C], ⟨1, .base .A, .base .A⟩)], by decide,
    by decide, by decide⟩

/-- `C` on process 1 and `A` on process 0: every step round the circle leaves the process. -/
def splitAC : Layout :=
  ⟨2, fun x => if x = [.C] then 1 else 0, fun x => by dsimp only; split <;> decide⟩

theorem traverse_dirn_terminates_circleAC :
    circleAC.entries.length + 2 ≤ 4 ∧
      ∃ r, traverseDirn circleAC splitAC .right ⟨0, 0⟩ (Interference.idle ⟨0, 0⟩) 4
          (fun _ => none) [.A] [] 0 = some r ∧
        r.numRpcs ≤ circleAC.entries.length + 2 ∧
        ∃ claimed, claimed.length + notOwned circleAC ⟨0, 0⟩ r.owner ≤
            notOwned circleAC ⟨0, 0⟩ (fun _ => none) + (if Dirn.right = .right then 1 else 0) ∧
          claimed.length ≤ circleAC.entries.length + 1 ∧
          r.uutig = if Dirn.right = .left then ([] ++ claimed).reverse
            else [] ++ mid [.A] ++ claimed :=
  ⟨by decide, traverse_dirn_terminates _ _ _ _ _ _ _ _ _ _ (by decide)⟩

end Termination

section Refinement

variable {d : KmerDHT} {L : Layout} {rankMe : Nat} {dirn : Dirn} {tok : GPtr}

theorem walkDirn_succ {G : Nat} {owner : List Base → Option GPtr} {w : WalkState}
    {u : List Base} {s : Nat} {res : Outcome × Nat} (h : walkDirn d dirn tok G owner w u s = some res) :
    walkDirn d dirn tok (G + 1) owner w u s = some res := by
  induction G generalizing owner w u s with
  | zero => cases h
  | succ G ih =>
      cases hg : getNextStep d owner dirn tok w with
      | stop status v => rwa [walkDirn_stop hg] at h ⊢
      | claim key count ext next =>
          rw [walkDirn_claim hg] at h ⊢
          exact ih h

theorem walkDirn_add {G : Nat} {owner : List Base → Option GPtr} {w : WalkState}
    {u : List Base} {s : Nat} {res : Outcome × Nat} (h : walkDirn d dirn tok G owner w u s = some res)
    (j : Nat) : walkDirn d dirn tok (G + j) owner w u s = some res := by
  induction j with
  | zero => exact h
  | succ j ih => exact walkDirn_succ ih

theorem walkDirn_unique {G G' : Nat} {owner : List Base → Option GPtr} {w : WalkState}
    {u : List Base} {s : Nat} {res res' : Outcome × Nat}
    (h : walkDirn d dirn tok G owner w u s = some res)
    (h' : walkDirn d dirn tok G' owner w u s = some res') : res = res' := by
  rcases le_total G G' with hle | hle
  · obtain ⟨j, rfl⟩ := Nat.exists_eq_add_of_le hle
    exact Option.some.inj ((walkDirn_add h j).symm.trans h')
  · obtain ⟨j, rfl⟩ := Nat.exists_eq_add_of_le hle
    exact Option.some.inj (h.symm.trans (walkDirn_add h' j))

/-- An invocation is a stretch of the plain walk. From the walk-oriented k-mer `x` whose
canonical form it starts at, the plain walk appends the bases the invocation appends and
adds what it adds to `sum_depths` modulo `2 ^ 32`. It then ends as the invocation ends, or,
after a `RUNNING` result, goes on from the k-mer the invocation returns. -/
theorem getNextStepLoop_walkDirn {f : Nat} {owner owner' : List Base → Option GPtr}
    {si si' : StepInfo} {rv : Bool} {x : List Base} (hk : si.kmer = canonical x)
    (h : getNextStepLoop d L rankMe dirn tok f owner si rv (isRc x) = some (si', owner')) :
    ∃ added sum, si'.uutig = si.uutig ++ added ∧
      si'.sumDepths % 2 ^ 32 = (si.sumDepths + sum) % 2 ^ 32 ∧
      ∀ g u s, walkDirn d dirn tok (g + 1 + added.length) owner ⟨x, si.prevExt, si.nextExt, rv⟩ u s =
        if si'.walkStatus = .running then
          walkDirn d dirn tok (g + 1) owner' ⟨si'.kmer, si'.prevExt, si'.nextExt, false⟩
            (u ++ added) (s + sum)
        else some (⟨u ++ added, si'.walkStatus, si'.visitedFragElemGptr, owner'⟩, s + sum) := by
  induction f generalizing owner si rv x with
  | zero => cases h
  | succ f ih =>
      cases hg : getNextStep d owner dirn tok ⟨x, si.prevExt, si.nextExt, rv⟩ with
      | stop status v =>
          rw [getNextStepLoop_stop hk hg] at h
          obtain ⟨rfl, rfl⟩ := Prod.mk.inj (Option.some.inj h)
          refine ⟨[], 0, by simp, by simp, fun g u s => ?_⟩
          rw [if_neg (getNextStep_eq_stop hg).1]
          simpa using walkDirn_stop hg
      | claim key count ext next =>
          have hnext := eq_of_claim hg
          rw [getNextStepLoop_claim hk hg] at h
          by_cases hh : L.home (canonical next.kmer) = rankMe
          · rw [if_neg (not_not.2 hh)] at h
            obtain ⟨added, sum, hu, hs, hw⟩ := ih rfl h
            refine ⟨ext :: added, count + sum, by simp [hu], ?_, fun g u s => ?_⟩
            · rw [hs]
              simp [Nat.add_assoc]
            · rw [show g + 1 + (ext :: added).length = g + 1 + added.length + 1 from rfl,
                walkDirn_claim hg, hnext]
              simpa [Nat.add_assoc] using hw g (u ++ [ext]) (s + count)
          · rw [if_pos hh] at h
            obtain ⟨rfl, rfl⟩ := Prod.mk.inj (Option.some.inj h)
            refine ⟨[ext], count, rfl, by simp, fun g u s => ?_⟩
            rw [StepInfo.claim_walkStatus, if_pos rfl, List.length_singleton, walkDirn_claim hg]
            exact congrArg (walkDirn d dirn tok (g + 1) _ · _ _) hnext

theorem traverseLoop_walkDirn {S F i : Nat} {owner : List Base → Option GPtr} {kmer : List Base}
    {p : Option Base} {n : Base} {rv : Bool} {uutig : List Base} {sum : Nat} {r : DirnResult}
    (h : traverseLoop d L dirn tok (Interference.idle tok) S F i owner kmer p n rv uutig sum =
      some r)
    (sumA : Nat) (hsum : sumA % 2 ^ 32 = sum % 2 ^ 32) :
    ∃ G o s, walkDirn d dirn tok G owner ⟨kmer, p, n, rv⟩ uutig sumA = some (o, s) ∧
      r.toOutcome = o.finish dirn ∧ r.sumDepths % 2 ^ 32 = s % 2 ^ 32 := by
  induction F generalizing i owner kmer p n rv uutig sum sumA with
  | zero => cases h
  | succ F ih =>
      rw [traverseLoop, Interference.idle_step] at h
      cases hl : getNextStepLoop d L (L.home (canonical kmer)) dirn tok S owner
          ⟨canonical kmer, p, n, [], 0, .running, none⟩ rv (isRc kmer) with
      | none => rw [hl] at h; cases h
      | some res =>
          obtain ⟨si, owner'⟩ := res
          obtain ⟨added, sm, hu, hs, hw⟩ := getNextStepLoop_walkDirn (x := kmer) rfl hl
          rw [hl, Option.some_bind] at h
          dsimp only at h hu hs hw
          rw [List.nil_append] at hu
          rw [Nat.zero_add] at hs
          have hsum' : (sumA + sm) % 2 ^ 32 = (sum + si.sumDepths) % 2 ^ 32 := by
            rw [Nat.add_mod, hsum, ← hs, ← Nat.add_mod]
          by_cases hr : si.walkStatus = .running
          · rw [if_neg (not_not.2 hr)] at h
            obtain ⟨G, o, s, hG, ho, hs'⟩ := ih h (sumA + sm) hsum'
            cases G with
            | zero => cases hG
            | succ g =>
                refine ⟨g + 1 + added.length, o, s, ?_, ho, hs'⟩
                rw [hw g uutig sumA, if_pos hr]
                rwa [hu] at hG
          · rw [if_pos hr] at h
            cases h
            refine ⟨0 + 1 + added.length, _, sumA + sm, by rw [hw 0 uutig sumA, if_neg hr], ?_,
              hsum'.symm⟩
            simp [Outcome.finish, hu]

/-- With no other walk and enough fuel, `traverse_dirn` returns, and returns what the plain
walk from its start computes. -/
theorem traverseDirn_walkDirn (L : Layout) (owner : List Base → Option GPtr)
    (kmer uutig : List Base) (sumDepths fuel : Nat) (hfuel : d.entries.length + 2 ≤ fuel) :
    ∃ r, traverseDirn d L dirn tok (Interference.idle tok) fuel owner kmer uutig sumDepths =
        some r ∧
      ∃ G o s, walkDirn d dirn tok G owner
          ⟨kmer, none, if dirn = .left then front kmer else back kmer,
            if dirn = .left then false else true⟩
          (if dirn = .right then uutig ++ mid kmer else uutig) sumDepths = some (o, s) ∧
        r.toOutcome = o.finish dirn ∧ r.sumDepths % 2 ^ 32 = s % 2 ^ 32 := by
  have hN := @notOwned_le_length d tok owner
  have hrv : (if dirn = .left then false else true).toNat ≤ 1 := by split <;> decide
  obtain ⟨r, h, -⟩ :=
    @traverseLoop_some d L dirn tok (Interference.idle tok) fuel fuel 0 owner kmer none
      (if dirn = .left then front kmer else back kmer) (if dirn = .left then false else true)
      (if dirn = .right then uutig ++ mid kmer else uutig) sumDepths (by omega) (by omega)
  exact ⟨r, h, traverseLoop_walkDirn h sumDepths rfl⟩

/-- With no other walk, `traverse_dirn` leaves the same uutig, terminal status, neighbour
pointer and owner pointers whatever process each k-mer lives on: with one process, where the
whole walk is the local loop of one invocation, as with a new invocation at every step. -/
theorem traverse_dirn_layout_independent (d : KmerDHT) (dirn : Dirn) (tok : GPtr)
    (owner : List Base → Option GPtr) (kmer uutig : List Base) (sumDepths fuel : Nat)
    (hfuel : d.entries.length + 2 ≤ fuel) :
    ∃ out, ∀ L : Layout,
      (traverseDirn d L dirn tok (Interference.idle tok) fuel owner kmer uutig sumDepths).map
        DirnResult.toOutcome = some out := by
  obtain ⟨-, -, G₀, o₀, s₀, hw₀, -⟩ :=
    traverseDirn_walkDirn Ownership.oneRank owner kmer uutig sumDepths fuel hfuel
  refine ⟨o₀.finish dirn, fun L => ?_⟩
  obtain ⟨r, h, G, o, s, hw, ho, -⟩ := traverseDirn_walkDirn L owner kmer uutig sumDepths fuel hfuel
  rw [h, Option.map_some', ho, (Prod.mk.inj (walkDirn_unique hw hw₀)).1]

theorem traverse_dirn_layout_independent_circleAC :
    circleAC.entries.length + 2 ≤ 4 ∧
      ∃ out, ∀ L : Layout,
        (traverseDirn circleAC L .right ⟨0, 0⟩ (Interference.idle ⟨0, 0⟩) 4 (fun _ => none)
          [.A] [] 0).map DirnResult.toOutcome = some out :=
  ⟨by decide, traverse_dirn_layout_independent _ _ _ _ _ _ _ _ (by decide)⟩

/-- Round the circle from `A`, one process walks it in one invocation and two processes in
three; both give the uutig `AC` and stop at the walk's own `A`. -/
example : (traverseDirn circleAC splitAC .right ⟨0, 0⟩ (Interference.idle ⟨0, 0⟩) 4
    (fun _ => none) [.A] [] 0).map (fun r => (r.uutig, r.walkStatus, r.numRpcs)) =
      some ([.A, .C], .repeat, 3) := by decide

example : (traverseDirn circleAC Ownership.oneRank .right ⟨0, 0⟩ (Interference.idle ⟨0, 0⟩) 4
    (fun _ => none) [.A] [] 0).map (fun r => (r.uutig, r.walkStatus, r.numRpcs)) =
      some ([.A, .C], .repeat, 1) := by decide

theorem getNextStepLoop_ne_running {f : Nat} {owner owner' : List Base → Option GPtr}
    {si si' : StepInfo} {rv : Bool} {x : List Base} (hk : si.kmer = canonical x)
    (hL : ∀ y, L.home y = rankMe)
    (h : getNextStepLoop d L rankMe dirn tok f owner si rv (isRc x) = some (si', owner')) :
    si'.walkStatus ≠ .running := by
  induction f generalizing owner si rv x with
  | zero => cases h
  | succ f ih =>
      cases hg : getNextStep d owner dirn tok ⟨x, si.prevExt, si.nextExt, rv⟩ with
      | stop status v =>
          rw [getNextStepLoop_stop hk hg] at h
          obtain ⟨rfl, -⟩ := Prod.mk.inj (Option.some.inj h)
          exact (getNextStep_eq_stop hg).1
      | claim key count ext next =>
          rw [getNextStepLoop_claim hk hg, if_neg (not_not.2 (hL _))] at h
          exact ih rfl h

theorem getNextStepLoop_sumDepths_lt {f : Nat} {owner owner' : List Base → Option GPtr}
    {si si' : StepInfo} {rv rc : Bool} (hs : si.sumDepths < 2 ^ 32)
    (h : getNextStepLoop d L rankMe dirn tok f owner si rv rc = some (si', owner')) :
    si'.sumDepths < 2 ^ 32 := by
  induction f generalizing owner si rv rc with
  | zero => cases h
  | succ f ih =>
      rw [getNextStepLoop] at h
      split at h
      · cases h
        exact hs
      · split at h
        · cases h
          exact Nat.mod_lt _ (Nat.two_pow_pos 32)
        · exact ih (Nat.mod_lt _ (Nat.two_pow_pos 32)) h

/-- With one process, `traverse_dirn` issues one invocation: the whole walk is the local loop
of `get_next_step`. It adds to the caller's `sum_depths` the walk's sum of counts modulo
`2 ^ 32`. -/
theorem traverseDirn_one_process {env : Interference tok} {fuel sumDepths : Nat}
    {owner : List Base → Option GPtr} {kmer uutig : List Base} {r : DirnResult}
    (hL : L.rankN = 1)
    (h : traverseDirn d L dirn tok env fuel owner kmer uutig sumDepths = some r) :
    r.numRpcs = 1 ∧ ∃ G o s, walkDirn d dirn tok G (env.step 0 owner)
        ⟨kmer, none, if dirn = .left then front kmer else back kmer,
          if dirn = .left then false else true⟩
        (if dirn = .right then uutig ++ mid kmer else uutig) 0 = some (o, s) ∧
      r.toOutcome = o.finish dirn ∧ r.sumDepths = sumDepths + s % 2 ^ 32 := by
  have hhome : ∀ y, L.home y = L.home (canonical kmer) := fun y => by
    have := L.home_lt y
    have := L.home_lt (canonical kmer)
    omega
  cases fuel with
  | zero => cases h
  | succ F =>
      rw [traverseDirn, traverseLoop] at h
      cases hl : getNextStepLoop d L (L.home (canonical kmer)) dirn tok (F + 1) (env.step 0 owner)
          ⟨canonical kmer, none, if dirn = .left then front kmer else back kmer, [], 0, .running,
            none⟩ (if dirn = .left then false else true) (isRc kmer) with
      | none => rw [hl] at h; cases h
      | some res =>
          obtain ⟨si, owner'⟩ := res
          have hne := getNextStepLoop_ne_running rfl hhome hl
          have hlt := getNextStepLoop_sumDepths_lt (Nat.two_pow_pos 32) hl
          obtain ⟨added, sm, hu, hs, hw⟩ := getNextStepLoop_walkDirn (x := kmer) rfl hl
          rw [hl, Option.some_bind] at h
          dsimp only at h hu hs hw
          rw [if_pos hne] at h
          cases h
          refine ⟨rfl, 0 + 1 + added.length, _, 0 + sm, by rw [hw 0 _ 0, if_neg hne], ?_, ?_⟩
          · simp [Outcome.finish, hu]
          · rw [← hs, Nat.mod_eq_of_lt hlt]

end Refinement

end Mhm2Proxy.TraverseDirn
