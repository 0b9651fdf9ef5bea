import Mhm2Proxy.KmerIndex

namespace Mhm2Proxy.GetNextStep

open Mhm2Proxy.Kmer
open Mhm2Proxy.KmerIndex

inductive Dirn
  | left
  | right
  deriving DecidableEq, Repr

inductive WalkStatus
  | running
  | deadend
  | fork
  | conflict
  | repeat
  | visited
  deriving DecidableEq, Repr

/-- A `global_ptr<FragElem>`: the owning process and the position of the fragment in that
process's `frag_elems`. -/
structure GPtr where
  rank : Nat
  idx : Nat
  deriving DecidableEq, Repr

/-- The loop variables that `traverse_dirn` hands to `get_next_step` and gets back in the
`StepInfo`: the k-mer in walk orientation, the extension the walk arrived by (`0` in the code
is `none`), the base the next claim appends, and `revisit_allowed`. -/
structure WalkState where
  kmer : List Base
  prevExt : Option Base
  nextExt : Base
  revisitAllowed : Bool
  deriving DecidableEq, Repr

/-- One iteration of the loop of `get_next_step`, run atomically at the home of the k-mer:
either a claim of `key`, which appends `ext` to the uutig and adds `count` to `sum_depths`,
or a terminal status with `visited_frag_elem_gptr`. -/
inductive StepResult
  | claim (key : List Base) (count : Nat) (ext : Base) (next : WalkState)
  | stop (status : WalkStatus) (visitedFragElemGptr : Option GPtr)

/-- `traverse_dirn` entering the LEFT walk from `kmer`. -/
def leftStart (kmer : List Base) : WalkState :=
  ⟨kmer, none, front kmer, false⟩

/-- `traverse_dirn` entering the RIGHT walk from `kmer`; it may revisit its start. -/
def rightStart (kmer : List Base) : WalkState :=
  ⟨kmer, none, back kmer, true⟩

/-- The move after a claim: step one base in the walk direction, remembering the base that
falls off as `prev_ext`. -/
def advance (dirn : Dirn) (kmer : List Base) (ext : Base) : WalkState :=
  match dirn with
  | .left => ⟨backwardBase kmer ext, some (back kmer), ext, false⟩
  | .right => ⟨forwardBase kmer ext, some (front kmer), ext, false⟩

@[simp] theorem advance_revisitAllowed (dirn : Dirn) (kmer : List Base) (ext : Base) :
    (advance dirn kmer ext).revisitAllowed = false := by
  cases dirn <;> rfl

/-- The conflict test: the stored extension on the side we enter by must be the base we
arrived by. -/
def conflicts (dirn : Dirn) (prevExt : Option Base) (left right : Base) : Bool :=
  match prevExt, dirn with
  | none, _ => false
  | some p, .left => decide (p ≠ right)
  | some p, .right => decide (p ≠ left)

/-- The claim branch of `get_next_step`: mark the k-mer, append `next_ext`, and advance from
the k-mer in walk orientation (`revcomp` of the stored key when `is_rc`). -/
def claimStep (dirn : Dirn) (key : List Base) (kc : KmerCounts) (rc : Bool) (left right : Base)
    (w : WalkState) : StepResult :=
  .claim key kc.count w.nextExt
    (advance dirn (if rc then revcomp key else key) (match dirn with
      | .left => left
      | .right => right))

/-- The tests on the stored extensions: `'X'` on either side ends the walk as a dead end,
then `'F'` on either side as a fork. -/
def extStatus (kc : KmerCounts) : Except WalkStatus (Base × Base) :=
  match kc.left, kc.right with
  | .deadend, _ => .error .deadend
  | _, .deadend => .error .deadend
  | .fork, _ => .error .fork
  | _, .fork => .error .fork
  | .base l, .base r => .ok (l, r)

/-- The extensions in walk orientation: swapped and complemented when `is_rc`. -/
def oriented (rc : Bool) (l r : Base) : Base × Base :=
  if rc then (r.comp, l.comp) else (l, r)

/-- The owner tests: another walk's k-mer ends the walk as `VISITED`, the walk's own k-mer as
`REPEAT` unless a revisit is allowed; otherwise the walk claims. -/
def ownerCheck (owner : Option GPtr) (fragElemGptr : GPtr) (revisitAllowed : Bool)
    (claim : StepResult) : StepResult :=
  match owner with
  | some o =>
      if o ≠ fragElemGptr then .stop .visited (some o)
      else if !revisitAllowed then .stop .repeat none
      else claim
  | none => claim

/-- One iteration of `get_next_step` for the walk owning `fragElemGptr`. -/
def getNextStep (d : KmerDHT) (owner : List Base → Option GPtr) (dirn : Dirn)
    (fragElemGptr : GPtr) (w : WalkState) : StepResult :=
  let key := canonical w.kmer
  let rc := isRc w.kmer
  match find key d.entries with
  | none => .stop .deadend none
  | some kc =>
      match extStatus kc with
      | .error status => .stop status none
      | .ok (l, r) =>
          let (left, right) := oriented rc l r
          if conflicts dirn w.prevExt left right then .stop .conflict none
          else ownerCheck (owner key) fragElemGptr w.revisitAllowed
            (claimStep dirn key kc rc left right w)

theorem extStatus_ok_iff {kc : KmerCounts} :
    (∃ lr, extStatus kc = .ok lr) ↔ kc.isWalkable = true := by
  unfold extStatus KmerCounts.isWalkable
  split <;> simp_all

theorem extStatus_error {kc : KmerCounts} {status : WalkStatus}
    (h : extStatus kc = .error status) : status ≠ .running := by
  unfold extStatus at h
  split at h <;> cases h <;> simp

theorem ownerCheck_eq_claim {o : Option GPtr} {tok : GPtr} {rv : Bool} {c : StepResult}
    {key : List Base} {count : Nat} {ext : Base} {next : WalkState}
    (h : ownerCheck o tok rv c = .claim key count ext next) :
    c = .claim key count ext next ∧ (o = none ∨ (o = some tok ∧ rv = true)) := by
  unfold ownerCheck at h
  split at h
  · split at h
    · cases h
    · split at h
      · cases h
      · simp_all
  · simp_all

theorem ownerCheck_eq_stop {o : Option GPtr} {tok : GPtr} {rv : Bool} {c : StepResult}
    {status : WalkStatus} {v : Option GPtr} (h : ownerCheck o tok rv c = .stop status v) :
    c = .stop status v ∨
      (status ≠ .running ∧ ∀ o', v = some o' → o = some o' ∧ o' ≠ tok) := by
  unfold ownerCheck at h
  split at h
  · split at h
    · cases h; simp_all
    · split at h
      · cases h; simp
      · exact .inl h
  · exact .inl h

section

variable {d : KmerDHT} {owner : List Base → Option GPtr} {dirn : Dirn} {tok : GPtr}
  {w : WalkState}

/-- Everything a claim tells: the canonical form of the current k-mer is an index key with
extensions on both sides, it was free or already the walk's own with a revisit allowed, the
claim appends `next_ext`, and the walk moves one base on from the current k-mer. -/
theorem getNextStep_eq_claim {key : List Base} {count : Nat} {ext : Base} {next : WalkState}
    (h : getNextStep d owner dirn tok w = .claim key count ext next) :
    key = canonical w.kmer ∧ ext = w.nextExt ∧
      (∃ kc, find key d.entries = some kc ∧ kc.isWalkable = true ∧ count = kc.count) ∧
      (owner key = none ∨ (owner key = some tok ∧ w.revisitAllowed = true)) ∧
      ∃ e, next = advance dirn w.kmer e := by
  unfold getNextStep at h
  simp only at h
  cases hf : find (canonical w.kmer) d.entries with
  | none => simp [hf] at h
  | some kc =>
      cases he : extStatus kc with
      | error st => simp [hf, he] at h
      | ok lr =>
          have hw := extStatus_ok_iff.1 ⟨lr, he⟩
          simp only [hf, he] at h
          split at h
          · cases h
          · obtain ⟨hc, ho⟩ := ownerCheck_eq_claim h
            simp only [claimStep, StepResult.claim.injEq] at hc
            obtain ⟨rfl, rfl, rfl, rfl⟩ := hc
            exact ⟨rfl, rfl, ⟨kc, hf, hw, rfl⟩, ho, _, by rw [orient_canonical]⟩

/-- A terminal status is never `RUNNING`, and a `VISITED` pointer is the owner of the k-mer
the walk stopped at, a walk other than this one. -/
theorem getNextStep_eq_stop {status : WalkStatus} {v : Option GPtr}
    (h : getNextStep d owner dirn tok w = .stop status v) :
    status ≠ .running ∧ ∀ o, v = some o → owner (canonical w.kmer) = some o ∧ o ≠ tok := by
  unfold getNextStep at h
  simp only at h
  cases hf : find (canonical w.kmer) d.entries with
  | none => simp only [hf, StepResult.stop.injEq] at h; simp [← h.1, ← h.2]
  | some kc =>
      cases he : extStatus kc with
      | error st =>
          simp only [hf, he, StepResult.stop.injEq] at h
          obtain ⟨rfl, rfl⟩ := h
          exact ⟨extStatus_error he, by simp⟩
      | ok lr =>
          simp only [hf, he] at h
          split at h
          · simp only [StepResult.stop.injEq] at h
            simp [← h.1, ← h.2]
          · rcases ownerCheck_eq_stop h with h | h
            · simp [claimStep] at h
            · exact h

theorem getNextStep_claims {kc : KmerCounts} (hkey : canonical w.kmer = w.kmer)
    (hfind : find w.kmer d.entries = some kc) (hw : kc.isWalkable = true)
    (hprev : w.prevExt = none)
    (hown : owner w.kmer = none ∨ (owner w.kmer = some tok ∧ w.revisitAllowed = true)) :
    ∃ count ext next, getNextStep d owner dirn tok w = .claim w.kmer count ext next := by
  obtain ⟨⟨l, r⟩, he⟩ := extStatus_ok_iff.2 hw
  unfold getNextStep
  simp only [hkey, hfind, he, hprev]
  have hc : conflicts dirn none (oriented (isRc w.kmer) l r).1
      (oriented (isRc w.kmer) l r).2 = false := by
    cases dirn <;> rfl
  simp only [hc, Bool.false_eq_true, if_false]
  rcases hown with hn | ⟨hs, hr⟩
  · simp only [hn, ownerCheck, claimStep]
    exact ⟨_, _, _, rfl⟩
  · simp only [hs, ownerCheck, ne_eq, not_true_eq_false, if_false, hr, Bool.not_true,
      Bool.false_eq_true, claimStep]
    exact ⟨_, _, _, rfl⟩

end

end Mhm2Proxy.GetNextStep
