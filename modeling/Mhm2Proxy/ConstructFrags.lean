import Mhm2Proxy.GetNextStep

/-!
`construct_frags` on every process at once. A process either starts a walk from its next
local k-mer or runs one iteration of the loop of `get_next_step` for its walk in flight.
Iterations of different walks interleave in any order (a schedule of process ids); an
iteration is atomic, as the home process runs it. The code runs the local stretch of a walk
without interruption, so every interleaving of the code is one of the model.
-/

namespace Mhm2Proxy.ConstructFrags

open Mhm2Proxy.Kmer
open Mhm2Proxy.KmerIndex
open Mhm2Proxy.GetNextStep

/-- `WalkTermStats`: the terminal statuses counted per process. -/
structure WalkTermStats where
  numDeadends : Nat
  numForks : Nat
  numConflicts : Nat
  numRepeats : Nat
  numVisited : Nat
  deriving Repr

/-- `WalkTermStats::update`, which dies on a status that does not end a walk. -/
def WalkTermStats.update (st : WalkTermStats) : WalkStatus → Except String WalkTermStats
  | .deadend => .ok { st with numDeadends := st.numDeadends + 1 }
  | .fork => .ok { st with numForks := st.numForks + 1 }
  | .conflict => .ok { st with numConflicts := st.numConflicts + 1 }
  | .repeat => .ok { st with numRepeats := st.numRepeats + 1 }
  | .visited => .ok { st with numVisited := st.numVisited + 1 }
  | .running => .error "Should never get here\n"

theorem WalkTermStats.update_ok (st : WalkTermStats) {status : WalkStatus}
    (h : status ≠ .running) : ∃ st', st.update status = .ok st' := by
  cases status <;> first | exact absurd rfl h | exact ⟨_, rfl⟩

/-- `FragElem`; `frag_len` is the length of `fragSeq`. -/
structure FragElem where
  leftGptr : Option GPtr
  rightGptr : Option GPtr
  leftIsRc : Bool
  rightIsRc : Bool
  fragSeq : List Base
  sumDepths : Nat
  visited : Bool
  deriving Repr

/-- A walk in flight: the body of the loop of `construct_frags` between `new_<FragElem>()`
and `frag_elems.push_back`. `uutig` and `sumDepths` are the variables the two calls of
`traverse_dirn` share, `leftGptr` the result of the LEFT call. -/
structure Walk where
  token : GPtr
  start : List Base
  dirn : Dirn
  state : WalkState
  uutig : List Base
  sumDepths : Nat
  leftGptr : Option GPtr

/-- The walk from `kmer` before its first iteration. -/
def Walk.init (token : GPtr) (kmer : List Base) : Walk :=
  ⟨token, kmer, .left, leftStart kmer, [], 0, none⟩

/-- The state of `construct_frags` on one process: the position `it` in its shard, the walk
in flight, the fragments built so far, and `walk_term_stats`. `fatal` records a `DIE`. -/
structure Proc where
  it : Nat
  walk : Option Walk
  fragElems : List FragElem
  walkTermStats : WalkTermStats
  fatal : Option String

/-- All processes during `construct_frags`, with the owner pointers `uutig_frag` of the
index. -/
structure Sys where
  owner : List Base → Option GPtr
  procs : Nat → Proc

/-- The walk after a claim that appends `ext` and adds `count` to `sum_depths`. -/
def Walk.claim (w : Walk) (count : Nat) (ext : Base) (next : WalkState) : Walk :=
  { w with state := next, uutig := w.uutig ++ [ext], sumDepths := w.sumDepths + count }

@[simp] theorem Walk.claim_token (w : Walk) (c : Nat) (x : Base) (n : WalkState) :
    (w.claim c x n).token = w.token := rfl

@[simp] theorem Walk.claim_start (w : Walk) (c : Nat) (x : Base) (n : WalkState) :
    (w.claim c x n).start = w.start := rfl

@[simp] theorem Walk.claim_dirn (w : Walk) (c : Nat) (x : Base) (n : WalkState) :
    (w.claim c x n).dirn = w.dirn := rfl

@[simp] theorem Walk.claim_state (w : Walk) (c : Nat) (x : Base) (n : WalkState) :
    (w.claim c x n).state = n := rfl

@[simp] theorem Walk.claim_uutig (w : Walk) (c : Nat) (x : Base) (n : WalkState) :
    (w.claim c x n).uutig = w.uutig ++ [x] := rfl

/-- The end of the LEFT call of `traverse_dirn`, which reverses the uutig, and the start of the
RIGHT call, which appends the middle of the start k-mer. -/
def Walk.turn (w : Walk) (v : Option GPtr) : Walk :=
  { w with dirn := .right, state := rightStart w.start, uutig := w.uutig.reverse ++ mid w.start,
           leftGptr := v }

/-- The fragment `construct_frags` stores when the RIGHT call ends with `right_gptr`. -/
def Walk.toFragElem (w : Walk) (v : Option GPtr) : FragElem :=
  ⟨w.leftGptr, v, false, false, w.uutig, w.sumDepths, false⟩

variable (d : KmerDHT) (L : Layout)

def Sys.init : Sys :=
  ⟨fun _ => none, fun _ => ⟨0, none, [], ⟨0, 0, 0, 0, 0⟩, none⟩⟩

/-- Process `r` with a new record. -/
def Sys.setProc (s : Sys) (r : Nat) (p : Proc) : Sys :=
  { s with procs := Function.update s.procs r p }

/-- One iteration of the walk `w` of process `r`, whose record is otherwise `p`. A claim
marks the k-mer and grows the uutig. A terminal status ends the LEFT call of
`traverse_dirn` and starts the RIGHT call, or ends the RIGHT call and the walk, which stores
the fragment. -/
def iterate (s : Sys) (r : Nat) (p : Proc) (w : Walk) : Sys :=
  match getNextStep d s.owner w.dirn w.token w.state with
  | .claim key count ext next =>
      { owner := Function.update s.owner key (some w.token)
        procs := Function.update s.procs r { p with walk := some (w.claim count ext next) } }
  | .stop status v =>
      match p.walkTermStats.update status with
      | .error msg => s.setProc r { p with walk := none, fatal := some msg }
      | .ok stats =>
          match w.dirn with
          | .left => s.setProc r { p with walkTermStats := stats, walk := some (w.turn v) }
          | .right =>
              s.setProc r { p with walkTermStats := stats, walk := none,
                                   fragElems := p.fragElems ++ [w.toFragElem v] }

section

variable {d} {s : Sys} {r : Nat} {p : Proc} {w : Walk}

theorem iterate_of_claim {key : List Base}
    {count : Nat} {ext : Base} {next : WalkState}
    (h : getNextStep d s.owner w.dirn w.token w.state = .claim key count ext next) :
    iterate d s r p w = ⟨Function.update s.owner key (some w.token),
      Function.update s.procs r { p with walk := some (w.claim count ext next) }⟩ := by
  simp [iterate, h]

theorem iterate_of_stop_left {status : WalkStatus}
    {v : Option GPtr} (h : getNextStep d s.owner w.dirn w.token w.state = .stop status v)
    (hd : w.dirn = .left) :
    ∃ stats, iterate d s r p w =
      s.setProc r { p with walkTermStats := stats, walk := some (w.turn v) } := by
  obtain ⟨stats, hst⟩ := p.walkTermStats.update_ok (getNextStep_eq_stop h).1
  exact ⟨stats, by unfold iterate; rw [h]; simp only [hst, hd]⟩

theorem iterate_of_stop_right {status : WalkStatus}
    {v : Option GPtr} (h : getNextStep d s.owner w.dirn w.token w.state = .stop status v)
    (hd : w.dirn = .right) :
    ∃ stats, iterate d s r p w =
      s.setProc r { p with walkTermStats := stats, walk := none,
                           fragElems := p.fragElems ++ [w.toFragElem v] } := by
  obtain ⟨stats, hst⟩ := p.walkTermStats.update_ok (getNextStep_eq_stop h).1
  exact ⟨stats, by unfold iterate; rw [h]; simp only [hst, hd]⟩

/-- What an iteration of a walk does: a claim, which moves the walk one base on; the end of
the LEFT call; or the end of the RIGHT call. A terminal status is never `RUNNING`, so the
`DIE` of `WalkTermStats::update` is not reached. -/
theorem iterate_cases :
    (∃ key count e, getNextStep d s.owner w.dirn w.token w.state =
        .claim key count w.state.nextExt (advance w.dirn w.state.kmer e) ∧
      iterate d s r p w = ⟨Function.update s.owner key (some w.token),
        Function.update s.procs r
          { p with walk := some (w.claim count w.state.nextExt
            (advance w.dirn w.state.kmer e)) }⟩) ∨
    (∃ status v stats, getNextStep d s.owner w.dirn w.token w.state = .stop status v ∧
      w.dirn = .left ∧
      iterate d s r p w = s.setProc r { p with walkTermStats := stats, walk := some (w.turn v) }) ∨
    (∃ status v stats, getNextStep d s.owner w.dirn w.token w.state = .stop status v ∧
      w.dirn = .right ∧
      iterate d s r p w = s.setProc r { p with walkTermStats := stats, walk := none,
                                               fragElems := p.fragElems ++ [w.toFragElem v] }) := by
  cases hget : getNextStep d s.owner w.dirn w.token w.state with
  | claim key count ext next =>
      obtain ⟨-, rfl, -, -, e, rfl⟩ := getNextStep_eq_claim hget
      exact .inl ⟨key, count, e, rfl, iterate_of_claim hget⟩
  | stop status v =>
      cases hd : w.dirn with
      | left =>
          obtain ⟨stats, h⟩ := iterate_of_stop_left hget hd
          exact .inr (.inl ⟨status, v, stats, rfl, rfl, h⟩)
      | right =>
          obtain ⟨stats, h⟩ := iterate_of_stop_right hget hd
          exact .inr (.inr ⟨status, v, stats, rfl, rfl, h⟩)

end

/-- Process `r` takes one step of `construct_frags`. -/
def constructStep (s : Sys) (r : Nat) : Sys :=
  let p := s.procs r
  if p.fatal.isSome then s else
  match p.walk with
  | some w => iterate d s r p w
  | none =>
      match (localKmers d L r).get? p.it with
      | none => s
      | some (kmer, kc) =>
          let p' := { p with it := p.it + 1 }
          if (s.owner kmer).isSome || !kc.isWalkable then s.setProc r p'
          else iterate d s r p' (Walk.init ⟨r, p.fragElems.length⟩ kmer)

/-- What a step of process `r` does: nothing (a process that died, or has gone through its
shard), one iteration of its walk in flight, a skip of the next k-mer of its shard, or the
start of a walk from it. -/
theorem constructStep_cases (s : Sys) (r : Nat) :
    constructStep d L s r = s ∨
    (∃ w, (s.procs r).walk = some w ∧ constructStep d L s r = iterate d s r (s.procs r) w) ∨
    (∃ kmer kc, (s.procs r).walk = none ∧
      (localKmers d L r).get? (s.procs r).it = some (kmer, kc) ∧
      ((s.owner kmer).isSome || !kc.isWalkable) = true ∧
      constructStep d L s r = s.setProc r { s.procs r with it := (s.procs r).it + 1 }) ∨
    (∃ kmer kc, (s.procs r).walk = none ∧
      (localKmers d L r).get? (s.procs r).it = some (kmer, kc) ∧
      s.owner kmer = none ∧ kc.isWalkable = true ∧
      constructStep d L s r = iterate d s r { s.procs r with it := (s.procs r).it + 1 }
        (Walk.init ⟨r, (s.procs r).fragElems.length⟩ kmer)) := by
  unfold constructStep
  dsimp only
  split
  · exact .inl rfl
  cases hw : (s.procs r).walk with
  | some w => exact .inr (.inl ⟨w, rfl, rfl⟩)
  | none =>
      cases hg : (localKmers d L r).get? (s.procs r).it with
      | none => exact .inl rfl
      | some e =>
          obtain ⟨kmer, kc⟩ := e
          dsimp only
          split
          · next hskip => exact .inr (.inr (.inl ⟨kmer, kc, rfl, rfl, hskip, rfl⟩))
          · next hstart =>
            simp only [Bool.or_eq_true, Bool.not_eq_true', not_or, Bool.not_eq_false] at hstart
            exact .inr (.inr (.inr ⟨kmer, kc, rfl, rfl, Option.not_isSome_iff_eq_none.1 hstart.1,
              hstart.2, rfl⟩))

/-- The states of `construct_frags` after any schedule of steps. -/
def runConstruct (s : Sys) : List Nat → Sys
  | [] => s
  | r :: rs => runConstruct (constructStep d L s r) rs

/-- Every process has gone through its shard and has no walk in flight: the barrier at the
end of `construct_frags` is passed. -/
def Sys.done (s : Sys) : Bool :=
  (List.range L.rankN).all fun r =>
    (s.procs r).walk.isNone && decide ((localKmers d L r).length ≤ (s.procs r).it)

inductive Reachable : Sys → Prop
  | init : Reachable Sys.init
  | step {s : Sys} (r : Nat) : Reachable s → Reachable (constructStep d L s r)

theorem reachable_runConstruct {s : Sys} (hs : Reachable d L s) :
    ∀ σ : List Nat, Reachable d L (runConstruct d L s σ)
  | [] => hs
  | r :: σ => reachable_runConstruct (hs.step r) σ

/-- The fragments of all processes. -/
def Sys.allFrags (s : Sys) : List FragElem :=
  (List.range L.rankN).flatMap fun r => (s.procs r).fragElems

end Mhm2Proxy.ConstructFrags
