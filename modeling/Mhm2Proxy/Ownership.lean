import Mhm2Proxy.ConstructFrags

/-!
The owner pointers `uutig_frag` during `construct_frags`. Only a claim writes one, and a walk
claims a k-mer that is free or already its own; its own only on the first step of the RIGHT
call, the one step with `revisit_allowed` set. None of this depends on the k-mer length.
-/

namespace Mhm2Proxy.Ownership

open Mhm2Proxy.Kmer
open Mhm2Proxy.KmerIndex
open Mhm2Proxy.GetNextStep
open Mhm2Proxy.ConstructFrags

/-- A walk in flight of process `r`, which has `n` fragments: its token is the slot after
them, and `revisit_allowed` is set only on the RIGHT call's first step, at the start
k-mer. -/
def WalkTok (r n : Nat) (w : Walk) : Prop :=
  w.token = ⟨r, n⟩ ∧
    (w.state.revisitAllowed = true → w.dirn = .right ∧ w.state = rightStart w.start)

/-- Every walk in flight has its token and its revisit flag as `WalkTok` says. -/
def Tokens (s : Sys) : Prop :=
  ∀ r w, (s.procs r).walk = some w → WalkTok r (s.procs r).fragElems.length w

theorem tokens_update {s : Sys} (h : Tokens s) (o : List Base → Option GPtr) {r : Nat}
    {p : Proc} (hp : ∀ w, p.walk = some w → WalkTok r p.fragElems.length w) :
    Tokens ⟨o, Function.update s.procs r p⟩ := by
  intro r' w hw
  by_cases hr : r' = r
  · subst hr
    simp only [Function.update_same] at hw ⊢
    exact hp w hw
  · simp only [Function.update_noteq hr] at hw ⊢
    exact h r' w hw

variable {d : KmerDHT} {L : Layout}

theorem Tokens.iterate {s : Sys} (h : Tokens s) {r : Nat} {p : Proc} {w : Walk}
    (hw : WalkTok r p.fragElems.length w) : Tokens (iterate d s r p w) := by
  rcases @iterate_cases d s r p w with
    ⟨key, count, e, -, heq⟩ | ⟨status, v, stats, -, hd, heq⟩ | ⟨status, v, stats, -, -, heq⟩ <;>
    rw [heq]
  · refine tokens_update h _ fun w' hw' => ?_
    cases hw'
    exact ⟨hw.1, by simp⟩
  · refine tokens_update h _ fun w' hw' => ?_
    cases hw'
    exact ⟨hw.1, fun _ => ⟨rfl, rfl⟩⟩
  · exact tokens_update h _ fun w' hw' => nomatch hw'

theorem tokens_constructStep {s : Sys} (h : Tokens s) (r : Nat) :
    Tokens (constructStep d L s r) := by
  rcases constructStep_cases d L s r with heq | ⟨w, hw, heq⟩ | ⟨_, _, -, -, -, heq⟩ |
    ⟨kmer, _, -, -, -, -, heq⟩ <;> rw [heq]
  · exact h
  · exact h.iterate (h r w hw)
  · exact tokens_update h _ fun w hw => h r w hw
  · exact h.iterate ⟨rfl, fun h => nomatch h⟩

theorem tokens_of_reachable {s : Sys} (hs : Reachable d L s) : Tokens s := by
  induction hs with
  | init => exact fun _ _ h => nomatch h
  | step r _ ih => exact tokens_constructStep ih r

section Owner

variable {s : Sys} {r : Nat} {p : Proc} {w : Walk} {x : List Base} {t : GPtr}

theorem owner_iterate_of_some (hx : s.owner x = some t) : (iterate d s r p w).owner x = some t := by
  rcases @iterate_cases d s r p w with
    ⟨key, count, e, hget, heq⟩ | ⟨_, _, _, -, -, heq⟩ | ⟨_, _, _, -, -, heq⟩ <;> rw [heq]
  · show Function.update s.owner key (some w.token) x = some t
    by_cases hxk : x = key
    · subst hxk
      rcases (getNextStep_eq_claim hget).2.2.2.1 with hn | ⟨ho, -⟩
      · rw [hx] at hn; cases hn
      · rw [Function.update_same, ← ho, hx]
    · rw [Function.update_noteq hxk, hx]
  · exact hx
  · exact hx

theorem owner_iterate_of_none (hx : s.owner x = none)
    (ht : (iterate d s r p w).owner x = some t) :
    t = w.token ∧ ∃ w', ((iterate d s r p w).procs r).walk = some w' ∧ w'.token = w.token := by
  rcases @iterate_cases d s r p w with
    ⟨key, count, e, -, heq⟩ | ⟨_, _, _, -, -, heq⟩ | ⟨_, _, _, -, -, heq⟩ <;> rw [heq] at ht ⊢
  · change Function.update s.owner key (some w.token) x = some t at ht
    by_cases hxk : x = key
    · subst hxk
      rw [Function.update_same, Option.some.injEq] at ht
      exact ⟨ht.symm, w.claim count w.state.nextExt (advance w.dirn w.state.kmer e), by simp, rfl⟩
    · rw [Function.update_noteq hxk, hx] at ht
      cases ht
  · rw [show (s.setProc _ _).owner x = s.owner x from rfl, hx] at ht
    cases ht
  · rw [show (s.setProc _ _).owner x = s.owner x from rfl, hx] at ht
    cases ht

theorem owner_constructStep_of_some (hx : s.owner x = some t) :
    (constructStep d L s r).owner x = some t := by
  rcases constructStep_cases d L s r with heq | ⟨_, -, heq⟩ | ⟨_, _, -, -, -, heq⟩ |
    ⟨_, _, -, -, -, -, heq⟩ <;> rw [heq]
  · exact hx
  · exact owner_iterate_of_some hx
  · exact hx
  · exact owner_iterate_of_some hx

theorem owner_runConstruct_of_some (hx : s.owner x = some t) (σ : List Nat) :
    (runConstruct d L s σ).owner x = some t := by
  induction σ generalizing s with
  | nil => exact hx
  | cons r σ ih => exact ih (owner_constructStep_of_some hx)

theorem owner_constructStep_of_none (h : Tokens s) (hx : s.owner x = none)
    (ht : (constructStep d L s r).owner x = some t) :
    t = ⟨r, (s.procs r).fragElems.length⟩ ∧
      ∃ w, ((constructStep d L s r).procs r).walk = some w ∧ w.token = t := by
  rcases constructStep_cases d L s r with heq | ⟨w, hw, heq⟩ | ⟨_, _, -, -, -, heq⟩ |
    ⟨kmer, _, -, -, -, -, heq⟩ <;> rw [heq] at ht ⊢
  · rw [hx] at ht; cases ht
  · obtain ⟨rfl, w', hw', htok⟩ := owner_iterate_of_none hx ht
    exact ⟨(h r w hw).1, w', hw', htok⟩
  · rw [show (s.setProc _ _).owner x = s.owner x from rfl, hx] at ht
    cases ht
  · obtain ⟨rfl, w', hw', htok⟩ := owner_iterate_of_none hx ht
    exact ⟨rfl, w', hw', htok⟩

theorem owned_claim (h : Tokens s) (hw : (s.procs r).walk = some w) {key : List Base}
    {count : Nat} {ext : Base} {next : WalkState}
    (hget : getNextStep d s.owner w.dirn w.token w.state = .claim key count ext next)
    {o : GPtr} (ho : s.owner key = some o) :
    o = w.token ∧ w.dirn = .right ∧ w.state = rightStart w.start := by
  rcases (getNextStep_eq_claim hget).2.2.2.1 with hn | ⟨hown, hrv⟩
  · rw [hn] at ho; cases ho
  · rw [ho, Option.some.injEq] at hown
    exact ⟨hown, (h r w hw).2 hrv⟩

end Owner

variable (d L)

/-- Owner pointers are set once, at process `r`'s step from `s`, for the k-mer `x`: a set
pointer keeps its value through every schedule of steps; a step that sets a free pointer sets
it to the token of the stepping process's walk, which stays in flight; and a walk claims an
owned k-mer only when it is the owner, on the first step of its RIGHT call, at its start
k-mer. -/
def OwnerSetOnce (s : Sys) (r : Nat) (x : List Base) : Prop :=
  (∀ t σ, s.owner x = some t → (runConstruct d L s σ).owner x = some t) ∧
    (s.owner x = none → ∀ t, (constructStep d L s r).owner x = some t →
      t = ⟨r, (s.procs r).fragElems.length⟩ ∧
        ∃ w, ((constructStep d L s r).procs r).walk = some w ∧ w.token = t) ∧
    (∀ w, (s.procs r).walk = some w → ∀ count ext next,
      getNextStep d s.owner w.dirn w.token w.state = .claim x count ext next →
      ∀ o, s.owner x = some o → o = w.token ∧ w.dirn = .right ∧ w.state = rightStart w.start)

variable {d L}

theorem owner_set_once {s : Sys} (hs : Reachable d L s) (r : Nat) (x : List Base) :
    OwnerSetOnce d L s r x :=
  ⟨fun _ σ hx => owner_runConstruct_of_some hx σ,
    fun hx _ ht => owner_constructStep_of_none (tokens_of_reachable hs) hx ht,
    fun _ hw _ _ _ hget _ ho => owned_claim (tokens_of_reachable hs) hw hget ho⟩

/-- The index of a run of `A`s at `k = 1`: the one k-mer `A`, extended by `A` on both
sides. -/
def polyA : KmerDHT :=
  ⟨1, by decide, [([.A], ⟨1, .base .A, .base .A⟩)], by decide, by decide, by decide⟩

/-- A single process. -/
def oneRank : Layout :=
  ⟨1, fun _ => 0, fun _ => Nat.one_pos⟩

/-- After two steps on `polyA` the LEFT walk has claimed `A` and ended on it, and the RIGHT walk
is about to claim `A` once more, its one revisit. -/
theorem owner_set_once_polyA :
    Reachable polyA oneRank (runConstruct polyA oneRank Sys.init [0, 0]) ∧
      (runConstruct polyA oneRank Sys.init [0, 0]).owner [.A] = some ⟨0, 0⟩ ∧
      (∃ w, ((runConstruct polyA oneRank Sys.init [0, 0]).procs 0).walk = some w ∧
        ∃ count ext next, getNextStep polyA (runConstruct polyA oneRank Sys.init [0, 0]).owner
          w.dirn w.token w.state = .claim [.A] count ext next) ∧
      OwnerSetOnce polyA oneRank (runConstruct polyA oneRank Sys.init [0, 0]) 0 [.A] :=
  ⟨reachable_runConstruct polyA oneRank .init _, rfl, ⟨_, rfl, _, _, _, rfl⟩,
    owner_set_once (reachable_runConstruct polyA oneRank .init _) 0 [.A]⟩

end Mhm2Proxy.Ownership
