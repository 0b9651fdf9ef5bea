import Mhm2Proxy.ConnectFrags
import Mathlib.Algebra.BigOperators.Group.List

/-!
The numbering at the end of `traverse_debruijn_graph`. Each process takes the inclusive prefix
sum of the contig counts and numbers its uutigs from the sum of the counts before its own, so
the ids are distinct, as `CtgsWithReadsDHT`, whose store dies on an id it already holds, needs.
-/

namespace Mhm2Proxy.ContigIds

open Mhm2Proxy.ConnectFrags

/-- Modelled from the spec: `upcxx_utils::reduce_prefix(num_ctgs, op_fast_add)`, the
distributed prefix sum, gives process `r` the counts of processes `0, …, r` added up. -/
def reducePrefix (numCtgs : Nat → Nat) (r : Nat) : Nat :=
  ((List.range (r + 1)).map numCtgs).sum

/-- The loop `it->id = my_counter++` over `my_uutigs`. -/
def numberFrom {α : Type} : Nat → List α → List (Nat × α)
  | _, [] => []
  | myCounter, u :: us => (myCounter, u) :: numberFrom (myCounter + 1) us

/-- The `.then` callback of `traverse_debruijn_graph` on process `r`: its uutigs numbered from
`my_prefix - num_ctgs`. -/
def assignIds (myUutigs : Nat → List Uutig) (r : Nat) : List (Nat × Uutig) :=
  numberFrom (reducePrefix (fun q => (myUutigs q).length) r - (myUutigs r).length) (myUutigs r)

theorem map_fst_numberFrom {α : Type} :
    ∀ (myCounter : Nat) (us : List α),
      (numberFrom myCounter us).map Prod.fst = List.range' myCounter us.length
  | _, [] => rfl
  | c, u :: us => by
      rw [numberFrom, List.map_cons, map_fst_numberFrom (c + 1) us, List.length_cons,
        List.range'_succ]

theorem map_snd_numberFrom {α : Type} :
    ∀ (myCounter : Nat) (us : List α), (numberFrom myCounter us).map Prod.snd = us
  | _, [] => rfl
  | c, u :: us => by rw [numberFrom, List.map_cons, map_snd_numberFrom (c + 1) us]

theorem reducePrefix_sub (numCtgs : Nat → Nat) (r : Nat) :
    reducePrefix numCtgs r - numCtgs r = ((List.range r).map numCtgs).sum := by
  rw [reducePrefix, List.range_succ, List.map_append, List.sum_append, List.map_singleton,
    List.sum_singleton, Nat.add_sub_cancel]

theorem flatMap_range'_offsets (c : Nat → Nat) :
    ∀ n, ((List.range n).flatMap fun r => List.range' ((List.range r).map c).sum (c r)) =
      List.range' 0 ((List.range n).map c).sum
  | 0 => rfl
  | n + 1 => by
      have h := List.range'_append_1 0 ((List.range n).map c).sum (c n)
      rw [Nat.zero_add] at h
      rw [List.range_succ, List.flatMap_append, flatMap_range'_offsets c n, List.flatMap_singleton,
        h, List.map_append, List.sum_append, List.map_singleton, List.sum_singleton, Nat.add_comm]

theorem map_fst_assignIds (myUutigs : Nat → List Uutig) (r : Nat) :
    (assignIds myUutigs r).map Prod.fst =
      List.range' ((List.range r).map fun q => (myUutigs q).length).sum (myUutigs r).length := by
  rw [assignIds, map_fst_numberFrom, reducePrefix_sub]

theorem flatMap_map_fst_assignIds (rankN : Nat) (myUutigs : Nat → List Uutig) :
    ((List.range rankN).flatMap fun r => (assignIds myUutigs r).map Prod.fst) =
      List.range ((List.range rankN).map fun q => (myUutigs q).length).sum := by
  simp only [map_fst_assignIds]
  exact (flatMap_range'_offsets (fun q => (myUutigs q).length) rankN).trans
    (List.range_eq_range' _).symm

/-- The numbering of `traverse_debruijn_graph`: process `r` numbers its uutigs in local order
from the number of contigs of the processes before it, and the ids of all processes together
are `0, …, N - 1` for `N` contigs in all, each once. -/
theorem contig_ids_consecutive (rankN : Nat) (myUutigs : Nat → List Uutig) :
    (∀ r, (assignIds myUutigs r).map Prod.snd = myUutigs r ∧
      (assignIds myUutigs r).map Prod.fst =
        List.range' ((List.range r).map fun q => (myUutigs q).length).sum (myUutigs r).length) ∧
    ((List.range rankN).flatMap fun r => (assignIds myUutigs r).map Prod.fst) =
      List.range ((List.range rankN).map fun q => (myUutigs q).length).sum :=
  ⟨fun r => ⟨map_snd_numberFrom _ _, map_fst_assignIds myUutigs r⟩,
    flatMap_map_fst_assignIds rankN myUutigs⟩

end Mhm2Proxy.ContigIds
