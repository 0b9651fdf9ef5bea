import Mathlib.Data.List.Nodup
import Mathlib.Logic.Function.Basic

/-! The aggregating stores whose update function appends to a vector per key: `rtc_store` of
`ReadsToCtgsDHT` (`localassm_core.cpp`) and the `cid_reads_store`s of `shuffle_reads.cpp`. Each
update goes to the rank its key hashes to, and that rank's function `find`s the key in its hash
map and `push_back`s the value, or inserts the key with the value alone. A rank applies the
updates it receives one at a time, in whatever order they arrive. -/

namespace Mhm2Proxy.AppendStore

variable {κ ν : Type} [DecidableEq κ]

/-- The update function on the entries of one rank's map. -/
def appendEntry (entries : List (κ × List ν)) (u : κ × ν) : List (κ × List ν) :=
  match entries.find? (·.1 = u.1) with
  | none => entries ++ [(u.1, [u.2])]
  | some _ => entries.map fun e => if e.1 = u.1 then (e.1, e.2 ++ [u.2]) else e

theorem nodup_appendEntry {entries : List (κ × List ν)} (h : (entries.map Prod.fst).Nodup)
    (u : κ × ν) : ((appendEntry entries u).map Prod.fst).Nodup := by
  unfold appendEntry
  split
  · next hf =>
    rw [List.map_append, List.nodup_append]
    refine ⟨h, List.nodup_singleton _, List.disjoint_singleton.2 fun hu => ?_⟩
    obtain ⟨e, he, heu⟩ := List.mem_map.1 hu
    exact List.find?_eq_none.1 hf e he (decide_eq_true heu)
  · rw [List.map_map]
    convert h using 1
    exact List.map_congr_left fun e _ => by dsimp only [Function.comp]; split_ifs <;> rfl

/-- One rank's map, `HASH_TABLE<K, vector<V>>`: no key has two entries. -/
structure AppendMap (κ ν : Type) where
  entries : List (κ × List ν)
  nodup : (entries.map Prod.fst).Nodup

namespace AppendMap

/-- The map before any update. -/
def empty : AppendMap κ ν := ⟨[], List.nodup_nil⟩

/-- The store's update function. -/
def update (m : AppendMap κ ν) (u : κ × ν) : AppendMap κ ν :=
  ⟨appendEntry m.entries u, nodup_appendEntry m.nodup u⟩

/-- The lookup of a key: its vector, empty for a key with no entry. -/
def find (m : AppendMap κ ν) (k : κ) : List ν :=
  match m.entries.find? (·.1 = k) with
  | none => []
  | some e => e.2

theorem find_empty (k : κ) : (empty : AppendMap κ ν).find k = [] := rfl

theorem find_update (m : AppendMap κ ν) (u : κ × ν) (k : κ) :
    (m.update u).find k = m.find k ++ if u.1 = k then [u.2] else [] := by
  show (match (appendEntry m.entries u).find? (·.1 = k) with | none => [] | some e => e.2) = _
  unfold find appendEntry
  cases hf : m.entries.find? (·.1 = u.1) with
  | none =>
    dsimp only
    rw [List.find?_append]
    by_cases hk : u.1 = k
    · subst hk
      simp [hf]
    · have hn : ([(u.1, [u.2])] : List (κ × List ν)).find? (·.1 = k) = none := by simp [hk]
      rw [hn, Option.or_none, if_neg hk, List.append_nil]
  | some e0 =>
    dsimp only
    have hkey : ((fun e : κ × List ν => decide (e.1 = k)) ∘
        fun e => if e.1 = u.1 then (e.1, e.2 ++ [u.2]) else e) = fun e => decide (e.1 = k) :=
      funext fun e => by dsimp only [Function.comp]; split_ifs <;> rfl
    rw [List.find?_map, hkey]
    by_cases hk : u.1 = k
    · subst hk
      have he0 : e0.1 = u.1 := by simpa using List.find?_some hf
      simp [hf, he0]
    · rw [if_neg hk, List.append_nil]
      cases hfk : m.entries.find? (·.1 = k) with
      | none => rfl
      | some e =>
        have he : e.1 = k := by simpa using List.find?_some hfk
        simp only [Option.map_some']
        rw [if_neg (he ▸ Ne.symm hk)]

end AppendMap

variable (target : κ → Nat)

/-- An update as the rank of its key applies it (`target` is the store's `get_target_rank`, a
hash of the key modulo the number of ranks); the other ranks' maps stay as they are. -/
def deliver (dht : Nat → AppendMap κ ν) (u : κ × ν) : Nat → AppendMap κ ν :=
  Function.update dht (target u.1) ((dht (target u.1)).update u)

/-- A key's vector, looked up at the key's rank. -/
def lookup (dht : Nat → AppendMap κ ν) (k : κ) : List ν :=
  (dht (target k)).find k

theorem lookup_deliver (dht : Nat → AppendMap κ ν) (u : κ × ν) (k : κ) :
    lookup target (deliver target dht u) k =
      lookup target dht k ++ if u.1 = k then [u.2] else [] := by
  by_cases hrank : target k = target u.1
  · rw [lookup, deliver, hrank, Function.update_same, AppendMap.find_update, lookup, hrank]
  · have hk : u.1 ≠ k := fun h => hrank (h ▸ rfl)
    rw [lookup, deliver, Function.update_noteq hrank, if_neg hk, List.append_nil]
    rfl

/-- Whatever order the updates arrive in, a key's vector gets exactly the values sent for it, in
the order they arrived. -/
theorem lookup_foldl_deliver (k : κ) :
    ∀ (ds : List (κ × ν)) (dht : Nat → AppendMap κ ν),
      lookup target (ds.foldl (deliver target) dht) k =
        lookup target dht k ++ (ds.filter (·.1 = k)).map Prod.snd
  | [], _ => (List.append_nil _).symm
  | u :: ds, dht => by
      rw [List.foldl_cons, lookup_foldl_deliver k ds, lookup_deliver, List.filter_cons]
      by_cases hk : u.1 = k
      · simp [hk]
      · simp [hk]

theorem lookup_empty (k : κ) : lookup target (fun _ => (.empty : AppendMap κ ν)) k = [] := rfl

end Mhm2Proxy.AppendStore
