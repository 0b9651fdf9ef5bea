import Mhm2Proxy.WalkSpelling
import Mathlib.Data.List.Perm.Basic
import Mathlib.Data.List.GetD

/-!
The invariant of `construct_frags`. The owner pointer of a k-mer names the walk, or the
fragment, that has the k-mer as a window of what it spelled, and no walk spells a k-mer
twice. Every claim keeps this, because a walk claims only a free k-mer and then spells it
once; the one revisit, of the start k-mer by the RIGHT call, spells nothing new.
-/

namespace Mhm2Proxy.ConstructInvariant

open Mhm2Proxy.Kmer
open Mhm2Proxy.KmerIndex
open Mhm2Proxy.GetNextStep
open Mhm2Proxy.ConstructFrags
open Mhm2Proxy.WalkSpelling

/-- The sequences of a process's fragments, followed by what its walk in flight has spelled:
position `i` belongs to the token `⟨r, i⟩`. -/
def seqs (p : Proc) : List (List Base) :=
  p.fragElems.map FragElem.fragSeq ++ (p.walk.map spelled).toList

/-- What the walk or fragment of token `t` has spelled. -/
def seqOf (s : Sys) (t : GPtr) : List Base :=
  (seqs (s.procs t.rank)).getD t.idx []

variable (d : KmerDHT) (L : Layout)

/-- The canonical k-mers spelled by the walk or fragment of token `t`. -/
def keysOf (s : Sys) (t : GPtr) : List (List Base) :=
  (windows d.kmerLen (seqOf s t)).map canonical

/-- Owner pointers and spelled windows agree, and no token spells a k-mer twice. -/
structure Owned (s : Sys) : Prop where
  owner_mem : ∀ x t, s.owner x = some t → x ∈ keysOf d s t
  mem_owner : ∀ x t, x ∈ keysOf d s t → s.owner x = some t
  nodup : ∀ t, (keysOf d s t).Nodup

/-- A walk in flight of process `r`: its token is the next fragment slot, it started from a
walkable k-mer of the shard, and it has its shape. -/
structure WalkOk (r : Nat) (p : Proc) (w : Walk) : Prop where
  token : w.token = ⟨r, p.fragElems.length⟩
  start_local : ∃ kc, (w.start, kc) ∈ localKmers d L r ∧ kc.isWalkable = true
  shape : Shape d.kmerLen w

structure Inv (s : Sys) : Prop where
  owned : Owned d s
  owner_entry : ∀ x t, s.owner x = some t →
    t.rank < L.rankN ∧ ∃ kc, (x, kc) ∈ d.entries ∧ kc.isWalkable = true
  walk_ok : ∀ r w, (s.procs r).walk = some w → WalkOk d L r (s.procs r) w
  shard_owned : ∀ r i e, i < (s.procs r).it → (localKmers d L r).get? i = some e →
    e.2.isWalkable = true → (s.owner e.1).isSome = true
  no_fatal : ∀ r, (s.procs r).fatal = none

section Owned

variable {d} {s s' : Sys}

theorem Owned.frame (h : Owned d s) (hown : s'.owner = s.owner)
    (hkeys : ∀ t, keysOf d s' t = keysOf d s t) : Owned d s' where
  owner_mem x t hx := by rw [hkeys]; exact h.owner_mem x t (hown ▸ hx)
  mem_owner x t hx := by rw [hown]; exact h.mem_owner x t (hkeys t ▸ hx)
  nodup t := by rw [hkeys]; exact h.nodup t

theorem Owned.claim (h : Owned d s) {tok : GPtr} {x : List Base}
    (hown : s'.owner = Function.update s.owner x (some tok)) (hfree : s.owner x = none)
    (hkeys : (keysOf d s' tok).Perm (x :: keysOf d s tok))
    (hframe : ∀ t, t ≠ tok → keysOf d s' t = keysOf d s t) : Owned d s' where
  owner_mem y t hy := by
    rw [hown] at hy
    by_cases hyx : y = x
    · subst hyx
      rw [Function.update_same] at hy
      cases hy
      exact hkeys.symm.subset (List.mem_cons_self _ _)
    · rw [Function.update_noteq hyx] at hy
      by_cases ht : t = tok
      · subst ht
        exact hkeys.symm.subset (List.mem_cons_of_mem _ (h.owner_mem y t hy))
      · rw [hframe t ht]
        exact h.owner_mem y t hy
  mem_owner y t hy := by
    rw [hown]
    by_cases ht : t = tok
    · subst ht
      rcases List.mem_cons.1 (hkeys.subset hy) with rfl | hy
      · exact Function.update_same _ _ _
      · have ho := h.mem_owner y t hy
        have hyx : y ≠ x := fun e => by subst e; rw [hfree] at ho; cases ho
        rw [Function.update_noteq hyx, ho]
    · rw [hframe t ht] at hy
      have ho := h.mem_owner y t hy
      have hyx : y ≠ x := fun e => by subst e; rw [hfree] at ho; cases ho
      rw [Function.update_noteq hyx, ho]
  nodup t := by
    by_cases ht : t = tok
    · subst ht
      refine hkeys.nodup_iff.2 (List.nodup_cons.2 ⟨fun hx => ?_, h.nodup t⟩)
      rw [h.mem_owner x t hx] at hfree
      cases hfree
    · rw [hframe t ht]
      exact h.nodup t

end Owned

section Slots

theorem seqs_of_walk {p : Proc} {w : Walk} (h : p.walk = some w) :
    seqs p = p.fragElems.map FragElem.fragSeq ++ [spelled w] := by
  simp [seqs, h]

theorem seqs_of_none {p : Proc} (h : p.walk = none) :
    seqs p = p.fragElems.map FragElem.fragSeq := by
  simp [seqs, h]

theorem getD_seqs_of_ne (p : Proc) {i : Nat} (hi : i ≠ p.fragElems.length) :
    (seqs p).getD i [] = (p.fragElems.map FragElem.fragSeq).getD i [] := by
  rcases Nat.lt_or_gt_of_ne hi with h | h
  · exact List.getD_append _ _ _ _ (by simpa using h)
  · rw [List.getD_eq_default (p.fragElems.map FragElem.fragSeq) _ (by simp; omega)]
    cases hw : p.walk with
    | none => rw [seqs_of_none hw, List.getD_eq_default _ _ (by simp; omega)]
    | some w => rw [seqs_of_walk hw, List.getD_eq_default _ _ (by simp; omega)]

theorem getD_seqs_slot {p : Proc} {w : Walk} (h : p.walk = some w) :
    (seqs p).getD p.fragElems.length [] = spelled w := by
  rw [seqs_of_walk h, List.getD_append_right _ _ _ _ (by simp)]
  simp

theorem getD_seqs_slot_none {p : Proc} (h : p.walk = none) :
    (seqs p).getD p.fragElems.length [] = [] := by
  rw [seqs_of_none h, List.getD_eq_default _ _ (by simp)]

theorem seqOf_update_of_ne {procs : Nat → Proc} {r : Nat} {p : Proc} (o : List Base → Option GPtr)
    (hfr : p.fragElems = (procs r).fragElems) {t : GPtr}
    (ht : t ≠ ⟨r, (procs r).fragElems.length⟩) :
    seqOf ⟨o, Function.update procs r p⟩ t = seqOf ⟨o, procs⟩ t := by
  obtain ⟨tr, ti⟩ := t
  unfold seqOf
  by_cases hr : tr = r
  · subst hr
    have hti : ti ≠ (procs tr).fragElems.length := fun h => ht (by rw [h])
    simp only [Function.update_same]
    rw [getD_seqs_of_ne _ (hfr ▸ hti), getD_seqs_of_ne _ hti, hfr]
  · simp only [Function.update_noteq hr]

theorem seqOf_update_slot {procs : Nat → Proc} {r : Nat} {p : Proc} (o : List Base → Option GPtr)
    (hfr : p.fragElems = (procs r).fragElems) :
    seqOf ⟨o, Function.update procs r p⟩ ⟨r, (procs r).fragElems.length⟩ =
      (seqs p).getD p.fragElems.length [] := by
  simp [seqOf, hfr]

end Slots


section Step

variable {d L}

theorem WalkOk.rank_lt {r : Nat} {p : Proc} {w : Walk} (h : WalkOk d L r p w) : r < L.rankN := by
  obtain ⟨kc, hm, -⟩ := h.start_local
  rw [← ((mem_localKmers d L).1 hm).2]
  exact L.home_lt _

theorem WalkOk.start_entry {r : Nat} {p : Proc} {w : Walk} (h : WalkOk d L r p w) :
    ∃ kc, (w.start, kc) ∈ d.entries ∧ kc.isWalkable = true := by
  obtain ⟨kc, hm, hw⟩ := h.start_local
  exact ⟨kc, ((mem_localKmers d L).1 hm).1, hw⟩

theorem Inv.setProc {s : Sys} (h : Inv d L s) {r : Nat} {p : Proc}
    (hseqs : seqs p = seqs (s.procs r)) (hfatal : p.fatal = none)
    (hwalk : ∀ w, p.walk = some w → WalkOk d L r p w)
    (hit : ∀ i e, i < p.it → (localKmers d L r).get? i = some e → e.2.isWalkable = true →
      (s.owner e.1).isSome = true) :
    Inv d L (s.setProc r p) where
  owned := h.owned.frame rfl fun ⟨tr, ti⟩ => by
    unfold keysOf seqOf Sys.setProc
    by_cases ht : tr = r
    · subst ht
      simp only [Function.update_same, hseqs]
    · simp only [Function.update_noteq ht]
  owner_entry := h.owner_entry
  walk_ok r' w hw := by
    by_cases hr : r' = r
    · subst hr
      simp only [Sys.setProc, Function.update_same] at hw ⊢
      exact hwalk w hw
    · simp only [Sys.setProc, Function.update_noteq hr] at hw ⊢
      exact h.walk_ok r' w hw
  shard_owned r' i e hi he hw := by
    by_cases hr : r' = r
    · subst hr
      simp only [Sys.setProc, Function.update_same] at hi
      exact hit i e hi he hw
    · simp only [Sys.setProc, Function.update_noteq hr] at hi
      exact h.shard_owned r' i e hi he hw
  no_fatal r' := by
    by_cases hr : r' = r
    · subst hr; simpa [Sys.setProc] using hfatal
    · simpa [Sys.setProc, Function.update_noteq hr] using h.no_fatal r'

private theorem isSome_update_some {o : List Base → Option GPtr} {x y : List Base} {t : GPtr}
    (hy : (o y).isSome = true ∨ y = x) : (Function.update o x (some t) y).isSome = true := by
  by_cases hyx : y = x
  · subst hyx; simp
  · rw [Function.update_noteq hyx]
    exact hy.resolve_right hyx

theorem Inv.claim {s : Sys} (h : Inv d L s) {r : Nat} {p : Proc} {w : Walk} {key : List Base}
    (hfr : p.fragElems = (s.procs r).fragElems) (hfatal : p.fatal = none)
    (hpw : p.walk = some w) (hok : WalkOk d L r p w)
    (hentry : ∃ kc, (key, kc) ∈ d.entries ∧ kc.isWalkable = true)
    (hkeys : (s.owner key = none ∧ ((windows d.kmerLen (spelled w)).map canonical).Perm
        (key :: keysOf d s ⟨r, (s.procs r).fragElems.length⟩)) ∨
      (s.owner key = some ⟨r, (s.procs r).fragElems.length⟩ ∧
        (windows d.kmerLen (spelled w)).map canonical =
          keysOf d s ⟨r, (s.procs r).fragElems.length⟩))
    (hit : ∀ i e, i < p.it → (localKmers d L r).get? i = some e → e.2.isWalkable = true →
      (s.owner e.1).isSome = true ∨ e.1 = key) :
    Inv d L ⟨Function.update s.owner key (some ⟨r, (s.procs r).fragElems.length⟩),
      Function.update s.procs r p⟩ := by
  set tok : GPtr := ⟨r, (s.procs r).fragElems.length⟩
  have hslot : keysOf d ⟨Function.update s.owner key (some tok), Function.update s.procs r p⟩ tok =
      (windows d.kmerLen (spelled w)).map canonical := by
    unfold keysOf
    rw [seqOf_update_slot _ hfr, getD_seqs_slot hpw]
  have hframe : ∀ t, t ≠ tok →
      keysOf d ⟨Function.update s.owner key (some tok), Function.update s.procs r p⟩ t =
        keysOf d s t := fun t ht => by
    unfold keysOf
    rw [seqOf_update_of_ne _ hfr ht]
    rfl
  refine ⟨?_, ?_, ?_, ?_, ?_⟩
  · rcases hkeys with ⟨hfree, hperm⟩ | ⟨hown, heq⟩
    · exact h.owned.claim rfl hfree (hslot ▸ hperm) hframe
    · refine h.owned.frame (Function.update_eq_self_iff.2 hown.symm) fun t => ?_
      by_cases ht : t = tok
      · rw [ht, hslot, heq]
      · exact hframe t ht
  · intro y t hy
    dsimp only at hy
    by_cases hyx : y = key
    · subst hyx
      simp only [Function.update_same, Option.some.injEq] at hy
      subst hy
      exact ⟨hok.rank_lt, hentry⟩
    · rw [Function.update_noteq hyx] at hy
      exact h.owner_entry y t hy
  · intro r' w' hw'
    by_cases hr : r' = r
    · subst hr
      simp only [Function.update_same, hpw, Option.some.injEq] at hw' ⊢
      subst hw'
      exact hok
    · simp only [Function.update_noteq hr] at hw' ⊢
      exact h.walk_ok r' w' hw'
  · intro r' i e hi he hw
    by_cases hr : r' = r
    · subst hr
      simp only [Function.update_same] at hi
      exact isSome_update_some (hit i e hi he hw)
    · simp only [Function.update_noteq hr] at hi
      exact isSome_update_some (.inl (h.shard_owned r' i e hi he hw))
  · intro r'
    by_cases hr : r' = r
    · subst hr; simpa using hfatal
    · simpa [Function.update_noteq hr] using h.no_fatal r'

variable (hk : 2 ≤ d.kmerLen)
include hk

theorem Inv.iterate_claim {s : Sys} (h : Inv d L s) {r : Nat} {w : Walk}
    (hpw : (s.procs r).walk = some w) {key : List Base} {count : Nat} {ext : Base}
    {next : WalkState}
    (hget : getNextStep d s.owner w.dirn w.token w.state = .claim key count ext next) :
    Inv d L (iterate d s r (s.procs r) w) := by
  have hok := h.walk_ok r w hpw
  rw [iterate_of_claim hget]
  obtain ⟨rfl, rfl, ⟨kc, hf, hw, -⟩, ho, e, rfl⟩ := getNextStep_eq_claim hget
  have hspell : keysOf d s ⟨r, (s.procs r).fragElems.length⟩ =
      (windows d.kmerLen (spelled w)).map canonical := by
    unfold keysOf seqOf
    rw [getD_seqs_slot hpw]
  obtain ⟨hshape, hkeys⟩ := shape_claim (by omega) hok.shape count e
  rw [hok.token]
  refine h.claim rfl (h.no_fatal r) rfl ⟨hok.token, hok.start_local, hshape⟩
    ⟨kc, mem_of_find hf, hw⟩ ?_ fun i e hi he hw => .inl (h.shard_owned r i e hi he hw)
  rcases hkeys with ⟨hrv, hperm⟩ | ⟨hmem, hsp⟩
  · refine .inl ⟨ho.resolve_right (fun ⟨_, h⟩ => by rw [hrv] at h; cases h), ?_⟩
    rw [hspell]
    exact hperm.map canonical
  · refine .inr ⟨h.owned.mem_owner _ _ ?_, by rw [hsp, hspell]⟩
    rw [hspell]
    exact List.mem_map_of_mem _ hmem

theorem Inv.rightStart_claims {s : Sys} (h : Inv d L s) {r : Nat} {w : Walk}
    (hpw : (s.procs r).walk = some w) (hd : w.dirn = .right) (hst : w.state = rightStart w.start)
    (hpre : ∃ pre, w.uutig = pre ++ w.start.dropLast) :
    ∃ count ext next,
      getNextStep d s.owner w.dirn w.token w.state = .claim w.start count ext next := by
  have hok := h.walk_ok r w hpw
  obtain ⟨kc, hm, hw⟩ := hok.start_entry
  have hkey : canonical w.start = w.start := d.canonical_key _ hm
  have hown : s.owner w.start = some w.token := by
    refine h.owned.mem_owner _ _ ?_
    rw [hok.token]
    unfold keysOf seqOf
    rw [getD_seqs_slot hpw, ← hkey]
    exact List.mem_map_of_mem _ (start_mem_spelled (by omega) hd hok.shape.1 hst hpre)
  rw [hst]
  exact @getNextStep_claims d s.owner w.dirn w.token (rightStart w.start) kc hkey
    (find_of_mem d.nodup_keys hm) hw rfl (.inr ⟨hown, rfl⟩)

theorem Inv.iterate_stop {s : Sys} (h : Inv d L s) {r : Nat} {w : Walk}
    (hpw : (s.procs r).walk = some w) {status : WalkStatus} {v : Option GPtr}
    (hget : getNextStep d s.owner w.dirn w.token w.state = .stop status v) :
    Inv d L (iterate d s r (s.procs r) w) := by
  have hok := h.walk_ok r w hpw
  obtain ⟨hlen, hs⟩ := hok.shape
  cases hd : w.dirn with
  | left =>
      rw [hd] at hs
      have hsp := spelled_turn hk hd hlen v
      obtain ⟨stats, heq⟩ := iterate_of_stop_left hget hd
      rw [heq]
      refine h.setProc ?_ (h.no_fatal r) ?_ (h.shard_owned r)
      · rw [seqs_of_walk rfl, seqs_of_walk hpw, hsp]
      · rintro w' ⟨⟩
        exact ⟨hok.token, hok.start_local, hlen, rightShape_turn hs.1 v⟩
  | right =>
      rw [hd] at hs
      rcases hs with ⟨hst, hpre⟩ | ⟨hrv, -, -⟩
      · obtain ⟨_, _, _, hc⟩ := h.rightStart_claims hk hpw hd hst hpre
        rw [hc] at hget
        cases hget
      · obtain ⟨stats, heq⟩ := iterate_of_stop_right hget hd
        rw [heq]
        refine h.setProc ?_ (h.no_fatal r) (fun _ h => nomatch h) (h.shard_owned r)
        rw [seqs_of_none rfl, seqs_of_walk hpw]
        simp [spelled, hd, hrv, Walk.toFragElem]

theorem Inv.start {s : Sys} (h : Inv d L s) {r : Nat} (hpw : (s.procs r).walk = none)
    {kmer : List Base} {kc : KmerCounts}
    (hget : (localKmers d L r).get? (s.procs r).it = some (kmer, kc))
    (hfree : s.owner kmer = none) (hw : kc.isWalkable = true) :
    Inv d L (iterate d s r { s.procs r with it := (s.procs r).it + 1 }
      (Walk.init ⟨r, (s.procs r).fragElems.length⟩ kmer)) := by
  have hmem := List.get?_mem hget
  have hent := ((mem_localKmers d L).1 hmem).1
  have hkey : canonical kmer = kmer := d.canonical_key _ hent
  have hlen : kmer.length = d.kmerLen := d.length_key _ hent
  obtain ⟨count, ext, next, hc⟩ := @getNextStep_claims d s.owner .left
    ⟨r, (s.procs r).fragElems.length⟩ (leftStart kmer) kc hkey
    (find_of_mem d.nodup_keys hent) hw rfl (.inl hfree)
  obtain ⟨-, rfl, -, -, e, rfl⟩ := getNextStep_eq_claim hc
  rw [@iterate_of_claim d _ _ _ (Walk.init _ kmer) _ _ _ _ hc]
  obtain ⟨hsp, hshape⟩ := claim_init (by omega) ⟨r, (s.procs r).fragElems.length⟩ hlen count e
  refine h.claim rfl (h.no_fatal r) rfl ⟨rfl, ⟨kc, hmem, hw⟩, hshape⟩ ⟨kc, hent, hw⟩
    (.inl ⟨hfree, ?_⟩) fun i e hi he hw => ?_
  · unfold keysOf seqOf
    simp only [leftStart]
    rw [getD_seqs_slot_none hpw, hsp, windows_of_length (by omega) hlen]
    simp [hkey, windows]
  · rcases Nat.lt_succ_iff_lt_or_eq.1 hi with hi | rfl
    · exact .inl (h.shard_owned r i e hi he hw)
    · rw [hget, Option.some.injEq] at he
      subst he
      exact .inr rfl

/-- `construct_frags` keeps the invariant in every step of every process. -/
theorem inv_constructStep {s : Sys} (h : Inv d L s) (r : Nat) :
    Inv d L (constructStep d L s r) := by
  rcases constructStep_cases d L s r with heq | ⟨w, hw, heq⟩ |
    ⟨kmer, kc, hw, hg, hskip, heq⟩ | ⟨kmer, kc, hw, hg, hfree, hwk, heq⟩ <;> rw [heq]
  · exact h
  · cases hget : getNextStep d s.owner w.dirn w.token w.state with
    | claim key count ext next => exact h.iterate_claim hk hw hget
    | stop status v => exact h.iterate_stop hk hw hget
  · refine h.setProc rfl (h.no_fatal r)
      (fun w hw' => by simp [hw] at hw') fun i e hi he hwe => ?_
    rcases Nat.lt_succ_iff_lt_or_eq.1 hi with hi | rfl
    · exact h.shard_owned r i e hi he hwe
    · rw [hg, Option.some.injEq] at he
      subst he
      simpa [hwe] using hskip
  · exact h.start hk hw hg hfree hwk

omit hk in
theorem inv_init : Inv d L Sys.init where
  owned :=
    { owner_mem := fun _ _ h => nomatch h
      mem_owner := fun _ _ h => by simp [keysOf, seqOf, seqs, Sys.init, windows] at h
      nodup := fun _ => by simp [keysOf, seqOf, seqs, Sys.init, windows] }
  owner_entry _ _ h := nomatch h
  walk_ok _ _ h := nomatch h
  shard_owned _ _ _ hi := absurd hi (Nat.not_lt_zero _)
  no_fatal _ := rfl

/-- Every reachable state of `construct_frags` has the invariant. -/
theorem inv_of_reachable {s : Sys} (hs : Reachable d L s) : Inv d L s := by
  induction hs with
  | init => exact inv_init
  | step r _ ih => exact inv_constructStep hk ih r

end Step

end Mhm2Proxy.ConstructInvariant
