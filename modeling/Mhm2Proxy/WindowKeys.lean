import Mhm2Proxy.WalkSpelling

/-!
Every window of every fragment is an index k-mer, at every k-mer length. Unlike the partition
of `ConstructInvariant` this needs no ownership: the windows a walk spells are the k-mers it
claimed, and at `k = 1` its start k-mer once more.
-/

namespace Mhm2Proxy.WindowKeys

open Mhm2Proxy.Kmer
open Mhm2Proxy.KmerIndex
open Mhm2Proxy.GetNextStep
open Mhm2Proxy.ConstructFrags
open Mhm2Proxy.WalkSpelling

variable (d : KmerDHT)

/-- Every window of `seq`, made canonical, is a key of the index. -/
def KeysOk (seq : List Base) : Prop :=
  ∀ x ∈ windows d.kmerLen seq, ∃ kc, (canonical x, kc) ∈ d.entries

/-- A walk in flight has its shape, started from an index k-mer, and spelled index k-mers
only; so has every fragment. -/
structure KInv (s : Sys) : Prop where
  walk_ok : ∀ r w, (s.procs r).walk = some w →
    Shape d.kmerLen w ∧ (∃ kc, (w.start, kc) ∈ d.entries) ∧ KeysOk d (spelled w)
  frag_ok : ∀ r f, f ∈ (s.procs r).fragElems → KeysOk d f.fragSeq

variable {d}

theorem KeysOk.of_append {s t : List Base} (h : KeysOk d (s ++ t)) : KeysOk d s :=
  fun x hx => h x ((mem_windows_iff d.kmerLen_pos).2
    ⟨((mem_windows_iff d.kmerLen_pos).1 hx).1,
      ((mem_windows_iff d.kmerLen_pos).1 hx).2.trans (List.prefix_append s t).isInfix⟩)

theorem KeysOk.of_perm {s s' x : List Base}
    (hp : (windows d.kmerLen s').Perm (x :: windows d.kmerLen s))
    (hx : ∃ kc, (canonical x, kc) ∈ d.entries) (h : KeysOk d s) : KeysOk d s' := fun y hy => by
  rcases List.mem_cons.1 (hp.subset hy) with rfl | hy
  · exact hx
  · exact h y hy

theorem KeysOk.append_key (hk1 : d.kmerLen = 1) {s x : List Base} (h : KeysOk d s)
    {kc : KmerCounts} (hx : (x, kc) ∈ d.entries) : KeysOk d (s ++ x) := by
  have hw := windows_overlap d.kmerLen_pos s [] x (by simp [hk1])
  simp only [List.append_nil, List.nil_append] at hw
  rw [windows_of_length d.kmerLen_pos (d.length_key _ hx)] at hw
  have hc : canonical x = x := d.canonical_key _ hx
  intro y hy
  rw [hw, List.mem_append, List.mem_singleton] at hy
  rcases hy with hy | rfl
  · exact h y hy
  · exact ⟨kc, by rw [hc]; exact hx⟩

/-- What `KInv` asks of a walk in flight. -/
def WalkKeys (d : KmerDHT) (w : Walk) : Prop :=
  Shape d.kmerLen w ∧ (∃ kc, (w.start, kc) ∈ d.entries) ∧ KeysOk d (spelled w)

theorem KInv.update {s : Sys} (h : KInv d s) (o : List Base → Option GPtr) {r : Nat} {p : Proc}
    (hp : ∀ w, p.walk = some w → WalkKeys d w) (hf : ∀ f ∈ p.fragElems, KeysOk d f.fragSeq) :
    KInv d ⟨o, Function.update s.procs r p⟩ where
  walk_ok r' w hw := by
    by_cases hr : r' = r
    · subst hr
      simp only [Function.update_same] at hw
      exact hp w hw
    · simp only [Function.update_noteq hr] at hw
      exact h.walk_ok r' w hw
  frag_ok r' f hf' := by
    by_cases hr : r' = r
    · subst hr
      simp only [Function.update_same] at hf'
      exact hf f hf'
    · simp only [Function.update_noteq hr] at hf'
      exact h.frag_ok r' f hf'

theorem walkKeys_turn {w : Walk} (hd : w.dirn = .left) (hw : WalkKeys d w) (v : Option GPtr) :
    WalkKeys d (w.turn v) := by
  obtain ⟨⟨hlen, hs⟩, ⟨kc, hst⟩, hkeys⟩ := hw
  rw [hd] at hs
  refine ⟨⟨hlen, rightShape_turn hs.1 v⟩, ⟨kc, hst⟩, ?_⟩
  by_cases hk2 : 2 ≤ d.kmerLen
  · rw [spelled_turn hk2 hd hlen v]
    exact hkeys
  · have hk1 : d.kmerLen = 1 := by have := d.kmerLen_pos; omega
    rw [spelled_turn_one hd (hk1 ▸ hlen) v]
    exact hkeys.append_key hk1 hst

theorem KInv.iterate {s : Sys} (h : KInv d s) {r : Nat} {p : Proc} {w : Walk}
    (hw : WalkKeys d w) (hfr : ∀ f ∈ p.fragElems, KeysOk d f.fragSeq) :
    KInv d (iterate d s r p w) := by
  rcases @iterate_cases d s r p w with
    ⟨key, count, e, hget, heq⟩ | ⟨_, v, _, -, hd, heq⟩ | ⟨_, v, _, -, hd, heq⟩ <;> rw [heq]
  · obtain ⟨rfl, -, ⟨kc, hf, -, -⟩, -, -⟩ := getNextStep_eq_claim hget
    obtain ⟨hshape, ⟨-, hperm⟩ | ⟨-, hsp⟩⟩ := shape_claim d.kmerLen_pos hw.1 count e
    · exact h.update _ (fun w' hw' => by
        cases hw'
        exact ⟨hshape, hw.2.1, hw.2.2.of_perm hperm ⟨kc, mem_of_find hf⟩⟩) hfr
    · exact h.update _ (fun w' hw' => by
        cases hw'
        exact ⟨hshape, hw.2.1, hsp ▸ hw.2.2⟩) hfr
  · exact h.update _ (fun w' hw' => by cases hw'; exact walkKeys_turn hd hw v) hfr
  · refine h.update _ (fun _ hw' => nomatch hw') fun f hf => ?_
    rcases List.mem_append.1 hf with hf | hf
    · exact hfr f hf
    · rw [List.mem_singleton.1 hf]
      have hk := hw.2.2
      simp only [spelled, hd] at hk
      split at hk
      · exact hk.of_append
      · exact hk

theorem KInv.constructStep {L : Layout} {s : Sys} (h : KInv d s) (r : Nat) :
    KInv d (constructStep d L s r) := by
  rcases constructStep_cases d L s r with heq | ⟨w, hw, heq⟩ | ⟨_, _, -, -, -, heq⟩ |
    ⟨kmer, kc, hw, hg, hfree, hwk, heq⟩ <;> rw [heq]
  · exact h
  · exact h.iterate (h.walk_ok r w hw) (h.frag_ok r)
  · exact h.update _ (fun w hw => h.walk_ok r w hw) (h.frag_ok r)
  · have hent := ((mem_localKmers d L).1 (List.get?_mem hg)).1
    have hkey : canonical kmer = kmer := d.canonical_key _ hent
    have hlen : kmer.length = d.kmerLen := d.length_key _ hent
    obtain ⟨count, ext, next, hc⟩ := @getNextStep_claims d s.owner .left
      ⟨r, (s.procs r).fragElems.length⟩ (leftStart kmer) kc hkey
      (find_of_mem d.nodup_keys hent) hwk rfl (.inl hfree)
    obtain ⟨-, rfl, -, -, e, rfl⟩ := getNextStep_eq_claim hc
    rw [@iterate_of_claim d _ _ _ (Walk.init _ kmer) _ _ _ _ hc]
    obtain ⟨hsp, hshape⟩ := claim_init d.kmerLen_pos ⟨r, (s.procs r).fragElems.length⟩ hlen count e
    refine h.update _ (fun w' hw' => ?_) (h.frag_ok r)
    cases hw'
    refine ⟨hshape, ⟨kc, hent⟩, ?_⟩
    simp only [leftStart]
    rw [hsp, KeysOk, windows_of_length d.kmerLen_pos hlen]
    intro y hy
    rw [List.mem_singleton.1 hy, hkey]
    exact ⟨kc, hent⟩

/-- Every reachable state of `construct_frags` spells index k-mers only. -/
theorem kinv_of_reachable {L : Layout} {s : Sys} (hs : Reachable d L s) : KInv d s := by
  induction hs with
  | init => exact ⟨(fun _ _ h => nomatch h), fun _ _ h => nomatch h⟩
  | step r _ ih => exact ih.constructStep r

end Mhm2Proxy.WindowKeys
