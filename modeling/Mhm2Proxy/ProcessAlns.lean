import Mhm2Proxy.MerWalk

/-! How the local assembly gives each contig its reads (`localassm_core.cpp`). `process_alns`
takes the alignments in the order they come, and `get_best_aln_for_read` picks from the run of
one read's alignments the best one that is valid at both ends. The read is mapped to the side of
the contig it extends, and its mate too when the mate may fall past the contig. -/

namespace Mhm2Proxy.LocalAssm

/-- An alignment of a read to a contig, with the fields `process_alns` reads. -/
structure Aln where
  readId : List Char
  cid : Int
  rstart : Int
  rstop : Int
  rlen : Int
  cstart : Int
  cstop : Int
  clen : Int
  orient : Char
  score1 : Int
  deriving DecidableEq, Repr

/-- `AlnStatus`. -/
inductive AlnStatus where
  | noAln
  | overlapsContig
  | extendsContig
  deriving DecidableEq, Repr

/-- `CtgInfo`: a contig a read maps to, the orientation of the read on it and the side the read
extends. -/
structure CtgInfo where
  cid : Int
  orient : Char
  side : Char
  deriving DecidableEq, Repr

section BestAln

variable (klignUnalignedThres : Int)

/-- The lambda `classify_aln` of `get_best_aln_for_read`, on the unaligned bases of the read and
of the contig at one end. -/
def classifyAln (runaligned cunaligned : Int) : AlnStatus :=
  if runaligned > cunaligned ∧ cunaligned < klignUnalignedThres then .extendsContig
  else if runaligned ≤ cunaligned ∧ runaligned < klignUnalignedThres then .overlapsContig
  else .noAln

/-- The start and end status of an alignment; for `-` the read aligns to the contig's reverse
complement. -/
def alnStatuses (aln : Aln) : AlnStatus × AlnStatus :=
  if aln.orient = '+' then
    (classifyAln klignUnalignedThres (aln.rstart - 1) (aln.cstart - 1),
      classifyAln klignUnalignedThres (aln.rlen - aln.rstop) (aln.clen - aln.cstop))
  else
    (classifyAln klignUnalignedThres (aln.rstart - 1) (aln.clen - aln.cstop),
      classifyAln klignUnalignedThres (aln.rlen - aln.rstop) (aln.cstart - 1))

/-- The loop of `get_best_aln_for_read` over the alignments from `i` on, with `start_read_id`,
`best_aln_score`, the best alignment so far with its statuses, `num_alns_found` and
`num_alns_invalid`. It returns the alignments from the one it stopped at, and the rest. -/
def bestAlnLoop : List Aln → List Char → Int → Option (Aln × AlnStatus × AlnStatus) → Nat → Nat →
    List Aln × Option (Aln × AlnStatus × AlnStatus) × Nat × Nat
  | [], _, _, bestAln, numAlnsFound, numAlnsInvalid => ([], bestAln, numAlnsFound, numAlnsInvalid)
  | aln :: alns, startReadId, bestAlnScore, bestAln, numAlnsFound, numAlnsInvalid =>
      if startReadId ≠ [] ∧ aln.readId ≠ startReadId then
        (aln :: alns, bestAln, numAlnsFound, numAlnsInvalid)
      else if aln.score1 < bestAlnScore then
        bestAlnLoop alns startReadId bestAlnScore bestAln (numAlnsFound + 1) numAlnsInvalid
      else if (alnStatuses klignUnalignedThres aln).1 = .noAln ∨
          (alnStatuses klignUnalignedThres aln).2 = .noAln then
        bestAlnLoop alns startReadId bestAlnScore bestAln (numAlnsFound + 1) (numAlnsInvalid + 1)
      else
        bestAlnLoop alns aln.readId aln.score1 (some (aln, alnStatuses klignUnalignedThres aln))
          (numAlnsFound + 1) numAlnsInvalid

/-- `get_best_aln_for_read(alns, i, best_aln, ...)`: the alignments from where it stopped, the
best alignment with its statuses (`none` where `best_aln.read_id` stays empty), and the two
counters. -/
def getBestAlnForRead (alns : List Aln) (numAlnsFound numAlnsInvalid : Nat) :
    List Aln × Option (Aln × AlnStatus × AlnStatus) × Nat × Nat :=
  bestAlnLoop klignUnalignedThres alns [] 0 none numAlnsFound numAlnsInvalid

/-- An alignment the loop takes while its best score is `bestAlnScore`: a score at least that
high, and neither end `NO_ALN`. -/
def takes (bestAlnScore : Int) (aln : Aln) : Prop :=
  bestAlnScore ≤ aln.score1 ∧ (alnStatuses klignUnalignedThres aln).1 ≠ .noAln ∧
    (alnStatuses klignUnalignedThres aln).2 ≠ .noAln

instance (bestAlnScore : Int) (aln : Aln) :
    Decidable (takes klignUnalignedThres bestAlnScore aln) :=
  inferInstanceAs (Decidable (_ ∧ _ ∧ _))

/-- The score the best alignment so far sets, `0` before there is one. -/
def bestScore (best : Option (Aln × AlnStatus × AlnStatus)) : Int := best.elim 0 fun b => b.1.score1

/-- One alignment of a read's run, as the best alignment is kept. -/
def pick (best : Option (Aln × AlnStatus × AlnStatus)) (aln : Aln) :
    Option (Aln × AlnStatus × AlnStatus) :=
  if takes klignUnalignedThres (bestScore best) aln then
    some (aln, alnStatuses klignUnalignedThres aln)
  else best

/-- Modelled from the intent of `get_best_aln_for_read`: the best of one read's alignments, the
last of those valid at both ends with the highest score, scores from `0` up. -/
def bestOf (alns : List Aln) : Option (Aln × AlnStatus × AlnStatus) :=
  alns.foldl (pick klignUnalignedThres) none

end BestAln

section Runs

/-- `a` put in front of runs of alignments: it joins the first run when that run is of its
read. -/
def consRun (a : Aln) : List (List Aln) → List (List Aln)
  | [] => [[a]]
  | [] :: gs => [a] :: [] :: gs
  | (b :: g) :: gs => if a.readId = b.readId then (a :: b :: g) :: gs else [a] :: (b :: g) :: gs

/-- The alignments cut into maximal runs of one read id, in order. -/
def readRuns (alns : List Aln) : List (List Aln) :=
  alns.foldr consRun []

theorem readRuns_cons (a : Aln) (alns : List Aln) :
    readRuns (a :: alns) = consRun a (readRuns alns) := rfl

theorem flatten_consRun (a : Aln) : ∀ gs : List (List Aln), (consRun a gs).flatten = a :: gs.flatten
  | [] => rfl
  | [] :: _ => rfl
  | (b :: g) :: gs => by
      rw [consRun]
      split_ifs <;> rfl

theorem flatten_readRuns : ∀ alns : List Aln, (readRuns alns).flatten = alns
  | [] => rfl
  | a :: alns => by rw [readRuns_cons, flatten_consRun, flatten_readRuns alns]

theorem readRuns_cons_eq (a : Aln) (alns : List Aln) :
    ∃ g gs, readRuns (a :: alns) = (a :: g) :: gs := by
  rw [readRuns_cons]
  match readRuns alns with
  | [] => exact ⟨[], [], rfl⟩
  | [] :: gs => exact ⟨[], [] :: gs, rfl⟩
  | (b :: g) :: gs =>
    rw [consRun]
    split_ifs
    exacts [⟨b :: g, gs, rfl⟩, ⟨[], (b :: g) :: gs, rfl⟩]

theorem readRuns_append_run {id : List Char} :
    ∀ (a : Aln) (run rest : List Aln), a.readId = id → (∀ x ∈ run, x.readId = id) →
      (∀ b ∈ rest.head?, b.readId ≠ id) → readRuns (a :: run ++ rest) = (a :: run) :: readRuns rest
  | a, [], [], _, _, _ => rfl
  | a, [], b :: rest, ha, _, hb => by
      obtain ⟨g, gs, hg⟩ := readRuns_cons_eq b rest
      rw [List.cons_append, List.nil_append, readRuns_cons, hg, consRun,
        if_neg (by rw [ha]; exact (hb b rfl).symm), ← hg]
  | a, x :: run, rest, ha, hrun, hb => by
      rw [List.cons_append, readRuns_cons, readRuns_append_run x run rest (hrun x (.head _))
        (fun y hy => hrun y (.tail _ hy)) hb, consRun, if_pos (by rw [ha, hrun x (.head _)])]

end Runs

section BestAlnLoop

variable {klignUnalignedThres : Int}

theorem pick_of_takes {best : Option (Aln × AlnStatus × AlnStatus)} {aln : Aln}
    (h : takes klignUnalignedThres (bestScore best) aln) :
    pick klignUnalignedThres best aln = some (aln, alnStatuses klignUnalignedThres aln) := by
  rw [pick, if_pos h]

theorem pick_of_not_takes {best : Option (Aln × AlnStatus × AlnStatus)} {aln : Aln}
    (h : ¬takes klignUnalignedThres (bestScore best) aln) :
    pick klignUnalignedThres best aln = best := by
  rw [pick, if_neg h]

theorem bestAlnLoop_skip {aln : Aln} {s : List Char} {score : Int} (alns : List Aln)
    (best : Option (Aln × AlnStatus × AlnStatus)) (f i : Nat)
    (hs : ¬(s ≠ [] ∧ aln.readId ≠ s)) (h : ¬takes klignUnalignedThres score aln) :
    ∃ f' i', bestAlnLoop klignUnalignedThres (aln :: alns) s score best f i =
      bestAlnLoop klignUnalignedThres alns s score best f' i' := by
  rw [bestAlnLoop, if_neg hs]
  by_cases hsc : aln.score1 < score
  · exact ⟨_, _, by rw [if_pos hsc]⟩
  unfold takes at h
  rw [if_neg hsc, if_pos (by by_contra hc; exact h ⟨not_lt.1 hsc, not_or.1 hc⟩)]
  exact ⟨_, _, rfl⟩

theorem bestAlnLoop_take {aln : Aln} {alns : List Aln} {s : List Char} {score : Int}
    {best : Option (Aln × AlnStatus × AlnStatus)} {f i : Nat}
    (hs : ¬(s ≠ [] ∧ aln.readId ≠ s)) (h : takes klignUnalignedThres score aln) :
    bestAlnLoop klignUnalignedThres (aln :: alns) s score best f i =
      bestAlnLoop klignUnalignedThres alns aln.readId aln.score1
        (some (aln, alnStatuses klignUnalignedThres aln)) (f + 1) i := by
  rw [bestAlnLoop, if_neg hs, if_neg (not_lt.2 h.1), if_neg (by unfold takes at h; tauto)]

theorem bestAlnLoop_run {s : List Char} (hs : s ≠ []) :
    ∀ (alns : List Aln) (best : Option (Aln × AlnStatus × AlnStatus)) (f i : Nat),
      (bestAlnLoop klignUnalignedThres alns s (bestScore best) best f i).1 =
          alns.dropWhile (fun a => a.readId = s) ∧
        (bestAlnLoop klignUnalignedThres alns s (bestScore best) best f i).2.1 =
          (alns.takeWhile (fun a => a.readId = s)).foldl (pick klignUnalignedThres) best
  | [], _, _, _ => ⟨rfl, rfl⟩
  | aln :: alns, best, f, i => by
      by_cases hid : aln.readId = s
      · have hp : decide (aln.readId = s) = true := decide_eq_true hid
        rw [@List.dropWhile_cons_of_pos _ (fun a : Aln => decide (a.readId = s)) aln alns hp,
          @List.takeWhile_cons_of_pos _ (fun a : Aln => decide (a.readId = s)) aln alns hp,
          List.foldl_cons]
        have hs' : ¬(s ≠ [] ∧ aln.readId ≠ s) := fun h => h.2 hid
        by_cases htk : takes klignUnalignedThres (bestScore best) aln
        · rw [bestAlnLoop_take hs' htk, pick_of_takes htk, hid]
          exact bestAlnLoop_run hs alns (some (aln, alnStatuses klignUnalignedThres aln)) (f + 1) i
        · obtain ⟨f', i', he⟩ := bestAlnLoop_skip alns best f i hs' htk
          rw [he, pick_of_not_takes htk]
          exact bestAlnLoop_run hs alns best f' i'
      · have hp : ¬decide (aln.readId = s) = true := fun h => hid (of_decide_eq_true h)
        rw [@List.dropWhile_cons_of_neg _ (fun a : Aln => decide (a.readId = s)) aln alns hp,
          @List.takeWhile_cons_of_neg _ (fun a : Aln => decide (a.readId = s)) aln alns hp,
          bestAlnLoop, if_pos ⟨hs, hid⟩]
        exact ⟨rfl, rfl⟩

theorem bestAlnLoop_search : ∀ (alns : List Aln) (f i : Nat),
    ((∀ a ∈ alns, pick klignUnalignedThres none a = none) ∧
        (bestAlnLoop klignUnalignedThres alns [] 0 none f i).1 = [] ∧
        (bestAlnLoop klignUnalignedThres alns [] 0 none f i).2.1 = none) ∨
      ∃ pre a rest f' i', alns = pre ++ a :: rest ∧
        (∀ x ∈ pre, pick klignUnalignedThres none x = none) ∧ takes klignUnalignedThres 0 a ∧
        bestAlnLoop klignUnalignedThres alns [] 0 none f i =
          bestAlnLoop klignUnalignedThres rest a.readId a.score1
            (some (a, alnStatuses klignUnalignedThres a)) f' i'
  | [], _, _ => .inl ⟨(fun _ h => nomatch h), rfl, rfl⟩
  | aln :: alns, f, i => by
      have hs : ¬(([] : List Char) ≠ [] ∧ aln.readId ≠ []) := fun h => h.1 rfl
      by_cases htk : takes klignUnalignedThres 0 aln
      · exact .inr ⟨[], aln, alns, f + 1, i, rfl, (fun _ h => nomatch h), htk,
          bestAlnLoop_take hs htk⟩
      · obtain ⟨f', i', he⟩ := bestAlnLoop_skip alns none f i hs htk
        have hpick : pick klignUnalignedThres none aln = none := pick_of_not_takes htk
        have hcons : ∀ {pre : List Aln}, (∀ x ∈ pre, pick klignUnalignedThres none x = none) →
            ∀ x ∈ aln :: pre, pick klignUnalignedThres none x = none :=
          fun hpre x hx => (List.mem_cons.1 hx).elim (fun h => h ▸ hpick) (hpre x)
        rw [he]
        rcases bestAlnLoop_search alns f' i' with ⟨hall, h1, h2⟩ |
            ⟨pre, a, rest, f'', i'', rfl, hpre, ha, hrun⟩
        · exact .inl ⟨hcons hall, h1, h2⟩
        · exact .inr ⟨aln :: pre, a, rest, f'', i'', rfl, hcons hpre, ha, hrun⟩

theorem bestOf_cons_of_takes {a : Aln} (ha : takes klignUnalignedThres 0 a) (run : List Aln) :
    bestOf klignUnalignedThres (a :: run) =
      run.foldl (pick klignUnalignedThres) (some (a, alnStatuses klignUnalignedThres a)) := by
  rw [bestOf, List.foldl_cons, pick_of_takes ha]

/-- `get_best_aln_for_read` with every read id non-empty: either no alignment is valid and it
runs to the end with no best, or it passes over alignments with none valid, takes the first
valid one and the run of its read after it, stops at the next read, and returns the best of
that run. -/
theorem getBestAlnForRead_cases (alns : List Aln) (f i : Nat)
    (hids : ∀ a ∈ alns, a.readId ≠ []) :
    ((getBestAlnForRead klignUnalignedThres alns f i).1 = [] ∧
        (getBestAlnForRead klignUnalignedThres alns f i).2.1 = none ∧
        ∀ a ∈ alns, pick klignUnalignedThres none a = none) ∨
      ∃ pre a run rest, alns = pre ++ ((a :: run) ++ rest) ∧
        (∀ x ∈ pre, pick klignUnalignedThres none x = none) ∧ takes klignUnalignedThres 0 a ∧
        (∀ x ∈ run, x.readId = a.readId) ∧ (∀ b ∈ rest.head?, b.readId ≠ a.readId) ∧
        (getBestAlnForRead klignUnalignedThres alns f i).1 = rest ∧
        (getBestAlnForRead klignUnalignedThres alns f i).2.1 =
          bestOf klignUnalignedThres (a :: run) := by
  rcases bestAlnLoop_search alns f i with
    ⟨hall, h1, h2⟩ | ⟨pre, a, rest, f', i', rfl, hpre, ha, hloop⟩
  · exact .inl ⟨h1, h2, hall⟩
  · have hid : a.readId ≠ [] := hids a (List.mem_append_right _ (List.mem_cons_self _ _))
    obtain ⟨hrest, hbest⟩ := bestAlnLoop_run hid rest (some (a, alnStatuses klignUnalignedThres a))
      f' i'
    refine .inr ⟨pre, a, rest.takeWhile (fun b => b.readId = a.readId),
      rest.dropWhile (fun b => b.readId = a.readId), by rw [List.cons_append,
        List.takeWhile_append_dropWhile], hpre, ha, fun x hx => of_decide_eq_true
        (@List.mem_takeWhile_imp _ (fun b : Aln => decide (b.readId = a.readId)) rest x hx),
      fun b hb => ?_, by rw [getBestAlnForRead, hloop]; exact hrest,
      by rw [getBestAlnForRead, hloop, bestOf_cons_of_takes ha]; exact hbest⟩
    have := List.head?_dropWhile_not (fun b : Aln => decide (b.readId = a.readId)) rest
    rw [hb] at this
    exact of_decide_eq_false this

end BestAlnLoop

section BestOf

variable {klignUnalignedThres : Int}

theorem foldl_pick_spec : ∀ (alns : List Aln) (acc : Option (Aln × AlnStatus × AlnStatus)),
    0 ≤ bestScore acc →
      (alns.foldl (pick klignUnalignedThres) acc = acc ∨
        ∃ x ∈ alns, alns.foldl (pick klignUnalignedThres) acc =
          some (x, alnStatuses klignUnalignedThres x) ∧ takes klignUnalignedThres 0 x) ∧
      bestScore acc ≤ bestScore (alns.foldl (pick klignUnalignedThres) acc) ∧
      ∀ x ∈ alns, takes klignUnalignedThres 0 x →
        x.score1 ≤ bestScore (alns.foldl (pick klignUnalignedThres) acc)
  | [], acc, _ => ⟨.inl rfl, le_refl _, (fun _ h => nomatch h)⟩
  | x :: alns, acc, h0 => by
      rw [List.foldl_cons]
      by_cases htk : takes klignUnalignedThres (bestScore acc) x
      · have hx : takes klignUnalignedThres 0 x := ⟨h0.trans htk.1, htk.2⟩
        rw [pick_of_takes htk]
        obtain ⟨hr, hle, hmax⟩ := foldl_pick_spec alns (some (x, alnStatuses klignUnalignedThres x))
          (h0.trans htk.1)
        refine ⟨?_, htk.1.trans hle, fun y hy hty => ?_⟩
        · rcases hr with hr | ⟨y, hy, hr, hty⟩
          · exact .inr ⟨x, List.mem_cons_self _ _, hr, hx⟩
          · exact .inr ⟨y, List.mem_cons_of_mem _ hy, hr, hty⟩
        · rcases List.mem_cons.1 hy with rfl | hy
          · exact hle
          · exact hmax y hy hty
      · rw [pick_of_not_takes htk]
        obtain ⟨hr, hle, hmax⟩ := foldl_pick_spec alns acc h0
        refine ⟨?_, hle, fun y hy hty => ?_⟩
        · rcases hr with hr | ⟨y, hy, hr, hty⟩
          · exact .inl hr
          · exact .inr ⟨y, List.mem_cons_of_mem _ hy, hr, hty⟩
        · rcases List.mem_cons.1 hy with rfl | hy
          · unfold takes at htk hty
            have : ¬bestScore acc ≤ y.score1 := fun h => htk ⟨h, hty.2⟩
            omega
          · exact hmax y hy hty

theorem foldl_pick_eq_none : ∀ (alns : List Aln) (acc : Option (Aln × AlnStatus × AlnStatus)),
    alns.foldl (pick klignUnalignedThres) acc = none →
      acc = none ∧ ∀ x ∈ alns, ¬takes klignUnalignedThres 0 x
  | [], _, h => ⟨h, fun _ h => nomatch h⟩
  | x :: alns, acc, h => by
      rw [List.foldl_cons] at h
      obtain ⟨hacc, hall⟩ := foldl_pick_eq_none alns _ h
      have htk : ¬takes klignUnalignedThres (bestScore acc) x := fun htk => by
        rw [pick_of_takes htk] at hacc
        cases hacc
      rw [pick_of_not_takes htk] at hacc
      subst hacc
      exact ⟨rfl, fun y hy => (List.mem_cons.1 hy).elim (fun h => h ▸ htk) (hall y)⟩

/-- The best alignment of a run is one of its alignments valid at both ends with a score from `0`
up, with its statuses, and no valid alignment of the run scores higher; there is none when no
alignment of the run is valid with such a score. -/
theorem bestOf_spec (alns : List Aln) :
    (bestOf klignUnalignedThres alns = none ∧ ∀ x ∈ alns, ¬takes klignUnalignedThres 0 x) ∨
      ∃ x ∈ alns, bestOf klignUnalignedThres alns = some (x, alnStatuses klignUnalignedThres x) ∧
        takes klignUnalignedThres 0 x ∧
        ∀ y ∈ alns, takes klignUnalignedThres 0 y → y.score1 ≤ x.score1 := by
  have hspec : _ ∧ _ ∧ ∀ x ∈ alns, takes klignUnalignedThres 0 x →
      x.score1 ≤ bestScore (alns.foldl (pick klignUnalignedThres) none) :=
    foldl_pick_spec alns none le_rfl
  rcases hspec.1 with hr | ⟨x, hx, hr, htx⟩
  · exact .inl ⟨hr, (foldl_pick_eq_none alns none hr).2⟩
  · exact .inr ⟨x, hx, hr, htx, fun y hy hty => by have := hspec.2.2 y hy hty; rwa [hr] at this⟩

theorem bestOf_cons_of_pick_none {x : Aln} (hx : pick klignUnalignedThres none x = none)
    (g : List Aln) : bestOf klignUnalignedThres (x :: g) = bestOf klignUnalignedThres g := by
  rw [bestOf, List.foldl_cons, hx]
  rfl

theorem filterMap_bestOf_consRun {x : Aln} (hx : pick klignUnalignedThres none x = none) :
    ∀ gs : List (List Aln), (consRun x gs).filterMap (bestOf klignUnalignedThres) =
      gs.filterMap (bestOf klignUnalignedThres)
  | [] => by rw [consRun, List.filterMap_cons, bestOf_cons_of_pick_none hx]; rfl
  | [] :: gs => by rw [consRun, List.filterMap_cons, bestOf_cons_of_pick_none hx]; rfl
  | (b :: g) :: gs => by
      rw [consRun]
      split_ifs
      · rw [List.filterMap_cons, List.filterMap_cons, bestOf_cons_of_pick_none hx]
      · rw [List.filterMap_cons, bestOf_cons_of_pick_none hx]
        rfl

theorem filterMap_bestOf_readRuns_append {pre : List Aln}
    (hpre : ∀ x ∈ pre, pick klignUnalignedThres none x = none) (alns : List Aln) :
    (readRuns (pre ++ alns)).filterMap (bestOf klignUnalignedThres) =
      (readRuns alns).filterMap (bestOf klignUnalignedThres) := by
  induction pre with
  | nil => rfl
  | cons x pre ih =>
    rw [List.cons_append, readRuns_cons, filterMap_bestOf_consRun (hpre x (List.mem_cons_self _ _)),
      ih fun y hy => hpre y (List.mem_cons_of_mem _ hy)]

theorem bestOf_mem {alns : List Aln} {b : Aln × AlnStatus × AlnStatus}
    (h : bestOf klignUnalignedThres alns = some b) : b.1 ∈ alns := by
  rcases @bestOf_spec klignUnalignedThres alns with ⟨hn, -⟩ | ⟨x, hx, hb, -⟩
  · rw [hn] at h; cases h
  · rw [hb] at h; cases h; exact hx

end BestOf

section ProcessAlns

variable (klignUnalignedThres : Int)

/-- The lambda `pair_overlap` of `process_alns`: the mate cannot fall past the contig, given
`min_pair_len`. -/
def pairOverlap (aln : Aln) (minPairLen : Int) : Bool :=
  if aln.orient = '+' then decide (minPairLen - aln.rlen - aln.rstart + 1 ≤ aln.clen - aln.cstart)
  else decide (minPairLen - 2 * aln.rlen + aln.rstart - 1 ≤ aln.cstart)

/-- The read id of the mate: the pair number at the end, `1` becomes `2` and `2` becomes `1`;
any other is the "Bad pair number" `DIE`, which prints the character as an `int`. -/
def mateReadId (readId : List Char) : Except String (List Char) :=
  match readId.getLast? with
  | some '1' => .ok (readId.dropLast ++ ['2'])
  | some '2' => .ok (readId.dropLast ++ ['1'])
  | c => .error ("Bad pair number " ++ toString ((c.getD (Char.ofNat 0)).toNat) ++ " in read: " ++
      String.mk readId)

/-- The mappings `process_alns` adds for one best alignment: the read to the side of the contig
it extends, if it extends the contig at its start or its end, and, when `pair_overlap` does not
hold, its mate with the other orientation to the side past which the mate may fall. -/
def alnMappings (minPairLen : Int) (best : Aln × AlnStatus × AlnStatus) :
    Except String (List (List Char × CtgInfo)) :=
  let aln := best.1
  let direct : List (List Char × CtgInfo) :=
    if best.2.1 = .extendsContig then
      [(aln.readId, ⟨aln.cid, aln.orient, if aln.orient = '+' then 'L' else 'R'⟩)]
    else if best.2.2 = .extendsContig then
      [(aln.readId, ⟨aln.cid, aln.orient, if aln.orient = '+' then 'R' else 'L'⟩)]
    else []
  if pairOverlap aln minPairLen then .ok direct
  else (mateReadId aln.readId).map fun mate =>
    direct ++ [(mate, ⟨aln.cid, if aln.orient = '+' then '-' else '+',
      if aln.orient = '+' then 'R' else 'L'⟩)]

/-- The `while` loop of `process_alns` with `fuel` iterations allowed: the mappings it adds, in
order, or its `DIE`. -/
def processAlnsLoop (minPairLen : Int) : Nat → List Aln → Nat → Nat →
    Except String (List (List Char × CtgInfo))
  | 0, _, _, _ => .ok []
  | _ + 1, [], _, _ => .ok []
  | fuel + 1, aln :: alns, numAlnsFound, numAlnsInvalid =>
      let r := getBestAlnForRead klignUnalignedThres (aln :: alns) numAlnsFound numAlnsInvalid
      match r.2.1 with
      | none => processAlnsLoop minPairLen fuel r.1 r.2.2.1 r.2.2.2
      | some best =>
          if best.1.readId = [] then processAlnsLoop minPairLen fuel r.1 r.2.2.1 r.2.2.2
          else do
            let adds ← alnMappings minPairLen best
            let rest ← processAlnsLoop minPairLen fuel r.1 r.2.2.1 r.2.2.2
            pure (adds ++ rest)

/-- `process_alns(alns, reads_to_ctgs, insert_avg, insert_stddev)`: the mappings it adds to
`reads_to_ctgs`, in order, or its `DIE`. Its loop is given one iteration per alignment, which is
enough: each call of `get_best_aln_for_read` takes at least one. -/
def processAlns (alns : List Aln) (insertAvg insertStddev : Int) :
    Except String (List (List Char × CtgInfo)) :=
  processAlnsLoop klignUnalignedThres (insertAvg + 3 * insertStddev) alns.length alns 0 0

/-- The mappings of a list of best alignments, one after another. -/
def mappingsOf (minPairLen : Int) (bests : List (Aln × AlnStatus × AlnStatus)) :
    Except String (List (List Char × CtgInfo)) :=
  (bests.mapM (alnMappings minPairLen)).map List.flatten

variable {klignUnalignedThres}

theorem mappingsOf_cons (minPairLen : Int) (b : Aln × AlnStatus × AlnStatus)
    (bs : List (Aln × AlnStatus × AlnStatus)) :
    mappingsOf minPairLen (b :: bs) = (alnMappings minPairLen b >>= fun adds =>
      mappingsOf minPairLen bs >>= fun rest => pure (adds ++ rest)) := by
  unfold mappingsOf
  rw [List.mapM_cons]
  cases alnMappings minPairLen b <;> cases bs.mapM (alnMappings minPairLen) <;> rfl

theorem processAlnsLoop_eq (minPairLen : Int) :
    ∀ (fuel : Nat) (alns : List Aln) (f i : Nat), alns.length ≤ fuel →
      (∀ a ∈ alns, a.readId ≠ []) →
      processAlnsLoop klignUnalignedThres minPairLen fuel alns f i =
        mappingsOf minPairLen ((readRuns alns).filterMap (bestOf klignUnalignedThres))
  | 0, [], _, _, _, _ => rfl
  | 0, _ :: _, _, _, hlen, _ => absurd hlen (Nat.not_succ_le_zero _)
  | fuel + 1, [], _, _, _, _ => rfl
  | fuel + 1, aln :: alns, f, i, hlen, hids => by
      rw [processAlnsLoop]
      rcases @getBestAlnForRead_cases klignUnalignedThres (aln :: alns) f i hids with
        ⟨h1, h2, hall⟩ | ⟨pre, a, run, rest, heq, hpre, ha, hrun, hrest, h1, h2⟩
      · have hnone := filterMap_bestOf_readRuns_append hall []
        rw [List.append_nil] at hnone
        simp only [h1, h2, hnone]
        cases fuel <;> rfl
      · obtain ⟨b, hb⟩ : ∃ b, bestOf klignUnalignedThres (a :: run) = some b := by
          rw [bestOf_cons_of_takes ha]
          rcases foldl_pick_spec run (some (a, alnStatuses klignUnalignedThres a)) ha.1 with
            ⟨hr | ⟨x, -, hr, -⟩, -⟩ <;> exact ⟨_, hr⟩
        have hmem : ∀ x ∈ (a :: run) ++ rest, x ∈ aln :: alns := fun x hx => by
          rw [heq]; exact List.mem_append_right _ hx
        have hbid : b.1.readId ≠ [] :=
          hids _ (hmem _ (List.mem_append_left _ (bestOf_mem hb)))
        have hlen' : rest.length ≤ fuel := by
          have := congrArg List.length heq
          simp only [List.length_append, List.length_cons] at this hlen
          omega
        have hruns : (readRuns (aln :: alns)).filterMap (bestOf klignUnalignedThres) =
            b :: (readRuns rest).filterMap (bestOf klignUnalignedThres) := by
          rw [heq, filterMap_bestOf_readRuns_append hpre, readRuns_append_run a run rest rfl
            hrun hrest, List.filterMap_cons, hb]
        simp only [h2, hb, if_neg hbid, h1]
        rw [hruns, mappingsOf_cons, processAlnsLoop_eq minPairLen fuel rest _ _ hlen'
          fun x hx => hids x (hmem x (List.mem_append_right _ hx))]

variable (klignUnalignedThres) in
/-- `process_alns`, with every read id non-empty, adds the mappings of one best alignment per run
of a read's alignments, the runs in the order they come: the best of the run as `bestOf` picks
it, and nothing for a run with no alignment valid at both ends. The `while` loop and the early
`return` of `get_best_aln_for_read` keep to the runs even where a run with no valid alignment
is passed over on the way to the next read. -/
theorem process_alns_best_per_read {alns : List Aln} (hids : ∀ a ∈ alns, a.readId ≠ [])
    (insertAvg insertStddev : Int) :
    processAlns klignUnalignedThres alns insertAvg insertStddev =
      mappingsOf (insertAvg + 3 * insertStddev)
        ((readRuns alns).filterMap (bestOf klignUnalignedThres)) :=
  processAlnsLoop_eq _ _ alns 0 0 le_rfl hids

/-- Alignments of `r1/1` to contigs 7, 8 and 9, then of `r2/1`, then of `r1/1` again: the one to
contig 8 has the highest score but is `NO_ALN` at its start, and those to 7 and 9 tie. -/
def alnsThreeRuns : List Aln :=
  [⟨"r1/1".toList, 7, 1, 60, 100, 541, 600, 600, '+', 60⟩,
    ⟨"r1/1".toList, 8, 30, 100, 100, 50, 120, 600, '+', 95⟩,
    ⟨"r1/1".toList, 9, 1, 60, 100, 541, 600, 600, '+', 60⟩,
    ⟨"r2/1".toList, 7, 1, 60, 100, 541, 600, 600, '+', 50⟩,
    ⟨"r1/1".toList, 8, 1, 60, 100, 541, 600, 600, '+', 40⟩]

theorem process_alns_best_per_read_three_runs :
    (∀ a ∈ alnsThreeRuns, a.readId ≠ []) ∧
      ((readRuns alnsThreeRuns).filterMap (bestOf 10)).map (·.1.cid) = [9, 7, 8] ∧
      processAlns 10 alnsThreeRuns 300 30 =
        mappingsOf (300 + 3 * 30) ((readRuns alnsThreeRuns).filterMap (bestOf 10)) ∧
      processAlns 10 alnsThreeRuns 300 30 =
        .ok [("r1/1".toList, ⟨9, '+', 'R'⟩), ("r1/2".toList, ⟨9, '-', 'R'⟩),
          ("r2/1".toList, ⟨7, '+', 'R'⟩), ("r2/2".toList, ⟨7, '-', 'R'⟩),
          ("r1/1".toList, ⟨8, '+', 'R'⟩), ("r1/2".toList, ⟨8, '-', 'R'⟩)] :=
  have hids : ∀ a ∈ alnsThreeRuns, a.readId ≠ [] := by decide
  ⟨hids, by decide, process_alns_best_per_read 10 hids 300 30, rfl⟩

theorem cid_of_mem_alnMappings {minPairLen : Int} {best : Aln × AlnStatus × AlnStatus}
    {adds : List (List Char × CtgInfo)} (h : alnMappings minPairLen best = .ok adds) :
    ∀ u ∈ adds, u.2.cid = best.1.cid := by
  unfold alnMappings at h
  dsimp only at h
  intro u hu
  by_cases hp : pairOverlap best.1 minPairLen = true
  · rw [if_pos hp] at h
    cases h
    split_ifs at hu <;> simp only [List.mem_singleton, List.not_mem_nil] at hu <;> subst hu <;> rfl
  · rw [if_neg hp] at h
    cases hm : mateReadId best.1.readId with
    | error e => rw [hm] at h; cases h
    | ok mate =>
      rw [hm] at h
      cases h
      rcases List.mem_append.1 hu with hu | hu
      · split_ifs at hu <;> simp only [List.mem_singleton, List.not_mem_nil] at hu <;> subst hu <;>
          rfl
      · rw [List.mem_singleton.1 hu]

theorem cid_of_mem_mappingsOf {minPairLen : Int} {bests : List (Aln × AlnStatus × AlnStatus)}
    {sent : List (List Char × CtgInfo)} (h : mappingsOf minPairLen bests = .ok sent) :
    ∀ u ∈ sent, ∃ b ∈ bests, u.2.cid = b.1.cid := by
  unfold mappingsOf at h
  cases hm : bests.mapM (alnMappings minPairLen) with
  | error e => rw [hm] at h; cases h
  | ok addss =>
    rw [hm] at h
    cases h
    intro u hu
    obtain ⟨adds, hadds, hu⟩ := List.mem_flatten.1 hu
    obtain ⟨b, hb, hbadds⟩ := mem_of_mapM_eq_ok hm adds hadds
    exact ⟨b, hb, cid_of_mem_alnMappings hbadds u hu⟩

theorem cid_of_mem_processAlns {alns : List Aln} (hids : ∀ a ∈ alns, a.readId ≠ [])
    {insertAvg insertStddev : Int} {sent : List (List Char × CtgInfo)}
    (h : processAlns klignUnalignedThres alns insertAvg insertStddev = .ok sent) :
    ∀ u ∈ sent, ∃ a ∈ alns, u.2.cid = a.cid := by
  rw [processAlns, processAlnsLoop_eq _ _ alns 0 0 le_rfl hids] at h
  intro u hu
  obtain ⟨b, hb, hcid⟩ := cid_of_mem_mappingsOf h u hu
  obtain ⟨g, hg, hbg⟩ := List.mem_filterMap.1 hb
  refine ⟨b.1, ?_, hcid⟩
  rw [← flatten_readRuns alns]
  exact List.mem_flatten.2 ⟨g, hg, bestOf_mem hbg⟩

end ProcessAlns

end Mhm2Proxy.LocalAssm
