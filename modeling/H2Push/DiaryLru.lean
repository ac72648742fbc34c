import H2Push.Diary

/-!
# H2Push — the push diary refines an LRU set

What the diary is for, said without arrays: it is a set of at most `N` hashes kept in
least-recently-used order. A candidate whose hash is held is a repeat: the hash moves to
the most-recently-used end and the candidate is dropped. A new hash is appended, after
the least recently used one is dropped from a full set, and its candidate is kept.
`lruStep`, `lruUpdate` and `lruRun` say this on lists.

The refinement relation `Refines d L` is `d.entries = L` together with the invariant that
makes the C code agree with the abstract step: the hashes are distinct (so the search
from the end finds the one occurrence, and moving it is erasing it) and there are at most
`N` of them (so the eviction loop runs at most once). `updateStep_refines` is the one
place where the C operations are opened; the fold over a candidate list and the run over
a sequence of `update` calls are inductions on top of it.
-/

namespace H2

/-- The abstract diary on one hash: the new set, and whether the hash was new. -/
def lruStep (N : Nat) (L : List UInt64) (h : UInt64) : List UInt64 × Bool :=
  if h ∈ L then (L.erase h ++ [h], false)
  else ((if N ≤ L.length then L.tail else L) ++ [h], true)

/-- The abstract fold over one candidate list: the set, and the candidates kept so far. -/
def lruKeep (N : Nat) (dcalc : Push → UInt64) (acc : List UInt64 × List Push) (p : Push) :
    List UInt64 × List Push :=
  let s := lruStep N acc.1 (dcalc p)
  (s.1, if s.2 then acc.2 ++ [p] else acc.2)

/-- The abstract `update`: the set after the candidates, and the kept candidates in input
order, `none` when there are none (or when no list was given). -/
def lruUpdate (N : Nat) (dcalc : Push → UInt64) (L : List UInt64) :
    Option (List Push) → List UInt64 × Option (List Push)
  | none => (L, none)
  | some ps =>
    let r := ps.foldl (lruKeep N dcalc) (L, [])
    (r.1, if r.2 = [] then none else some r.2)

/-- The abstract diary over a sequence of `update` calls: the final set, and each call's
result. -/
def lruRun (N : Nat) (dcalc : Push → UInt64) :
    List UInt64 → List (Option (List Push)) → List UInt64 × List (Option (List Push))
  | L, [] => (L, [])
  | L, c :: cs =>
    let r := lruUpdate N dcalc L c
    let rest := lruRun N dcalc r.1 cs
    (rest.1, r.2 :: rest.2)

/-- A session's diary over a sequence of `h2_push_diary_update` calls. -/
def diaryRun (dcalc : Push → UInt64) :
    Option Diary → List (Option (List Push)) → Option Diary × List (Option (List Push))
  | d, [] => (d, [])
  | d, c :: cs =>
    let r := h2PushDiaryUpdate dcalc d c
    let rest := diaryRun dcalc r.1 cs
    (rest.1, r.2 :: rest.2)

/-! ## §1 — the abstract set keeps its invariant -/

/-- The diary holds the set `L`, with distinct hashes and at most `N` of them. -/
def Refines (d : Diary) (L : List UInt64) : Prop :=
  d.entries = L ∧ L.Nodup ∧ L.length ≤ d.N

theorem lruStep_nodup {N : Nat} {L : List UInt64} (hL : L.Nodup) (h : UInt64) :
    (lruStep N L h).1.Nodup := by
  unfold lruStep
  split
  · exact (hL.erase h).append (List.nodup_singleton h)
      (List.disjoint_singleton.mpr (hL.not_mem_erase))
  · rename_i hmem
    have ht : (if N ≤ L.length then L.tail else L).Nodup := by
      split
      · exact hL.sublist (List.tail_sublist L)
      · exact hL
    refine ht.append (List.nodup_singleton h) (List.disjoint_singleton.mpr fun hin => hmem ?_)
    split at hin
    · exact List.mem_of_mem_tail hin
    · exact hin

theorem lruStep_length_le {N : Nat} {L : List UInt64} (h0 : 0 < N) (hN : L.length ≤ N)
    (h : UInt64) :
    (lruStep N L h).1.length ≤ N := by
  unfold lruStep
  split
  · rename_i hmem
    have := List.length_pos_of_mem hmem
    rw [List.length_append, List.length_erase_of_mem hmem, List.length_singleton]
    omega
  · by_cases hfull : N ≤ L.length
    · rw [if_pos hfull, List.length_append, List.length_tail, List.length_singleton]
      omega
    · rw [if_neg hfull, List.length_append, List.length_singleton]; omega

/-! ## §2 — one candidate: the C loop body is the abstract step -/

/-- A hit: the loop body moves the entry holding the hash and keeps `npushes`. -/
theorem updateStep_of_mem (dcalc : Push → UInt64) {acc : Diary × Option (List Push)} {p : Push}
    (hnd : acc.1.entries.Nodup) (hmem : dcalc p ∈ acc.1.entries) :
    updateStep dcalc acc p = (moveToLast acc.1 (acc.1.entries.indexOf (dcalc p)), acc.2) := by
  simp [updateStep, h2PushDiaryFind_eq hnd, hmem]

/-- A miss: the loop body appends the hash and the push. -/
theorem updateStep_of_not_mem (dcalc : Push → UInt64) {acc : Diary × Option (List Push)}
    {p : Push} (hnd : acc.1.entries.Nodup) (hmem : dcalc p ∉ acc.1.entries) :
    updateStep dcalc acc p = (h2PushDiaryAppend acc.1 (dcalc p), some (acc.2.getD [] ++ [p])) := by
  simp [updateStep, h2PushDiaryFind_eq hnd, hmem]

/-- **One round of `h2_push_diary_update`.** From a diary holding `L`, the loop body
leaves a diary holding `lruStep N L hash`, with the same `N`, and records the push in
`npushes` exactly when the hash was new. -/
theorem updateStep_refines (dcalc : Push → UInt64) {acc : Diary × Option (List Push)}
    {L : List UInt64} (h : Refines acc.1 L) (p : Push) :
    Refines (updateStep dcalc acc p).1 (lruStep acc.1.N L (dcalc p)).1 ∧
      (updateStep dcalc acc p).1.N = acc.1.N ∧
      (updateStep dcalc acc p).2 =
        if (lruStep acc.1.N L (dcalc p)).2 then some (acc.2.getD [] ++ [p]) else acc.2 := by
  obtain ⟨he, hnd, hlen⟩ := h
  subst he
  have hinv := And.intro (lruStep_nodup hnd (N := acc.1.N) (dcalc p))
    (lruStep_length_le (by have := acc.1.two_le_N; omega) hlen (dcalc p))
  by_cases hmem : dcalc p ∈ acc.1.entries
  · rw [updateStep_of_mem dcalc hnd hmem]
    simp only [lruStep, if_pos hmem] at hinv ⊢
    exact ⟨⟨moveToLast_indexOf hnd hmem, hinv.1, (moveToLast_N _ _).symm ▸ hinv.2⟩,
      moveToLast_N _ _, by simp⟩
  · rw [updateStep_of_not_mem dcalc hnd hmem]
    simp only [lruStep, if_neg hmem] at hinv ⊢
    refine ⟨⟨?_, hinv.1, (h2PushDiaryAppend_N _ _).symm ▸ hinv.2⟩, h2PushDiaryAppend_N _ _,
      by simp⟩
    simp [h2PushDiaryAppend, evict_entries hlen]

/-- `npushes` after appending the pushes `k`: it stays as it was (possibly `NULL`) when
`k` is empty. -/
def appendKept (np : Option (List Push)) (k : List Push) : Option (List Push) :=
  if k = [] then np else some (np.getD [] ++ k)

theorem appendKept_appendKept (np : Option (List Push)) (a b : List Push) :
    appendKept (appendKept np a) b = appendKept np (a ++ b) := by
  unfold appendKept
  by_cases ha : a = [] <;> by_cases hb : b = [] <;> simp [ha, hb]

/-- The abstract fold's set does not depend on what was kept before, and what it keeps is
appended. -/
theorem foldl_lruKeep (N : Nat) (dcalc : Push → UInt64) (ps : List Push) :
    ∀ (L : List UInt64) (kept : List Push),
      ps.foldl (lruKeep N dcalc) (L, kept) =
        ((ps.foldl (lruKeep N dcalc) (L, [])).1,
          kept ++ (ps.foldl (lruKeep N dcalc) (L, [])).2) := by
  induction ps with
  | nil => intro L kept; simp
  | cons p ps ih =>
    intro L kept
    simp only [List.foldl_cons, lruKeep]
    cases (lruStep N L (dcalc p)).2
    · simp only [Bool.false_eq_true, if_false]
      rw [ih _ kept]
    · simp only [if_true, List.nil_append]
      rw [ih _ (kept ++ [p]), ih _ [p], List.append_assoc]

/-- **The loop over one candidate list.** The diary follows the abstract fold, and
`npushes` receives exactly the kept candidates, in order. -/
theorem foldl_updateStep_refines (dcalc : Push → UInt64) (ps : List Push) :
    ∀ (acc : Diary × Option (List Push)) (L : List UInt64), Refines acc.1 L →
      Refines (ps.foldl (updateStep dcalc) acc).1 (ps.foldl (lruKeep acc.1.N dcalc) (L, [])).1 ∧
        (ps.foldl (updateStep dcalc) acc).1.N = acc.1.N ∧
        (ps.foldl (updateStep dcalc) acc).2 =
          appendKept acc.2 (ps.foldl (lruKeep acc.1.N dcalc) (L, [])).2 := by
  induction ps with
  | nil => intro acc L h; simp [h, appendKept]
  | cons p ps ih =>
    intro acc L h
    obtain ⟨hr, hN, hnp⟩ := updateStep_refines dcalc h p
    obtain ⟨hr', hN', hnp'⟩ := ih _ _ hr
    rw [hN] at hr' hnp'
    simp only [List.foldl_cons]
    rw [foldl_lruKeep acc.1.N dcalc ps _ (lruKeep acc.1.N dcalc (L, []) p).2]
    refine ⟨hr', hN'.trans hN, ?_⟩
    rw [hnp', hnp, ← appendKept_appendKept]
    congr 1
    simp only [lruKeep]
    cases (lruStep acc.1.N L (dcalc p)).2 <;> simp [appendKept]

/-- **One `h2_push_diary_update` call** refines the abstract `update`. -/
theorem h2PushDiaryUpdate_refines (dcalc : Push → UInt64) {d : Diary} {L : List UInt64}
    (h : Refines d L) (c : Option (List Push)) :
    ∃ d', (h2PushDiaryUpdate dcalc (some d) c).1 = some d' ∧ d'.N = d.N ∧
      Refines d' (lruUpdate d.N dcalc L c).1 ∧
      (h2PushDiaryUpdate dcalc (some d) c).2 = (lruUpdate d.N dcalc L c).2 := by
  cases c with
  | none => exact ⟨d, rfl, rfl, h, rfl⟩
  | some ps =>
    obtain ⟨hr, hN, hnp⟩ := foldl_updateStep_refines dcalc ps (d, none) L h
    refine ⟨_, rfl, hN, hr, ?_⟩
    simp only [h2PushDiaryUpdate, lruUpdate, hnp, appendKept]
    split <;> simp_all

/-- The run over a sequence of calls refines the abstract run. -/
theorem diaryRun_refines (dcalc : Push → UInt64) (calls : List (Option (List Push))) :
    ∀ (d : Diary) (L : List UInt64), Refines d L →
      ∃ d', (diaryRun dcalc (some d) calls).1 = some d' ∧ d'.N = d.N ∧
        Refines d' (lruRun d.N dcalc L calls).1 ∧
        (diaryRun dcalc (some d) calls).2 = (lruRun d.N dcalc L calls).2 := by
  induction calls with
  | nil => intro d L h; exact ⟨d, rfl, rfl, h, rfl⟩
  | cons c cs ih =>
    intro d L h
    obtain ⟨d₁, hd₁, hN₁, hr₁, hout⟩ := h2PushDiaryUpdate_refines dcalc h c
    obtain ⟨d₂, hd₂, hN₂, hr₂, hout₂⟩ := ih d₁ _ hr₁
    rw [hN₁] at hr₂ hout₂
    refine ⟨d₂, ?_, hN₂.trans hN₁, hr₂, ?_⟩
    · simp only [diaryRun, hd₁, hd₂]
    · simp only [diaryRun, lruRun, hd₁, hout, hout₂]

/-- **The push diary is an LRU set.** For a diary created with `0 < N ≤ 2^30` and any
digest function, after every sequence of `h2_push_diary_update` calls the entry list is
the abstract LRU set of capacity `N` run on the same hashes, each call returned exactly
the candidates the abstract set kept (`NULL` when none), and the stored hashes are
distinct and at most `N`. -/
theorem h2PushDiaryUpdate_refines_lru (dcalc : Push → UInt64) (dtype : DigestType) (N : Int)
    (h0 : 0 < N) (hN : N ≤ 2 ^ 30) :
    ∃ d, diaryCreate dtype N = some (some d) ∧ ∀ calls : List (Option (List Push)),
      ∃ d', (diaryRun dcalc (some d) calls).1 = some d' ∧
        d'.entries = (lruRun d.N dcalc [] calls).1 ∧
        (diaryRun dcalc (some d) calls).2 = (lruRun d.N dcalc [] calls).2 ∧
        d'.entries.Nodup ∧ d'.entries.length ≤ d.N := by
  obtain ⟨d, hd, hempty, -, -, -⟩ := diaryCreate_spec dtype h0 hN
  refine ⟨d, hd, fun calls => ?_⟩
  have h : Refines d [] := ⟨hempty, List.nodup_nil, by simp⟩
  obtain ⟨d', hd', hN', ⟨he, hnd, hlen⟩, hout⟩ := diaryRun_refines dcalc calls d [] h
  exact ⟨d', hd', he, hout, he ▸ hnd, he ▸ hN' ▸ hlen⟩

theorem h2PushDiaryUpdate_refines_lru_at_four :
    (0 : Int) < 4 ∧ (4 : Int) ≤ 2 ^ 30 ∧
    ∃ d, diaryCreate .sha256 4 = some (some d) ∧ ∀ calls : List (Option (List Push)),
      ∃ d', (diaryRun (fun _ => 0) (some d) calls).1 = some d' ∧
        d'.entries = (lruRun d.N (fun _ => 0) [] calls).1 ∧
        (diaryRun (fun _ => 0) (some d) calls).2 = (lruRun d.N (fun _ => 0) [] calls).2 ∧
        d'.entries.Nodup ∧ d'.entries.length ≤ d.N :=
  ⟨by decide, by decide,
    h2PushDiaryUpdate_refines_lru (fun _ => 0) .sha256 4 (by decide) (by decide)⟩

/-! ## §4 — where the entries come from -/

theorem mem_lruStep {N : Nat} {L : List UInt64} {h x : UInt64} (hx : x ∈ (lruStep N L h).1) :
    x ∈ L ∨ x = h := by
  unfold lruStep at hx
  split at hx
  · rcases List.mem_append.mp hx with hx | hx
    · exact .inl (List.mem_of_mem_erase hx)
    · exact .inr (List.mem_singleton.mp hx)
  · rcases List.mem_append.mp hx with hx | hx
    · split at hx
      · exact .inl (List.mem_of_mem_tail hx)
      · exact .inl hx
    · exact .inr (List.mem_singleton.mp hx)

theorem mem_foldl_lruKeep (N : Nat) (dcalc : Push → UInt64) {x : UInt64} :
    ∀ (ps : List Push) (acc : List UInt64 × List Push),
      x ∈ (ps.foldl (lruKeep N dcalc) acc).1 → x ∈ acc.1 ∨ ∃ p ∈ ps, x = dcalc p
  | [], _, hx => .inl hx
  | p :: ps, acc, hx => by
    rcases mem_foldl_lruKeep N dcalc ps _ hx with hx | ⟨q, hq, rfl⟩
    · rcases mem_lruStep hx with hx | rfl
      · exact .inl hx
      · exact .inr ⟨p, List.mem_cons_self _ _, rfl⟩
    · exact .inr ⟨q, List.mem_cons_of_mem _ hq, rfl⟩

/-- **Every entry is a hash the run computed.** Over any sequence of `update` calls, each
hash in the abstract set was there at the start or is `dcalc` of a candidate of some call. -/
theorem mem_lruRun (N : Nat) (dcalc : Push → UInt64) {x : UInt64} :
    ∀ (calls : List (Option (List Push))) (L : List UInt64),
      x ∈ (lruRun N dcalc L calls).1 → x ∈ L ∨ ∃ c ∈ calls, ∃ p ∈ c.getD [], x = dcalc p
  | [], _, hx => .inl hx
  | c :: cs, L, hx => by
    rcases mem_lruRun N dcalc cs _ hx with hx | ⟨c', hc', p, hp, rfl⟩
    · cases c with
      | none => exact .inl hx
      | some ps =>
        rcases mem_foldl_lruKeep N dcalc ps (L, []) hx with hx | ⟨p, hp, rfl⟩
        · exact .inl hx
        · exact .inr ⟨some ps, List.mem_cons_self _ _, p, hp, rfl⟩
    · exact .inr ⟨c', List.mem_cons_of_mem _ hc', p, hp, rfl⟩

/-- A run of `update` calls changes only the entry array of the diary. -/
theorem diaryRun_with (dcalc : Push → UInt64) :
    ∀ (calls : List (Option (List Push))) (d : Diary),
      ∃ l, (diaryRun dcalc (some d) calls).1 = some { d with entries := l }
  | [], d => ⟨d.entries, rfl⟩
  | c :: cs, d => by
    obtain ⟨l₁, h₁⟩ := h2PushDiaryUpdate_with dcalc d c
    obtain ⟨l, hl⟩ := diaryRun_with dcalc cs { d with entries := l₁ }
    exact ⟨l, by simp only [diaryRun, h₁, hl]⟩

end H2
