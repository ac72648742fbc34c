import Mathlib.Data.List.Dedup
import H2Push.DiaryLru

/-!
# H2Push — the diary decides from the request history alone

`DiaryLru` shows that the diary is an LRU set of capacity `N`. This module says which set
that is after any run, without running a set at all: the *window* of a history `H` of
hashes is `window N H`, the distinct hashes of `H` in the order of their last occurrence
(`List.dedup` keeps last occurrences), the `N` most recent of them. `mem_window_iff` says
what it holds: `h` is in the window exactly when `h` occurred and fewer than `N` distinct
hashes occurred after its last occurrence. `historyKeep` and `historyRun` decide each
candidate on the window of what was requested before it, and keep no state besides the
history.

* `dedup_append_singleton`: one more request moves its hash to the recent end;
* `lruStep_window`: the abstract step on the window of `H` gives the window of `H ++ [h]`,
  and keeps `h` exactly when `h` was outside the window;
* `foldl_lruKeep_window`, `lruRun_window`: the same over one candidate list and over a
  sequence of `update` calls, by induction;
* `diaryRun_window`, `diaryRun_history`: through `diaryRun_refines`, the C diary from any
  state it can be in.
-/

namespace H2

/-- The last `n` elements of `l`. -/
def lastN {α : Type} (n : Nat) (l : List α) : List α := l.drop (l.length - n)

/-- The hashes an LRU set of capacity `N` holds after the requests `H`: the distinct ones,
in the order of their last occurrence, the `N` most recent. -/
def window (N : Nat) (H : List UInt64) : List UInt64 := lastN N H.dedup

/-- The hashes a sequence of `update` calls computes, in order. -/
def runHashes (dcalc : Push → UInt64) : List (Option (List Push)) → List UInt64
  | [] => []
  | c :: cs => (c.getD []).map dcalc ++ runHashes dcalc cs

/-- The candidates of one call that a history `H` lets through: those whose hash is outside
the window of everything requested before them. -/
def historyKeep (N : Nat) (dcalc : Push → UInt64) : List UInt64 → List Push → List Push
  | _, [] => []
  | H, p :: ps =>
    (if dcalc p ∈ window N H then [] else [p]) ++ historyKeep N dcalc (H ++ [dcalc p]) ps

/-- Each call's result after the history `H`: the candidates `historyKeep` lets through,
`none` when there are none or no list was given. -/
def historyRun (N : Nat) (dcalc : Push → UInt64) :
    List UInt64 → List (Option (List Push)) → List (Option (List Push))
  | _, [] => []
  | H, none :: cs => none :: historyRun N dcalc H cs
  | H, some ps :: cs =>
    (if historyKeep N dcalc H ps = [] then none else some (historyKeep N dcalc H ps)) ::
      historyRun N dcalc (H ++ ps.map dcalc) cs

/-! ## §1 — the recency order and its last `N` -/

/-- One more occurrence of `a` moves it to the recent end of the recency order. -/
theorem dedup_append_singleton {α : Type} [DecidableEq α] (l : List α) (a : α) :
    (l ++ [a]).dedup = l.dedup.erase a ++ [a] := by
  induction l with
  | nil => simp [List.dedup_cons_of_not_mem (List.not_mem_nil a)]
  | cons b l ih =>
    rw [List.cons_append]
    by_cases hb : b ∈ l
    · rw [List.dedup_cons_of_mem (List.mem_append_left _ hb), List.dedup_cons_of_mem hb, ih]
    · rw [List.dedup_cons_of_not_mem hb]
      by_cases hba : b = a
      · subst hba
        rw [List.dedup_cons_of_mem (List.mem_append_right _ (List.mem_singleton_self b)), ih,
          List.erase_cons_head, List.erase_of_not_mem (mt List.mem_dedup.1 hb)]
      · rw [List.dedup_cons_of_not_mem (by simp [hb, hba]), ih,
          List.erase_cons_tail (by simpa using hba), List.cons_append]

theorem lastN_of_length_le {α : Type} {n : Nat} {l : List α} (h : l.length ≤ n) :
    lastN n l = l := by
  rw [lastN, Nat.sub_eq_zero_of_le h, List.drop_zero]

theorem lastN_append_eq {α : Type} {n : Nat} {A B : List α}
    (h : A.length = (A ++ B).length - n) : lastN n (A ++ B) = B :=
  List.drop_left' h

theorem lastN_append_singleton {α : Type} {n : Nat} (hn : 0 < n) (l : List α) (a : α) :
    lastN n (l ++ [a]) = lastN (n - 1) l ++ [a] := by
  rw [lastN, lastN, List.length_append, List.length_singleton,
    List.drop_append_of_le_length (by omega), show l.length + 1 - n = l.length - (n - 1) by omega]

/-- A list splits into what its last `n` drop and the last `n`. -/
theorem exists_lastN_split {α : Type} (n : Nat) (D : List α) :
    ∃ A B, D = A ++ B ∧ lastN n D = B ∧ A.length = D.length - n :=
  ⟨D.take (D.length - n), lastN n D, (List.take_append_drop _ D).symm, rfl,
    by rw [List.length_take]; omega⟩

/-! ## §2 — one request -/

/-- The abstract step on the last `N` of a duplicate-free recency order `D`. -/
theorem lruStep_lastN {N : Nat} (hN : 0 < N) {D : List UInt64} (hD : D.Nodup) (h : UInt64) :
    lruStep N (lastN N D) h = (lastN N (D.erase h ++ [h]), decide (h ∉ lastN N D)) := by
  obtain ⟨A, B, rfl, hB, hlen⟩ := exists_lastN_split N D
  rw [hB]
  rw [List.length_append] at hlen
  have hdisj := List.disjoint_of_nodup_append hD
  unfold lruStep
  by_cases hmem : h ∈ B
  · -- a hit: the hash moves to the recent end, inside the last `N`
    have hE : (A ++ B).erase h ++ [h] = A ++ (B.erase h ++ [h]) := by
      rw [List.erase_append_right _ (fun hA => hdisj hA hmem), List.append_assoc]
    have hBlen := List.length_erase_of_mem hmem
    have hpos := List.length_pos_of_mem hmem
    have hlen' : A.length = (A ++ (B.erase h ++ [h])).length - N := by
      simp only [List.length_append, List.length_singleton, hBlen]; omega
    rw [if_pos hmem, hE, lastN_append_eq hlen']
    simp only [hmem, not_true_eq_false, decide_False]
  · -- a miss: the hash is appended after the `N - 1` most recent
    have hE : (A ++ B).erase h = A.erase h ++ B := by
      rw [List.erase_append]
      split_ifs with hA
      · rfl
      · rw [List.erase_of_not_mem hA, List.erase_of_not_mem hmem]
    rw [if_neg hmem, hE, lastN_append_singleton hN]
    simp only [hmem, not_false_eq_true, decide_True, Prod.mk.injEq, and_true]
    congr 1
    split_ifs with hfull
    · -- the set was full: `|B| = N`, and the oldest of `B` is dropped
      rw [lastN, List.length_append,
        show (A.erase h).length + B.length - (N - 1) = (A.erase h).length + 1 by omega,
        List.drop_append, List.drop_one]
    · -- it was not: nothing is dropped, and nothing older than `B` was left
      obtain rfl : A = [] := List.length_eq_zero.mp (by omega)
      rw [List.erase_nil, List.nil_append, lastN_of_length_le (by omega)]

/-- **One request.** On the window of a history, the abstract step gives the window of the
history with one more request, and keeps the hash exactly when it was outside. -/
theorem lruStep_window {N : Nat} (hN : 0 < N) (H : List UInt64) (h : UInt64) :
    lruStep N (window N H) h = (window N (H ++ [h]), decide (h ∉ window N H)) := by
  rw [window, window, dedup_append_singleton]
  exact lruStep_lastN hN (List.nodup_dedup H) h

/-- A set the diary can hold is the window of itself. -/
theorem window_of_nodup {N : Nat} {L : List UInt64} (hL : L.Nodup) (hlen : L.length ≤ N) :
    window N L = L := by
  rw [window, hL.dedup, lastN_of_length_le hlen]

/-! ## §3 — one call, and a sequence of calls -/

theorem foldl_lruKeep_window {N : Nat} (hN : 0 < N) (dcalc : Push → UInt64) :
    ∀ (ps : List Push) (H : List UInt64) (kept : List Push),
      ps.foldl (lruKeep N dcalc) (window N H, kept) =
        (window N (H ++ ps.map dcalc), kept ++ historyKeep N dcalc H ps)
  | [], H, kept => by simp [historyKeep]
  | p :: ps, H, kept => by
    simp only [List.foldl_cons, lruKeep, lruStep_window hN, foldl_lruKeep_window hN dcalc ps,
      List.map_cons, historyKeep, List.append_assoc, List.singleton_append]
    by_cases hm : dcalc p ∈ window N H <;> simp [hm]

/-- **The abstract diary is a function of the history.** Started on the window of `H`, a
sequence of `update` calls ends on the window of `H` and every hash the calls computed,
and each call returns what `historyKeep` lets through. -/
theorem lruRun_window {N : Nat} (hN : 0 < N) (dcalc : Push → UInt64) :
    ∀ (calls : List (Option (List Push))) (H : List UInt64),
      lruRun N dcalc (window N H) calls =
        (window N (H ++ runHashes dcalc calls), historyRun N dcalc H calls)
  | [], H => by simp [lruRun, runHashes, historyRun]
  | none :: cs, H => by
    simp [lruRun, lruUpdate, runHashes, historyRun, lruRun_window hN dcalc cs H]
  | some ps :: cs, H => by
    simp [lruRun, lruUpdate, runHashes, historyRun, foldl_lruKeep_window hN,
      lruRun_window hN dcalc cs]

/-! ## §4 — what the window holds -/

/-- A member has a last occurrence. -/
theorem exists_last_occurrence {α : Type} {x : α} :
    ∀ {H : List α}, x ∈ H → ∃ A B, H = A ++ x :: B ∧ x ∉ B
  | y :: T, hx => by
    by_cases hT : x ∈ T
    · obtain ⟨A, B, rfl, hB⟩ := exists_last_occurrence hT
      exact ⟨y :: A, B, rfl, hB⟩
    · obtain rfl : x = y := by simpa [hT] using hx
      exact ⟨[], T, rfl, hT⟩

/-- After the last occurrence of `x`, the recency order ends on `x` and then the distinct
hashes that came after it. -/
theorem dedup_append_cons {α : Type} [DecidableEq α] (A : List α) {x : α} {B : List α}
    (hB : x ∉ B) : ∃ X, (A ++ x :: B).dedup = X ++ x :: B.dedup := by
  obtain ⟨X, hX⟩ := List.suffix_union_right A (x :: B).dedup
  rw [List.dedup_cons_of_not_mem hB] at hX
  exact ⟨X, by rw [List.dedup_append, List.dedup_cons_of_not_mem hB, ← hX]⟩

theorem mem_lastN_append_cons {α : Type} {n : Nat} (X : List α) {x : α} {C : List α}
    (hC : x ∉ C) : x ∈ lastN n (X ++ x :: C) ↔ C.length < n := by
  have hlen : (X ++ x :: C).length = X.length + (C.length + 1) := by simp
  by_cases hn : C.length < n
  · rw [lastN, List.drop_append_of_le_length (by omega)]
    simp [hn]
  · rw [lastN, show (X ++ x :: C).length - n = X.length + (C.length - n + 1) by omega,
      List.drop_append, List.drop_succ_cons]
    simp only [hn, iff_false]
    exact fun h => hC (List.mem_of_mem_drop h)

/-- **The window is the reuse distance below `N`.** A hash is in the window of `H` exactly
when it occurs in `H` and fewer than `N` distinct hashes occur after its last occurrence. -/
theorem mem_window_iff {N : Nat} {H : List UInt64} {x : UInt64} :
    x ∈ window N H ↔ ∃ A B, H = A ++ x :: B ∧ x ∉ B ∧ B.dedup.length < N := by
  constructor
  · intro hx
    obtain ⟨A, B, rfl, hB⟩ :=
      exists_last_occurrence (List.mem_dedup.1 (List.mem_of_mem_drop hx))
    obtain ⟨X, hX⟩ := dedup_append_cons A hB
    rw [window, hX, mem_lastN_append_cons X (mt List.mem_dedup.1 hB)] at hx
    exact ⟨A, B, rfl, hB, hx⟩
  · rintro ⟨A, B, rfl, hB, hlt⟩
    obtain ⟨X, hX⟩ := dedup_append_cons A hB
    rwa [window, hX, mem_lastN_append_cons X (mt List.mem_dedup.1 hB)]

/-! ## §5 — the C diary -/

theorem length_window_le (N : Nat) (H : List UInt64) : (window N H).length ≤ N := by
  rw [window, lastN, List.length_drop]; omega

/-- The C diary run from a set `L` it can hold ends on the window of `L` and the run's
hashes, and returns what `historyRun` returns. -/
theorem diaryRun_window (dcalc : Push → UInt64) {d : Diary} {L : List UInt64}
    (h : Refines d L) (calls : List (Option (List Push))) :
    ∃ d', (diaryRun dcalc (some d) calls).1 = some d' ∧
      d'.entries = window d.N (L ++ runHashes dcalc calls) ∧
      (diaryRun dcalc (some d) calls).2 = historyRun d.N dcalc L calls := by
  have hN : 0 < d.N := by have := d.two_le_N; omega
  obtain ⟨d', hd', -, ⟨he, -, -⟩, hout⟩ := diaryRun_refines dcalc calls d L h
  rw [← window_of_nodup h.2.1 h.2.2, lruRun_window hN] at he hout
  exact ⟨d', hd', he, hout⟩

/-- **The diary decides from the history alone.** From any diary holding a set `L` it can
hold (distinct hashes, at most `N`), after any sequence of `h2_push_diary_update` calls:
the entries are the window of capacity `N` of `L` followed by every hash the calls
computed; a hash is among them exactly when it occurred there and fewer than `N` distinct
hashes occurred after its last occurrence; and each call returned exactly the candidates
whose hash was outside the window of everything before them (`NULL` when none). -/
theorem diaryRun_history (dcalc : Push → UInt64) {d : Diary} {L : List UInt64}
    (h : Refines d L) (calls : List (Option (List Push))) :
    ∃ d', (diaryRun dcalc (some d) calls).1 = some d' ∧
      d'.entries = window d.N (L ++ runHashes dcalc calls) ∧
      (∀ x, x ∈ d'.entries ↔ ∃ A B, L ++ runHashes dcalc calls = A ++ x :: B ∧ x ∉ B ∧
        B.dedup.length < d.N) ∧
      (diaryRun dcalc (some d) calls).2 = historyRun d.N dcalc L calls := by
  obtain ⟨d', hd', he, hout⟩ := diaryRun_window dcalc h calls
  exact ⟨d', hd', he, fun x => he ▸ mem_window_iff, hout⟩

/-- A diary of capacity 2 holding `[3, 5]`, and one call with a push of hash 3: it is
dropped, and 3 moves to the recent end. -/
theorem diaryRun_history_repeat :
    let d : Diary := ⟨[3, 5], 2, 2, 64, none, .sha256, by decide⟩
    let p : Push := ⟨⟨"GET".toList, "https".toList, "a".toList, "/".toList, []⟩, none⟩
    let calls := [some [p]]
    Refines d [3, 5] ∧
    ∃ d', (diaryRun (fun _ => 3) (some d) calls).1 = some d' ∧
      d'.entries = window d.N ([3, 5] ++ runHashes (fun _ => 3) calls) ∧
      (∀ x, x ∈ d'.entries ↔ ∃ A B, [3, 5] ++ runHashes (fun _ => 3) calls = A ++ x :: B ∧
        x ∉ B ∧ B.dedup.length < d.N) ∧
      (diaryRun (fun _ => 3) (some d) calls).2 = historyRun d.N (fun _ => 3) [3, 5] calls :=
  ⟨⟨rfl, by decide, by decide⟩, diaryRun_history _ ⟨rfl, by decide, by decide⟩ _⟩

end H2
