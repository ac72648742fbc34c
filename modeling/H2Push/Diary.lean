import H2Push.CInt
import H2Push.Request
import Mathlib.Data.List.Nodup

/-!
# H2Push — the push diary

`h2_push_diary` remembers the hashes of the resources already pushed on one connection,
least recently used first, and `h2_push_diary_update` filters a list of push candidates
against it. The diary keeps only the 64-bit hash of each push: `dcalc` computes it, with
APR's hash or with SHA-256, and is fixed when the diary is created.

The entry array is the list of its first `nelts` elements. `move_to_last` and
`remove_first` are the list effects of their `memmove`s. The eviction loop
`while (nelts >= N) remove_first(diary)` stops only because `N ≥ 2`: `remove_first` leaves
a one-entry array alone. The model therefore carries `2 ≤ N` as a field of `Diary`,
established by `diary_create` (`diaryCreate_spec`), and the loop is a total function of
the diary.

`H2_OPENSSL` is taken as defined, so `diary_create` keeps the digest type it is given.
`update` takes the diary's `dcalc` as a function of the push: the only diary field the C
`dcalc` functions read is `mask_bits`, which nothing in this file changes after creation.
-/

namespace H2

/-- `h2_push_digest_type`. -/
inductive DigestType where
  | aprHash
  | sha256
  deriving DecidableEq, Repr

/-- `h2_push_diary`. The entry array is `entries`; `2 ≤ N` is what `diary_create`
guarantees and what the eviction loop needs. -/
structure Diary where
  entries : List UInt64
  NMax : Nat
  N : Nat
  maskBits : Nat
  authority : Option (List Char)
  dtype : DigestType
  two_le_N : 2 ≤ N

/-- `diary_create`: `NULL` unless `N > 0`, else an empty diary whose capacity is `N`
rounded up to a power of two. The outer `none` is the signed overflow of
`ceil_power_of_2`. -/
def diaryCreate (dtype : DigestType) (N : Int) : Option (Option Diary) :=
  if 0 < N then
    match h : ceilPowerOf2 N with
    | none => none
    | some n =>
      some (some { entries := [], NMax := n.toNat, N := n.toNat, maskBits := 64,
                   authority := none, dtype := dtype,
                   two_le_N := by have := ceilPowerOf2_two_le h; omega })
  else some none

/-- **`diary_create` up to `2^30`.** The diary is empty, `NMax = N`, and `N` is the least
power of two at least the requested size and `2`. -/
theorem diaryCreate_spec (dtype : DigestType) {N : Int} (h0 : 0 < N) (hN : N ≤ 2 ^ 30) :
    ∃ d, diaryCreate dtype N = some (some d) ∧ d.entries = [] ∧ d.NMax = d.N ∧
      IsLeastPow2Ge (max N 2) d.N ∧ d.maskBits = 64 := by
  obtain ⟨p, hp, hleast⟩ := ceilPowerOf2_least N hN
  have h2 := ceilPowerOf2_two_le hp
  unfold diaryCreate
  rw [if_pos h0]
  split
  · rename_i h; rw [hp] at h; cases h
  · rename_i n h
    rw [hp] at h
    cases h
    exact ⟨_, rfl, rfl, rfl, by rwa [Int.toNat_of_nonneg (by omega)], rfl⟩

/-- `h2_push_diary_create`: a SHA-256 diary. -/
def h2PushDiaryCreate (N : Int) : Option (Option Diary) := diaryCreate .sha256 N

/-- **Every caller's `ceil_power_of_2` up to `2^30`.** The configured size, an entry count
or a `maxP` of at most `2^30` rounds without overflow to the least power of two at least
itself and `2`; so a diary created with `0 < N ≤ 2^30` has `NMax = N`, such a power. -/
theorem ceilPowerOf2_diaryCreate_sound :
    (∀ n : Int, n ≤ 2 ^ 30 → ∃ p, ceilPowerOf2 n = some p ∧ IsLeastPow2Ge (max n 2) p) ∧
    ∀ (dtype : DigestType) (N : Int), 0 < N → N ≤ 2 ^ 30 →
      ∃ d, diaryCreate dtype N = some (some d) ∧ d.NMax = d.N ∧
        IsLeastPow2Ge (max N 2) d.N := by
  refine ⟨ceilPowerOf2_least, fun dtype N h0 hN => ?_⟩
  obtain ⟨d, hd, -, hmax, hleast, -⟩ := diaryCreate_spec dtype h0 hN
  exact ⟨d, hd, hmax, hleast⟩

theorem ceilPowerOf2_diaryCreate_sound_at_five :
    ((5 : Int) ≤ 2 ^ 30 ∧ ∃ p, ceilPowerOf2 5 = some p ∧ IsLeastPow2Ge (max 5 2) p) ∧
    ((0 : Int) < 5 ∧ (5 : Int) ≤ 2 ^ 30 ∧
      ∃ d, diaryCreate .sha256 5 = some (some d) ∧ d.NMax = d.N ∧
        IsLeastPow2Ge (max 5 2) d.N) :=
  ⟨⟨by decide, ceilPowerOf2_diaryCreate_sound.1 5 (by decide)⟩,
    ⟨by decide, by decide,
      ceilPowerOf2_diaryCreate_sound.2 .sha256 5 (by decide) (by decide)⟩⟩

/-- Above `2^30` the smeared `N - 1` is `2^31 - 1` and the increment overflows: a size that
`diary_create` accepts (`N > 0`) has no defined capacity. -/
theorem h2PushDiaryCreate_overflow :
    (0 : Int) < 2 ^ 30 + 1 ∧ ceilPowerOf2 (2 ^ 30 + 1) = none ∧
      h2PushDiaryCreate (2 ^ 30 + 1) = none := by
  have hc : ceilPowerOf2 (2 ^ 30 + 1) = none := by decide
  refine ⟨by decide, hc, ?_⟩
  unfold h2PushDiaryCreate diaryCreate
  rw [if_pos (by decide)]
  split
  · rfl
  · rename_i h; rw [hc] at h; cases h

/-- The loop of `h2_push_diary_find`, from index `i - 1` down to `0`. -/
def findFrom (entries : List UInt64) (hash : UInt64) : Nat → Int
  | 0 => -1
  | i + 1 => if entries[i]? = some hash then i else findFrom entries hash i

/-- `h2_push_diary_find`: the index of the last entry holding `hash`, or `-1`. -/
def h2PushDiaryFind (diary : Diary) (hash : UInt64) : Int :=
  findFrom diary.entries hash diary.entries.length

/-- `move_to_last`: the entry at `idx` moves to the end, the ones after it move down. -/
def moveToLast (diary : Diary) (idx : Nat) : Diary :=
  if diary.entries.length ≤ 0 then diary
  else if h : idx < diary.entries.length - 1 then
    { diary with
      entries := diary.entries.take idx ++ diary.entries.drop (idx + 1) ++ [diary.entries[idx]] }
  else diary

/-- `remove_first`: drops entry `0`, unless it is the only one (`lastidx > 0`). -/
def removeFirst (diary : Diary) : Diary :=
  if 0 < (diary.entries.length : Int) - 1 then { diary with entries := diary.entries.drop 1 }
  else diary

@[simp] theorem removeFirst_N (diary : Diary) : (removeFirst diary).N = diary.N := by
  unfold removeFirst; split <;> rfl

theorem removeFirst_entries_of_two_le {diary : Diary} (h : 2 ≤ diary.entries.length) :
    (removeFirst diary).entries = diary.entries.tail := by
  rw [removeFirst, if_pos (by omega), List.drop_one]

/-- **The two `memmove`s.** On a non-empty entry array, `move_to_last` at any index moves
that entry to the end and keeps the others in order, with `nelts` and every other field
unchanged (at the last index there is nothing to move). `remove_first` drops entry `0` and
decrements `nelts` when there are at least two entries, and leaves a one-entry array alone:
`lastidx = 0` fails its guard. -/
theorem moveToLast_removeFirst_eq (diary : Diary) (hn : 1 ≤ diary.entries.length) :
    (∀ idx (h : idx < diary.entries.length),
      moveToLast diary idx = { diary with
        entries := diary.entries.take idx ++ diary.entries.drop (idx + 1) ++
          [diary.entries[idx]] } ∧
      (moveToLast diary idx).entries.length = diary.entries.length) ∧
    (2 ≤ diary.entries.length →
      removeFirst diary = { diary with entries := diary.entries.drop 1 } ∧
      (removeFirst diary).entries.length = diary.entries.length - 1) ∧
    (diary.entries.length = 1 → removeFirst diary = diary) := by
  refine ⟨fun idx h => ?_, fun h2 => ?_, fun h1 => ?_⟩
  · rw [moveToLast, if_neg (by omega)]
    split
    · exact ⟨rfl, by simp; omega⟩
    · -- `idx` is the last index: the array is already in the claimed order
      have hdrop : diary.entries.drop (idx + 1) = [] := List.drop_eq_nil_of_le (by omega)
      have hsame : diary.entries.take idx ++ diary.entries.drop (idx + 1) ++
          [diary.entries[idx]] = diary.entries := by
        rw [hdrop, List.append_nil, ← hdrop, ← List.drop_eq_getElem_cons h,
          List.take_append_drop]
      exact ⟨by rw [hsame], rfl⟩
  · rw [removeFirst, if_pos (by omega)]
    exact ⟨rfl, List.length_drop _ _⟩
  · rw [removeFirst, if_neg (by omega)]

theorem moveToLast_removeFirst_eq_three :
    let diary : Diary := ⟨[7, 9, 11], 4, 4, 64, none, .sha256, by decide⟩
    1 ≤ diary.entries.length ∧
    (∀ idx (h : idx < diary.entries.length),
      moveToLast diary idx = { diary with
        entries := diary.entries.take idx ++ diary.entries.drop (idx + 1) ++
          [diary.entries[idx]] } ∧
      (moveToLast diary idx).entries.length = diary.entries.length) ∧
    (2 ≤ diary.entries.length →
      removeFirst diary = { diary with entries := diary.entries.drop 1 } ∧
      (removeFirst diary).entries.length = diary.entries.length - 1) ∧
    (diary.entries.length = 1 → removeFirst diary = diary) :=
  ⟨by decide, moveToLast_removeFirst_eq _ (by decide)⟩

/-- A one-entry array: `remove_first` keeps its entry, so the result is not `l[1..1) = []`
and `nelts` stays `1`. -/
theorem removeFirst_keeps_single_entry :
    let diary : Diary := ⟨[7], 2, 2, 64, none, .sha256, le_refl 2⟩
    1 ≤ diary.entries.length ∧ (removeFirst diary).entries = [7] ∧
      (removeFirst diary).entries ≠ diary.entries.drop 1 ∧
      (removeFirst diary).entries.length ≠ diary.entries.length - 1 := by
  decide

/-- The eviction loop of `h2_push_diary_append`: `while (nelts >= N) remove_first(diary)`. -/
def evict (diary : Diary) : Diary :=
  if diary.N ≤ diary.entries.length then evict (removeFirst diary) else diary
termination_by diary.entries.length
decreasing_by
  have := diary.two_le_N
  rw [removeFirst_entries_of_two_le (by omega), List.length_tail]
  omega

/-- `h2_push_diary_append`: evict, then append the new hash. -/
def h2PushDiaryAppend (diary : Diary) (hash : UInt64) : Diary :=
  { evict diary with entries := (evict diary).entries ++ [hash] }

/-- One round of the loop of `h2_push_diary_update`: a hash already in the diary moves to
the end and its push is dropped; a new hash is appended and its push kept in `npushes`,
which stays `NULL` until the first kept push. -/
def updateStep (dcalc : Push → UInt64) (acc : Diary × Option (List Push)) (push : Push) :
    Diary × Option (List Push) :=
  let idx := h2PushDiaryFind acc.1 (dcalc push)
  if 0 ≤ idx then (moveToLast acc.1 idx.toNat, acc.2)
  else (h2PushDiaryAppend acc.1 (dcalc push), some (acc.2.getD [] ++ [push]))

/-- `h2_push_diary_update`: with a diary and a push list, the pushes not seen before, and
the updated diary; otherwise the list unchanged. -/
def h2PushDiaryUpdate (dcalc : Push → UInt64) :
    Option Diary → Option (List Push) → Option Diary × Option (List Push)
  | some diary, some pushes =>
    let r := pushes.foldl (updateStep dcalc) (diary, none)
    (some r.1, r.2)
  | diary, pushes => (diary, pushes)

/-! ## §1 — what each operation does to the entry list -/

@[simp] theorem moveToLast_N (diary : Diary) (idx : Nat) : (moveToLast diary idx).N = diary.N := by
  unfold moveToLast; split <;> [rfl; split <;> rfl]

theorem evict_eq (diary : Diary) :
    evict diary =
      if diary.N ≤ diary.entries.length then evict (removeFirst diary) else diary := by
  rw [evict]

@[simp] theorem evict_N (diary : Diary) : (evict diary).N = diary.N := by
  induction diary using evict.induct with
  | case1 d h ih => rw [evict_eq, if_pos h, ih, removeFirst_N]
  | case2 d h => rw [evict_eq, if_neg h]

/-- From at most `N` entries, the loop runs at most once: at capacity it drops the head. -/
theorem evict_entries {diary : Diary} (h : diary.entries.length ≤ diary.N) :
    (evict diary).entries =
      if diary.N ≤ diary.entries.length then diary.entries.tail else diary.entries := by
  have := diary.two_le_N
  by_cases hc : diary.N ≤ diary.entries.length
  · rw [evict_eq, if_pos hc, if_pos hc, evict_eq, if_neg, removeFirst_entries_of_two_le (by omega)]
    rw [removeFirst_N, removeFirst_entries_of_two_le (by omega), List.length_tail]
    omega
  · rw [evict_eq, if_neg hc, if_neg hc]

@[simp] theorem h2PushDiaryAppend_N (diary : Diary) (hash : UInt64) :
    (h2PushDiaryAppend diary hash).N = diary.N := evict_N diary

/-! The frame of the entry operations: each one changes the entry array and nothing else of
the diary, so `mask_bits`, the capacity and the authority stay as `diary_create` set them. -/

theorem moveToLast_with (diary : Diary) (idx : Nat) :
    ∃ l, moveToLast diary idx = { diary with entries := l } := by
  unfold moveToLast
  split
  · exact ⟨_, rfl⟩
  · split <;> exact ⟨_, rfl⟩

theorem removeFirst_with (diary : Diary) : ∃ l, removeFirst diary = { diary with entries := l } := by
  unfold removeFirst
  split <;> exact ⟨_, rfl⟩

theorem evict_with (diary : Diary) : ∃ l, evict diary = { diary with entries := l } := by
  induction diary using evict.induct with
  | case1 d h ih =>
    obtain ⟨l, hl⟩ := ih
    obtain ⟨l', hl'⟩ := removeFirst_with d
    exact ⟨l, by rw [evict_eq, if_pos h, hl, hl']⟩
  | case2 d h => exact ⟨d.entries, by rw [evict_eq, if_neg h]⟩

theorem updateStep_with (dcalc : Push → UInt64) (acc : Diary × Option (List Push)) (p : Push) :
    ∃ l, (updateStep dcalc acc p).1 = { acc.1 with entries := l } := by
  unfold updateStep
  dsimp only
  split
  · exact moveToLast_with _ _
  · obtain ⟨l, hl⟩ := evict_with acc.1
    exact ⟨_, by rw [h2PushDiaryAppend, hl]⟩

theorem foldl_updateStep_with (dcalc : Push → UInt64) :
    ∀ (ps : List Push) (acc : Diary × Option (List Push)),
      ∃ l, (ps.foldl (updateStep dcalc) acc).1 = { acc.1 with entries := l }
  | [], acc => ⟨acc.1.entries, rfl⟩
  | p :: ps, acc => by
    obtain ⟨l, hl⟩ := foldl_updateStep_with dcalc ps (updateStep dcalc acc p)
    obtain ⟨l', hl'⟩ := updateStep_with dcalc acc p
    exact ⟨l, by rw [List.foldl_cons, hl, hl']⟩

/-- `h2_push_diary_update` changes only the entry array of the diary. -/
theorem h2PushDiaryUpdate_with (dcalc : Push → UInt64) (diary : Diary)
    (pushes : Option (List Push)) :
    ∃ l, (h2PushDiaryUpdate dcalc (some diary) pushes).1 = some { diary with entries := l } := by
  cases pushes with
  | none => exact ⟨diary.entries, rfl⟩
  | some ps =>
    obtain ⟨l, hl⟩ := foldl_updateStep_with dcalc ps (diary, none)
    exact ⟨l, by simp only [h2PushDiaryUpdate, hl]⟩

/-- **`h2_push_diary_find` on distinct entries.** It finds the one entry holding the
hash, searching from the end, or reports `-1`. -/
theorem findFrom_eq {entries : List UInt64} (hnd : entries.Nodup) (hash : UInt64) :
    ∀ n, n ≤ entries.length →
      findFrom entries hash n =
        if entries.indexOf hash < n then (entries.indexOf hash : Int) else -1
  | 0, _ => by simp [findFrom]
  | n + 1, hn => by
    rw [findFrom]
    by_cases hget : entries[n]? = some hash
    · obtain ⟨hlt, heq⟩ := List.getElem?_eq_some_iff.mp hget
      have : entries.indexOf hash = n := by
        rw [← heq, List.indexOf_getElem hnd]
      simp [hget, this]
    · rw [if_neg hget, findFrom_eq hnd hash n (by omega)]
      have : entries.indexOf hash ≠ n := by
        intro hidx
        have hmem : hash ∈ entries := List.indexOf_lt_length.mp (by omega)
        apply hget
        have hg := List.getElem_indexOf (List.indexOf_lt_length.mpr hmem)
        rw [List.getElem?_eq_some_iff]
        exact ⟨by omega, by simpa [hidx] using hg⟩
      by_cases hlt : entries.indexOf hash < n
      · simp [hlt, show entries.indexOf hash < n + 1 by omega]
      · simp [hlt, show ¬ entries.indexOf hash < n + 1 by omega]

theorem h2PushDiaryFind_eq {diary : Diary} (hnd : diary.entries.Nodup) (hash : UInt64) :
    h2PushDiaryFind diary hash =
      if hash ∈ diary.entries then (diary.entries.indexOf hash : Int) else -1 := by
  rw [h2PushDiaryFind, findFrom_eq hnd hash _ le_rfl]
  simp only [List.indexOf_lt_length]

/-- `move_to_last` at the index of a present hash: the hash leaves its place for the end. -/
theorem moveToLast_indexOf {diary : Diary} (hnd : diary.entries.Nodup) {hash : UInt64}
    (hmem : hash ∈ diary.entries) :
    (moveToLast diary (diary.entries.indexOf hash)).entries =
      diary.entries.erase hash ++ [hash] := by
  have hlt := List.indexOf_lt_length.mpr hmem
  have hget := List.getElem_indexOf hlt
  have herase : diary.entries.erase hash =
      diary.entries.take (diary.entries.indexOf hash) ++
        diary.entries.drop (diary.entries.indexOf hash + 1) := by
    conv_lhs => rw [← hget]
    rw [List.Nodup.erase_getElem hnd, List.eraseIdx_eq_take_drop_succ]
  rw [herase, moveToLast, if_neg (by omega)]
  split
  · simp [hget]
  · have hlast : diary.entries.indexOf hash + 1 = diary.entries.length := by omega
    rw [hlast, List.drop_length, List.append_nil]
    conv_lhs => rw [← List.take_append_drop (diary.entries.indexOf hash) diary.entries]
    congr 1
    rw [List.drop_eq_getElem_cons hlt, hget, List.drop_eq_nil_of_le (by omega)]

end H2
