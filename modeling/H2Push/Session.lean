import H2Push.Pipeline
import H2Push.DiaryHistory
import H2Push.Digest

/-!
# H2Push — a session: responses in, pushes and a cache digest out

A session answers its streams' responses one after the other; for each, the stream calls
`h2_push_collect_update` on the session's one diary (`sessionRun`). A client learns what
the diary holds from `h2_push_diary_digest_get`. This module states both ends over any
sequence of responses, in terms of the `Link` candidates alone:

* `h2PushCollectUpdate_collected`, `sessionRun_eq_diaryRun`: a session is the diary run on
  what `h2_push_collect` returns for each response (`collected`);
* `sessionRun_history`: each response's pushes are the candidates whose hash is outside
  the window of every candidate seen before in the session;
* `sessionDigest_history`: after any sequence of responses, the digest of a diary made by
  `h2_push_diary_create`, when its code fits in the first buffer, is the Golomb-coded set of
  the top bits of exactly the hashes whose reuse distance in the session is below the
  diary's capacity.
-/

namespace H2

/-- The push candidates `add_push` builds from the link-values of a response's `Link`
headers, in the order `head_iter` and `inspect_link` visit them. -/
def linkCandidates (env : Env) (req : Request) (policy : PushPolicy) (hs : Table) :
    List Push :=
  ((hs.filter fun e => env.natEq "link".toList e.1).flatMap
    fun e => (inspectLink e.2).getD []).filterMap (addPush env req policy)

/-- The push list `h2_push_collect` returns for a response: `NULL` under `H2_PUSH_NONE` or
when there is no candidate. -/
def collected (env : Env) (req : Request) (policy : PushPolicy) (hs : Table) :
    Option (List Push) :=
  if policy = .none then none
  else if linkCandidates env req policy hs = [] then none
  else some (linkCandidates env req policy hs)

/-- A session's streams, each with its request, push policy and response headers, answered
in order by `h2_push_collect_update` on the session's diary: the diary at the end, and each
stream's pushes. -/
def sessionRun (env : Env) (dcalc : Push → UInt64) :
    Option Diary → List (Request × PushPolicy × Table) →
      Option (Option Diary × List (Option (List Push)))
  | d, [] => some (d, [])
  | d, (req, policy, hs) :: rs => do
    let (d, pushes, _) ← h2PushCollectUpdate env dcalc d (some req) policy (some hs)
    let (d, out) ← sessionRun env dcalc d rs
    pure (d, pushes :: out)

/-- What each stream of the session hands to the diary. -/
def sessionCalls (env : Env) (rs : List (Request × PushPolicy × Table)) :
    List (Option (List Push)) :=
  rs.map fun r => collected env r.1 r.2.1 r.2.2

/-! ## §1 — a session is a diary run -/

/-- `h2_push_collect_update` is the diary update on what `h2_push_collect` returns. -/
theorem h2PushCollectUpdate_collected (env : Env) (dcalc : Push → UInt64) (d : Option Diary)
    (req : Request) (policy : PushPolicy) (hs : Table) :
    ∃ hs', h2PushCollectUpdate env dcalc d (some req) policy (some hs) =
      some ((h2PushDiaryUpdate dcalc d (collected env req policy hs)).1,
        (h2PushDiaryUpdate dcalc d (collected env req policy hs)).2, hs') := by
  by_cases hpol : policy = .none
  · subst hpol
    exact ⟨some hs, rfl⟩
  · have hcol := h2PushCollect_eq env req hpol hs
    dsimp only at hcol
    unfold collected linkCandidates
    split_ifs at hcol ⊢ <;> exact ⟨_, by rw [h2PushCollectUpdate, hcol]; rfl⟩

theorem sessionRun_eq_diaryRun (env : Env) (dcalc : Push → UInt64) :
    ∀ (rs : List (Request × PushPolicy × Table)) (d : Option Diary),
      sessionRun env dcalc d rs = some (diaryRun dcalc d (sessionCalls env rs))
  | [], _ => rfl
  | (req, policy, hs) :: rs, d => by
    obtain ⟨hs', h⟩ := h2PushCollectUpdate_collected env dcalc d req policy hs
    simp [sessionRun, sessionCalls, diaryRun, h, sessionRun_eq_diaryRun env dcalc rs]

/-! ## §2 — the pushes of a session -/

/-- **The pushes of a session.** From a diary holding a set `L` it can hold, over any
sequence of responses, each response's pushes are exactly the `Link` candidates whose hash
is outside the window of the candidates seen before them in the session (`mem_window_iff`:
whose hash was not a candidate among the last `N` distinct ones), and the session ends on
the window of `L` and every candidate's hash. -/
theorem sessionRun_history (env : Env) (dcalc : Push → UInt64) {d : Diary} {L : List UInt64}
    (h : Refines d L) (rs : List (Request × PushPolicy × Table)) :
    ∃ d', sessionRun env dcalc (some d) rs =
        some (some d', historyRun d.N dcalc L (sessionCalls env rs)) ∧
      d'.entries = window d.N (L ++ runHashes dcalc (sessionCalls env rs)) := by
  obtain ⟨d', hd', he, hout⟩ := diaryRun_window dcalc h (sessionCalls env rs)
  refine ⟨d', ?_, he⟩
  rw [sessionRun_eq_diaryRun, ← hout, ← hd']

/-- A diary of capacity 2 holding `[3]`, and one response with no `Link` header. -/
theorem sessionRun_history_no_link :
    let env : Env := ⟨(· == ·), fun s => some ⟨none, none, some s, none, none⟩,
      fun u => u.path.getD [], id⟩
    let d : Diary := ⟨[3], 2, 2, 64, none, .sha256, by decide⟩
    let req : Request := ⟨"GET".toList, "https".toList, "a".toList, "/".toList, []⟩
    let rs := [(req, PushPolicy.default, ([] : Table))]
    Refines d [3] ∧
    ∃ d', sessionRun env (fun _ => 3) (some d) rs =
        some (some d', historyRun d.N (fun _ => 3) [3] (sessionCalls env rs)) ∧
      d'.entries = window d.N ([3] ++ runHashes (fun _ => 3) (sessionCalls env rs)) :=
  ⟨⟨rfl, by decide, by decide⟩, sessionRun_history _ _ ⟨rfl, by decide, by decide⟩ _⟩

/-! ## §3 — the cache digest of a session -/

theorem diaryCreate_authority {dtype : DigestType} {N : Int} {d : Diary}
    (h : diaryCreate dtype N = some (some d)) : d.authority = none := by
  unfold diaryCreate at h
  split_ifs at h
  · split at h
    · cases h
    · cases h; rfl
  · cases h

theorem authorityMatches_none (authority : Option (List Char)) :
    authorityMatches none authority = true := by
  cases authority <;> rfl

/-- **The cache digest of a session.** A diary made by `h2_push_diary_create N` with
`0 < N ≤ 2^30`, after any sequence of responses, for any `maxP ≤ 2^30`, any authority and
any answers of the pool: the digest's header holds the exponents `k` and `j` of the rounded
entry count and `maxP`. When the diary's capacity `d.N` and `j` keep the code within the
first buffer (`d.N * (j + 2) ≤ 4080`: at most `d.N` values of `j + 1` bits and unary parts
below `2^k ≤ d.N`), the digest succeeds, and its bytes are the Golomb-coded set of strictly
ascending values that the format's reader reads back. These values are the top `k + j`
bits of exactly the hashes that were candidates in the session with fewer than `N`
distinct candidate hashes after their last candidacy: no resource the diary still
suppresses is missing from the digest, and no other one is in it. -/
theorem sessionDigest_history (env : Env) (dcalc : Push → UInt64) {N maxP : Int} (h0 : 0 < N)
    (hN : N ≤ 2 ^ 30) (hP : maxP ≤ 2 ^ 30) :
    ∃ d, h2PushDiaryCreate N = some (some d) ∧
      ∀ (rs : List (Request × PushPolicy × Table)) (authority : Option (List Char))
        (pool : List Bool),
        ∃ d' out, sessionRun env dcalc (some d) rs = some (some d', out) ∧
          ∃ k j, ceilPowerOf2 d'.entries.length = some (2 ^ k) ∧
            ceilPowerOf2 maxP = some (2 ^ j) ∧
            (d.N * (j + 2) ≤ 4080 →
              ∃ r, h2PushDiaryDigestGet d' pool maxP authority = some r ∧ r.status = .success ∧
                ∃ vs : List Nat, vs.Sorted (· < ·) ∧ IsGolombSet k j vs (r.data.take r.plen) ∧
                  gcsDecode j (streamBits ((r.data.take r.plen).drop 2)) = vs ∧
                  ∀ x, x ∈ vs ↔ ∃ h, (∃ A B, runHashes dcalc (sessionCalls env rs) =
                    A ++ h :: B ∧ h ∉ B ∧ B.dedup.length < d.N) ∧
                    x = h.toNat >>> (64 - k - j)) := by
  obtain ⟨d, hd, hempty, -, ⟨⟨c, hc⟩, -, hleast⟩, hmask⟩ := diaryCreate_spec .sha256 h0 hN
  have hdN : (d.N : Int) ≤ 2 ^ 30 := hleast 30 (by omega)
  refine ⟨d, hd, fun rs authority pool => ?_⟩
  obtain ⟨d', hd', he, -⟩ :=
    diaryRun_window dcalc ⟨hempty, List.nodup_nil, by simp⟩ (sessionCalls env rs)
  obtain ⟨l, hl⟩ := diaryRun_with dcalc (sessionCalls env rs) d
  obtain rfl : d' = { d with entries := l } := Option.some.inj (hd'.symm.trans hl)
  have he : l = window d.N ([] ++ runHashes dcalc (sessionCalls env rs)) := he
  have hlenN : l.length ≤ d.N := by rw [he]; exact length_window_le _ _
  have hlen : (l.length : Int) ≤ 2 ^ 30 := by omega
  obtain ⟨k, hk, hk1, hk30⟩ := ceilPowerOf2_eq_two_pow hlen
  obtain ⟨j, hj, -, hj30⟩ := ceilPowerOf2_eq_two_pow hP
  refine ⟨_, _, by rw [sessionRun_eq_diaryRun, ← hd'], k, j, hk, hj, fun hfitN => ?_⟩
  -- the rounded entry count is at most the capacity, itself a power of two
  have hkN : 2 ^ k ≤ d.N := by
    obtain ⟨p, hp, -, -, hpleast⟩ := ceilPowerOf2_least l.length hlen
    obtain rfl : (2 : Int) ^ k = p := Option.some.inj (hk.symm.trans hp)
    have := hpleast c (by have := d.two_le_N; rw [← hc]; omega)
    rw [← hc] at this
    exact_mod_cast this
  have hauth : authorityMatches { d with entries := l }.authority authority = true := by
    show authorityMatches d.authority authority = true
    rw [diaryCreate_authority hd]
    exact authorityMatches_none authority
  -- at most `d.N` values of `j + 1` bits, and unary parts below `2^k`
  have hfit : (riceCodes j 0 (((sortedHashes l (64 - k - j)).destutter (· ≠ ·)).map
      UInt64.toNat)).length ≤ 4080 := by
    have hB := length_digestCodes_le l hk1 (show k + j ≤ 64 by omega)
    have hmul := Nat.mul_le_mul_right (j + 1) hlenN
    have hsplit : d.N * (j + 2) = d.N * (j + 1) + d.N := by rw [Nat.mul_succ]
    generalize 2 ^ k = K at hB hkN
    omega
  obtain ⟨r, hr, hst, hgs, -, hdec⟩ := digestGet_golombSet_of_fit { d with entries := l } hmask hk
    hk1 hk30 hj hj30 hauth pool rfl hfit
  refine ⟨r, hr, hst, _, sorted_destutter_toNat (List.sorted_insertionSort _ _), hgs, hdec,
    fun x => (mem_shifted_iff l (by omega) x).trans ?_⟩
  simp only [he, List.nil_append, mem_window_iff]

/-- A diary made for 4 entries and `maxP = 1`, under any sequence of responses. -/
theorem sessionDigest_history_four :
    let env : Env := ⟨(· == ·), fun s => some ⟨none, none, some s, none, none⟩,
      fun u => u.path.getD [], id⟩
    (0 : Int) < 4 ∧ (4 : Int) ≤ 2 ^ 30 ∧ (1 : Int) ≤ 2 ^ 30 ∧
    ∃ d, h2PushDiaryCreate 4 = some (some d) ∧
      ∀ (rs : List (Request × PushPolicy × Table)) (authority : Option (List Char))
        (pool : List Bool),
        ∃ d' out, sessionRun env (fun _ => 0) (some d) rs = some (some d', out) ∧
          ∃ k j, ceilPowerOf2 d'.entries.length = some (2 ^ k) ∧
            ceilPowerOf2 1 = some (2 ^ j) ∧
            (d.N * (j + 2) ≤ 4080 →
              ∃ r, h2PushDiaryDigestGet d' pool 1 authority = some r ∧ r.status = .success ∧
                ∃ vs : List Nat, vs.Sorted (· < ·) ∧ IsGolombSet k j vs (r.data.take r.plen) ∧
                  gcsDecode j (streamBits ((r.data.take r.plen).drop 2)) = vs ∧
                  ∀ x, x ∈ vs ↔ ∃ h, (∃ A B, runHashes (fun _ => 0) (sessionCalls env rs) =
                    A ++ h :: B ∧ h ∉ B ∧ B.dedup.length < d.N) ∧
                    x = h.toNat >>> (64 - k - j)) :=
  ⟨by decide, by decide, by decide,
    sessionDigest_history _ _ (by decide) (by decide) (by decide)⟩

end H2
