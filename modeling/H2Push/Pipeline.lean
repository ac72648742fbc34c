import H2Push.Collect
import H2Push.DiaryLru

/-!
# H2Push — from a response to the pushes of a stream

`h2_push_collect_update` is the whole pipeline of this file: the push candidates that
`h2_push_collect` finds in a response's `Link` headers go through the session's diary,
`h2_push_diary_update`, which drops those whose resources the client was already sent.

`h2PushCollectUpdate_refines` puts the two halves together: for a diary that refines the
abstract LRU set, the pushes the stream makes are what the abstract set keeps of the
collected candidates, and the diary afterwards refines the set afterwards; no push is made
that `add_push` did not build from the response.
-/

namespace H2

/-- `h2_push_collect_update`: the pushes a stream makes for a response, the session's
diary after them, and the response headers. -/
def h2PushCollectUpdate (env : Env) (dcalc : Push → UInt64) (diary : Option Diary)
    (req : Option Request) (policy : PushPolicy) (res : Option Table) :
    Option (Option Diary × Option (List Push) × Option Table) := do
  let (pushes, res) ← h2PushCollect env req policy res
  let (diary, pushes) := h2PushDiaryUpdate dcalc diary pushes
  pure (diary, pushes, res)

/-- The abstract fold keeps a sublist of its candidates. -/
theorem foldl_lruKeep_sublist (N : Nat) (dcalc : Push → UInt64) :
    ∀ (ps : List Push) (L : List UInt64), (ps.foldl (lruKeep N dcalc) (L, [])).2.Sublist ps
  | [], _ => List.Sublist.slnil
  | p :: ps, L => by
    rw [List.foldl_cons, foldl_lruKeep]
    have := foldl_lruKeep_sublist N dcalc ps (lruKeep N dcalc (L, []) p).1
    simp only [lruKeep, List.nil_append]
    split
    · exact this.cons₂ p
    · exact this.cons p

/-- **The push pipeline.** For a diary that refines the abstract LRU set `L`, a request
and a policy other than `H2_PUSH_NONE`, `h2_push_collect_update` makes exactly the pushes
the abstract set keeps of the candidates `add_push` builds from the response's `Link`
headers, a sublist of them in their order, and leaves a diary that refines the abstract
set after them. -/
theorem h2PushCollectUpdate_refines (env : Env) (dcalc : Push → UInt64) {d : Diary}
    {L : List UInt64} (hd : Refines d L) (req : Request) {policy : PushPolicy}
    (hpol : policy ≠ .none) (hs : Table) :
    let cands := ((hs.filter fun e => env.natEq "link".toList e.1).flatMap
      fun e => (inspectLink e.2).getD []).filterMap (addPush env req policy)
    let r := lruUpdate d.N dcalc L (if cands = [] then none else some cands)
    ∃ d' hs', h2PushCollectUpdate env dcalc (some d) (some req) policy (some hs) =
        some (some d', r.2, hs') ∧ d'.N = d.N ∧ Refines d' r.1 ∧
      ∀ ps, r.2 = some ps → ps.Sublist cands := by
  intro cands r
  have hcol : h2PushCollect env (some req) policy (some hs) =
      some (if cands = [] then (none, some hs)
        else (some cands, some (tableSetn hs "push-policy".toList (policyStr policy)))) :=
    h2PushCollect_eq env req hpol hs
  clear_value cands
  obtain ⟨d', hd', hN, hr, hout⟩ :=
    h2PushDiaryUpdate_refines dcalc hd (if cands = [] then none else some cands)
  by_cases hc : cands = []
  · simp only [hc, if_true] at hcol hd' hout
    refine ⟨d', some hs, by simp [h2PushCollectUpdate, hcol, hd', hout, r, hc], hN, hr, ?_⟩
    simp [r, hc, lruUpdate]
  · simp only [hc, if_false] at hcol hd' hout
    refine ⟨d', some (tableSetn hs "push-policy".toList (policyStr policy)),
      by simp [h2PushCollectUpdate, hcol, hd', hout, r, hc], hN, hr, fun ps hps => ?_⟩
    -- the kept pushes are the abstract fold's, a sublist of the candidates
    simp only [r, hc, if_false, lruUpdate] at hps
    split at hps
    · cases hps
    · cases hps
      exact foldl_lruKeep_sublist _ _ cands L

/-- A fresh diary of capacity 4 and one `Link` header with one `preload` link-value. -/
theorem h2PushCollectUpdate_refines_one_link :
    let env : Env := ⟨(· == ·), fun s => some ⟨none, none, some s, none, none⟩,
      fun u => u.path.getD [], id⟩
    let d : Diary := ⟨[], 4, 4, 64, none, .sha256, by decide⟩
    let req : Request := ⟨"GET".toList, "https".toList, "example.org".toList, "/".toList, []⟩
    let hs : Table := [("link".toList, "</a.css>;rel=preload".toList)]
    Refines d [] ∧ PushPolicy.default ≠ .none ∧
    let cands := ((hs.filter fun e => env.natEq "link".toList e.1).flatMap
      fun e => (inspectLink e.2).getD []).filterMap (addPush env req .default)
    let r := lruUpdate d.N (fun _ => 0) [] (if cands = [] then none else some cands)
    ∃ d' hs', h2PushCollectUpdate env (fun _ => 0) (some d) (some req) .default (some hs) =
        some (some d', r.2, hs') ∧ d'.N = d.N ∧ Refines d' r.1 ∧
      ∀ ps, r.2 = some ps → ps.Sublist cands :=
  ⟨⟨rfl, List.nodup_nil, by decide⟩, by decide,
    h2PushCollectUpdate_refines _ _ ⟨rfl, List.nodup_nil, by decide⟩ _ (by decide) _⟩

end H2
