import H2Push.LinkParser

/-!
# H2Push — push candidates from the `Link` headers of a response

`h2_push_collect` walks the response headers with `apr_table_do(head_iter, ...)`. Every
`Link` header goes through `inspect_link`, which hands each link-value to `add_push`; a
link-value becomes a push candidate when its `rel` names `preload`, it has no `nopush`
parameter, and its target parses to a URI of the request's own origin. The candidate is a
`GET` (a `HEAD` under `H2_PUSH_HEAD`) for the target's path, carrying the allow-listed
headers of the original request. When there is a candidate the response is marked with a
`push-policy` header.

The functions `h2_push.c` calls from APR and from `h2_request.c` are parameters (`Env`):
every statement here holds whatever they compute.

* `hasRelation_sound` — when `has_relation(ctx, rel)` says yes, `rel` (a word without
  blanks) is one of the space-separated tokens of the `rel` value. The converse fails:
  `has_relation` looks only at the first occurrence of `rel` in the value
  (`hasRelation_misses_later_token`).
* `h2PushCollect_pushes` — what `h2_push_collect` returns, and what every candidate is.
-/

namespace H2

/-! ## §1 — the model -/

/-- `ap_strstr_c(hay, needle)`: the index of the first place `needle` occurs in `hay`. -/
def apStrstrC (hay needle : List Char) : Option Nat :=
  if needle.isPrefixOf hay then some 0
  else
    match hay with
    | [] => none
    | _ :: t => (apStrstrC t needle).map (· + 1)

/-- `has_relation(ctx, rel)`: the `rel` parameter is `rel`, or its first occurrence of `rel`
has a blank or an end of the value on both sides. -/
def hasRelation (params : Table) (rel : List Char) : Bool :=
  match tableGet params "rel".toList with
  | none => false
  | some val =>
    rel == val ||
      match apStrstrC val rel with
      | none => false
      | some k =>
        (k == 0 || val[k - 1]? == some ' ') &&
          match val[k + rel.length]? with
          | none => true
          | some c => c == ' '

/-- `has_param(ctx, param)`. -/
def hasParam (params : Table) (name : List Char) : Bool := (tableGet params name).isSome

/-- The fields of an `apr_uri_t` that `add_push` reads or hands on; `NULL` is `none`. -/
structure Uri where
  scheme : Option (List Char)
  hostinfo : Option (List Char)
  path : Option (List Char)
  query : Option (List Char)
  fragment : Option (List Char)
  deriving DecidableEq, Repr

/-- What `h2_push.c` calls outside this file. -/
structure Env where
  /-- `apr_strnatcasecmp(a, b) == 0`. -/
  natEq : List Char → List Char → Bool
  /-- `apr_uri_parse`: the URI, when it returns `APR_SUCCESS`. -/
  uriParse : List Char → Option Uri
  /-- `apr_uri_unparse(pool, uri, APR_URI_UNP_OMITSITEPART)`. -/
  uriUnparse : Uri → List Char
  /-- `h2_request_end_headers(req, pool, 1, 0)`. -/
  endHeaders : Request → Request

/-- `same_authority`: a scheme or a hostinfo the URI names is the request's. -/
def sameAuthority (req : Request) (uri : Uri) : Bool :=
  uri.scheme.all (· == req.scheme) && uri.hostinfo.all (· == req.authority)

/-- The header names `set_push_header` copies. -/
def pushHeaderNames : List (List Char) :=
  ["User-Agent", "Accept", "Accept-Encoding", "Accept-Language", "Cache-Control"].map
    String.toList

/-- `H2_HD_MATCH_LIT(l, name, nlen)`: `name` has the length of the literal, and
`apr_strnatcasecmp` finds them equal. -/
def hdMatchLit (env : Env) (l name : List Char) : Bool :=
  name.length == l.length && env.natEq l name

/-- `set_push_header`: an allow-listed header is set into the push's table. -/
def setPushHeader (env : Env) (t : Table) (key value : List Char) : Table :=
  if pushHeaderNames.any (hdMatchLit env · key) then tableSetn t key value else t

/-- `apr_table_do(set_push_header, headers, req->headers, NULL)` on a fresh table. -/
def pushHeaders (env : Env) (hs : Table) : Table :=
  hs.foldl (fun t e => setPushHeader env t e.1 e.2) []

/-- The method of a push: `HEAD` under `H2_PUSH_HEAD`, `GET` otherwise. -/
def pushMethod : PushPolicy → List Char
  | .head => "HEAD".toList
  | _ => "GET".toList

/-- `add_push`: the push candidate a link-value makes, if any. -/
def addPush (env : Env) (req : Request) (policy : PushPolicy) (v : LinkValue) : Option Push :=
  if hasRelation v.params "preload".toList && !hasParam v.params "nopush".toList then
    match env.uriParse v.link with
    | none => none
    | some uri =>
      if uri.path.isSome && sameAuthority req uri then
        some ⟨env.endHeaders ⟨pushMethod policy, req.scheme, req.authority, env.uriUnparse uri,
            pushHeaders env req.headers⟩,
          if hasParam v.params "critical".toList then some .before else none⟩
      else none
  else none

/-- `apr_table_do(head_iter, &ctx, res->headers, NULL)`: the link-values of every `Link`
header, in the order the headers and then `inspect_link` visit them. -/
def headIter (env : Env) : Table → Option (List LinkValue)
  | [] => some []
  | (key, value) :: hs => do
    let vs ← if env.natEq "link".toList key then inspectLink value else pure []
    let rest ← headIter env hs
    pure (vs ++ rest)

/-- `h2_push_collect`: the push candidates (`none` for `NULL`) and the response headers
after it. -/
def h2PushCollect (env : Env) (req : Option Request) (policy : PushPolicy)
    (resHeaders : Option Table) : Option (Option (List Push) × Option Table) :=
  match req, resHeaders with
  | some req, some hs =>
    if policy = .none then pure (none, some hs)
    else do
      let pushes := (← headIter env hs).filterMap (addPush env req policy)
      if pushes = [] then pure (none, some hs)
      else pure (some pushes, some (tableSetn hs "push-policy".toList (policyStr policy)))
  | _, _ => pure (none, resHeaders)

/-! ## §2 — `has_relation` -/

theorem apStrstrC_prefix {needle : List Char} :
    ∀ {hay : List Char} {k : Nat}, apStrstrC hay needle = some k → needle <+: hay.drop k
  | hay, k, h => by
    unfold apStrstrC at h
    split at h
    · rename_i hp
      cases h
      simpa using List.isPrefixOf_iff_prefix.mp hp
    · split at h
      · cases h
      · rename_i t _
        obtain ⟨k', hk', rfl⟩ := Option.map_eq_some'.mp h
        simpa using apStrstrC_prefix hk'

theorem splitOnP_append_sep {p : Char → Bool} {sep : Char} (hsep : p sep = true) (C : List Char) :
    ∀ A : List Char, ∃ ys, ys ≠ [] ∧ (A ++ sep :: C).splitOnP p = ys ++ C.splitOnP p
  | [] => ⟨[[]], by simp, by simp [hsep]⟩
  | a :: A => by
    obtain ⟨ys, hys, h⟩ := splitOnP_append_sep hsep C A
    obtain ⟨y, ys, rfl⟩ := List.exists_cons_of_ne_nil hys
    by_cases ha : p a = true
    · exact ⟨[] :: y :: ys, by simp, by simp [ha, h]⟩
    · exact ⟨(a :: y) :: ys, by simp, by simp [ha, h]⟩

theorem mem_splitOn_of_bounded {rel A B : List Char} (hsp : ' ' ∉ rel)
    (hA : A = [] ∨ ∃ A', A = A' ++ [' ']) (hB : B = [] ∨ ∃ B', B = ' ' :: B') :
    rel ∈ (A ++ rel ++ B).splitOn ' ' := by
  have hrel : ∀ x ∈ rel, ¬ (x == ' ') = true := fun x hx e =>
    hsp (by simpa using (beq_iff_eq.mp e) ▸ hx)
  have hhead : rel ∈ (rel ++ B).splitOn ' ' := by
    rcases hB with rfl | ⟨B', rfl⟩
    · simp [List.splitOn, List.splitOnP_eq_single _ _ hrel]
    · simp [List.splitOn, List.splitOnP_first _ _ hrel]
  rcases hA with rfl | ⟨A', rfl⟩
  · simpa using hhead
  · obtain ⟨ys, -, h⟩ := splitOnP_append_sep (p := (· == ' '))
      (by simp : ((' ' : Char) == ' ') = true) (rel ++ B) A'
    simp only [List.splitOn, List.append_assoc, List.singleton_append, List.cons_append,
      List.nil_append] at hhead ⊢
    rw [h]
    exact List.mem_append_right _ hhead

theorem take_of_getElem?_pred {val : List Char} {k : Nat} (hk : k = 0 ∨ val[k - 1]? = some ' ') :
    val.take k = [] ∨ ∃ A', val.take k = A' ++ [' '] := by
  rcases k with _ | k
  · exact Or.inl rfl
  · rcases hk with hk | hk
    · cases hk
    · simp only [Nat.add_sub_cancel] at hk
      exact Or.inr ⟨val.take k, by simp [List.take_succ, hk]⟩

theorem drop_of_getElem? {val : List Char} {n : Nat}
    (h : (match val[n]? with | none => true | some c => c == ' ') = true) :
    val.drop n = [] ∨ ∃ B', val.drop n = ' ' :: B' := by
  split at h
  · rename_i hn
    exact Or.inl (List.drop_eq_nil_of_le (List.getElem?_eq_none_iff.mp hn))
  · rename_i c hc
    obtain ⟨hlt, rfl⟩ := List.getElem?_eq_some_iff.mp hc
    refine Or.inr ⟨val.drop (n + 1), ?_⟩
    rw [List.drop_eq_getElem_cons hlt, beq_iff_eq.mp h]

/-- **`has_relation` is sound.** When it finds `rel`, a word without blanks, then `rel` is
one of the space-separated tokens of the link-value's `rel` parameter. -/
theorem hasRelation_sound {params : Table} {rel : List Char} (hsp : ' ' ∉ rel)
    (h : hasRelation params rel = true) :
    ∃ val, tableGet params "rel".toList = some val ∧ rel ∈ val.splitOn ' ' := by
  unfold hasRelation at h
  split at h
  · cases h
  · rename_i val hval
    refine ⟨val, hval, ?_⟩
    rcases Bool.or_eq_true _ _ ▸ h with he | h
    · simpa [← beq_iff_eq.mp he] using
        mem_splitOn_of_bounded (A := []) (B := []) hsp (Or.inl rfl) (Or.inl rfl)
    · split at h
      · cases h
      · rename_i k hk
        obtain ⟨B', hB'⟩ := apStrstrC_prefix hk
        have hB : val.drop (k + rel.length) = B' := by
          rw [← List.drop_drop, ← hB', List.drop_left]
        have hsplit : val = val.take k ++ rel ++ val.drop (k + rel.length) := by
          rw [hB, List.append_assoc, hB', List.take_append_drop]
        rw [Bool.and_eq_true, Bool.or_eq_true, beq_iff_eq, beq_iff_eq] at h
        rw [hsplit]
        exact mem_splitOn_of_bounded hsp (take_of_getElem?_pred h.1) (drop_of_getElem? h.2)

/-- `has_relation` looks only at the first occurrence of `rel`: in `modulepreload preload`
that one is inside `modulepreload`, and the token `preload` after it is missed. -/
theorem hasRelation_misses_later_token :
    "preload".toList ∈ "modulepreload preload".toList.splitOn ' ' ∧
      hasRelation [("rel".toList, "modulepreload preload".toList)] "preload".toList = false := by
  decide

/-! ## §3 — candidates -/

theorem mem_tableSetn {t : Table} {key val : List Char} {e : List Char × List Char}
    (h : e ∈ tableSetn t key val) :
    ((∃ v, (e.1, v) ∈ t) ∨ e.1 = key) ∧ (e ∈ t ∨ e.2 = val) := by
  induction t with
  | nil => simp_all [tableSetn]
  | cons x t ih =>
    unfold tableSetn at h
    split at h
    · rcases List.mem_cons.mp h with rfl | h
      · exact ⟨Or.inl ⟨x.2, List.mem_cons_self _ _⟩, Or.inr rfl⟩
      · have := (List.mem_filter.mp h).1
        exact ⟨Or.inl ⟨e.2, List.mem_cons_of_mem _ this⟩,
          Or.inl (List.mem_cons_of_mem _ this)⟩
    · rcases List.mem_cons.mp h with rfl | h
      · exact ⟨Or.inl ⟨e.2, List.mem_cons_self _ _⟩, Or.inl (List.mem_cons_self _ _)⟩
      · obtain ⟨h1, h2⟩ := ih h
        refine ⟨h1.imp (fun ⟨v, hv⟩ => ⟨v, List.mem_cons_of_mem _ hv⟩) id,
          h2.imp (List.mem_cons_of_mem _) id⟩

/-- The headers a push carries: every one has an allow-listed name, and its name and its
value come from the original request's headers. -/
theorem mem_pushHeaders (env : Env) (hs : Table) {e : List Char × List Char}
    (h : e ∈ pushHeaders env hs) :
    pushHeaderNames.any (hdMatchLit env · e.1) = true ∧ (∃ v, (e.1, v) ∈ hs) ∧
      ∃ k, (k, e.2) ∈ hs := by
  let P : List Char × List Char → Prop := fun e =>
    pushHeaderNames.any (hdMatchLit env · e.1) = true ∧ (∃ v, (e.1, v) ∈ hs) ∧
      ∃ k, (k, e.2) ∈ hs
  have step : ∀ (xs t : Table), (∀ x ∈ xs, x ∈ hs) → (∀ e ∈ t, P e) →
      ∀ e ∈ xs.foldl (fun t e => setPushHeader env t e.1 e.2) t, P e := by
    intro xs
    induction xs with
    | nil => exact fun t _ ht => ht
    | cons x xs ih =>
      intro t hxs ht
      refine ih _ (fun y hy => hxs y (List.mem_cons_of_mem _ hy)) fun e he => ?_
      have hx := hxs x (List.mem_cons_self _ _)
      dsimp only [setPushHeader] at he
      split at he
      · rename_i hallow
        obtain ⟨hk, hv⟩ := mem_tableSetn he
        have hval : ∃ k, (k, e.2) ∈ hs :=
          hv.elim (fun hv => (ht e hv).2.2) fun hv => ⟨x.1, hv ▸ hx⟩
        rcases hk with ⟨v, hv'⟩ | hk
        · exact ⟨(ht _ hv').1, (ht _ hv').2.1, hval⟩
        · exact ⟨hk ▸ hallow, ⟨x.2, hk ▸ hx⟩, hval⟩
      · exact ht e he
  exact step hs [] (fun _ h => h) (by simp) e h

/-- The loop of `apr_table_do(set_push_header, ...)` from any table: a lookup finds the
value of the last allow-listed header of the loop under that name, else what the table
had. -/
theorem tableGet_foldl_setPushHeader (env : Env) (name : List Char) :
    ∀ (xs t : Table), tableGet (xs.foldl (fun t e => setPushHeader env t e.1 e.2) t) name =
      ((xs.reverse.find? fun e =>
        pushHeaderNames.any (hdMatchLit env · e.1) && caseEq e.1 name).map Prod.snd).or
        (tableGet t name)
  | [], t => by simp
  | x :: xs, t => by
    rw [List.foldl_cons, tableGet_foldl_setPushHeader env name xs, List.reverse_cons,
      List.find?_append]
    unfold setPushHeader
    split_ifs with hx <;> cases hc : caseEq x.1 name <;> simp [hx, hc, tableGet_tableSetn]
    cases List.find? (fun e => pushHeaderNames.any (hdMatchLit env · e.1) && caseEq e.1 name)
      xs.reverse <;> rfl

/-- **The last header wins.** For every name, the push's header table answers with the
value of the last header of the original request that is allow-listed and has that name
(up to case); repeated request headers are not combined, the earlier ones are dropped. -/
theorem tableGet_pushHeaders (env : Env) (hs : Table) (name : List Char) :
    tableGet (pushHeaders env hs) name =
      (hs.reverse.find? fun e =>
        pushHeaderNames.any (hdMatchLit env · e.1) && caseEq e.1 name).map Prod.snd := by
  rw [pushHeaders, tableGet_foldl_setPushHeader, tableGet_nil, Option.or_none]

theorem sameAuthority_iff {req : Request} {uri : Uri} :
    sameAuthority req uri = true ↔
      (∀ sc, uri.scheme = some sc → sc = req.scheme) ∧
        ∀ hi, uri.hostinfo = some hi → hi = req.authority := by
  cases h1 : uri.scheme <;> cases h2 : uri.hostinfo <;> simp [sameAuthority, h1, h2]

/-- **What `add_push` accepts.** -/
theorem addPush_eq_some {env : Env} {req : Request} {policy : PushPolicy} {v : LinkValue}
    {p : Push} (h : addPush env req policy v = some p) :
    hasRelation v.params "preload".toList = true ∧ hasParam v.params "nopush".toList = false ∧
      ∃ uri, env.uriParse v.link = some uri ∧ uri.path.isSome = true ∧
        sameAuthority req uri = true ∧
        p = ⟨env.endHeaders ⟨pushMethod policy, req.scheme, req.authority, env.uriUnparse uri,
            pushHeaders env req.headers⟩,
          if hasParam v.params "critical".toList then some .before else none⟩ := by
  unfold addPush at h
  split at h
  · rename_i hg
    rw [Bool.and_eq_true, Bool.not_eq_true'] at hg
    split at h
    · cases h
    · rename_i uri huri
      split at h
      · rename_i hu
        rw [Bool.and_eq_true] at hu
        exact ⟨hg.1, hg.2, uri, huri, hu.1, hu.2, (Option.some.inj h).symm⟩
      · cases h
  · cases h

/-- `head_iter` never faults: the link-values are those of the `Link` headers in order. -/
theorem headIter_eq (env : Env) (hs : Table) :
    headIter env hs = some ((hs.filter fun e => env.natEq "link".toList e.1).flatMap
      fun e => (inspectLink e.2).getD []) := by
  induction hs with
  | nil => rfl
  | cons e hs ih =>
    obtain ⟨key, value⟩ := e
    by_cases hk : env.natEq "link".toList key = true
    · obtain ⟨vs, hvs⟩ :=
        inspectLoop_isSome value (value.length + 1) 0 (Nat.zero_le _) (by omega)
      have hvs : inspectLink value = some vs := hvs
      rw [List.filter_cons_of_pos (p := fun e : List Char × List Char =>
        env.natEq "link".toList e.1) hk, headIter, if_pos hk]
      simp [ih, hvs]
    · rw [List.filter_cons_of_neg (p := fun e : List Char × List Char =>
        env.natEq "link".toList e.1) hk, headIter, if_neg hk]
      simp [ih]

/-- What `h2_push_collect` returns for a request and a policy other than `H2_PUSH_NONE`. -/
theorem h2PushCollect_eq (env : Env) (req : Request) {policy : PushPolicy}
    (hpol : policy ≠ .none) (hs : Table) :
    h2PushCollect env (some req) policy (some hs) =
      let pushes := ((hs.filter fun e => env.natEq "link".toList e.1).flatMap
        fun e => (inspectLink e.2).getD []).filterMap (addPush env req policy)
      some (if pushes = [] then (none, some hs)
        else (some pushes, some (tableSetn hs "push-policy".toList (policyStr policy)))) := by
  simp only [h2PushCollect, hpol, if_false, headIter_eq, Option.bind_eq_bind, Option.some_bind]
  split <;> rfl

/-- **`h2_push_collect`.** For a request and a push policy other than `H2_PUSH_NONE`, the
result is `NULL` when `add_push` builds no candidate, and otherwise the candidates of the
link-values of the `Link` headers, in the order the headers and `inspect_link` visit them,
with the response marked by a `push-policy` header. A link-value makes a candidate only if
its `rel` holds the token `preload`, it has no `nopush` parameter, and its target parses to
a URI with a path whose scheme and hostinfo, where given, are the request's; the candidate
asks with the policy's method for that path, under the request's scheme and authority,
with the request's allow-listed headers, and goes before its parent when `critical`. -/
theorem h2PushCollect_pushes (env : Env) (req : Request) (policy : PushPolicy)
    (hpol : policy ≠ .none) (hs : Table) :
    let pushes := ((hs.filter fun e => env.natEq "link".toList e.1).flatMap
      fun e => (inspectLink e.2).getD []).filterMap (addPush env req policy)
    h2PushCollect env (some req) policy (some hs) =
      some (if pushes = [] then (none, some hs)
        else (some pushes, some (tableSetn hs "push-policy".toList (policyStr policy)))) ∧
    ∀ v p, addPush env req policy v = some p →
      (∃ val, tableGet v.params "rel".toList = some val ∧
        "preload".toList ∈ val.splitOn ' ') ∧
      tableGet v.params "nopush".toList = none ∧
      ∃ uri, env.uriParse v.link = some uri ∧ uri.path.isSome ∧
        (∀ sc, uri.scheme = some sc → sc = req.scheme) ∧
        (∀ hi, uri.hostinfo = some hi → hi = req.authority) ∧
        p.req = env.endHeaders ⟨if policy = .head then "HEAD".toList else "GET".toList,
          req.scheme, req.authority, env.uriUnparse uri, pushHeaders env req.headers⟩ ∧
        p.priority =
          (if (tableGet v.params "critical".toList).isSome then some .before else none) ∧
        ∀ e ∈ pushHeaders env req.headers,
          pushHeaderNames.any (hdMatchLit env · e.1) = true ∧
          (∃ w, (e.1, w) ∈ req.headers) ∧ ∃ k, (k, e.2) ∈ req.headers := by
  refine ⟨h2PushCollect_eq env req hpol hs, fun v p h => ?_⟩
  obtain ⟨hrel, hnp, uri, huri, hpath, hauth, rfl⟩ := addPush_eq_some h
  have hmethod : pushMethod policy = if policy = .head then "HEAD".toList else "GET".toList := by
    cases policy <;> rfl
  refine ⟨hasRelation_sound (by decide) hrel, by simpa [hasParam] using hnp, uri, huri, hpath,
    (sameAuthority_iff.mp hauth).1, (sameAuthority_iff.mp hauth).2, by rw [hmethod], rfl,
    fun e he => mem_pushHeaders env req.headers he⟩

/-- One `Link` header with one `preload` link-value, under an exact name match and a URI
parser that reads every target as a path. -/
theorem h2PushCollect_pushes_one_link :
    let env : Env := ⟨(· == ·), fun s => some ⟨none, none, some s, none, none⟩,
      fun u => u.path.getD [], id⟩
    let req : Request := ⟨"GET".toList, "https".toList, "example.org".toList, "/".toList,
      [("Accept".toList, "*/*".toList)]⟩
    let hs : Table := [("link".toList, "</a.css>;rel=preload".toList)]
    PushPolicy.default ≠ .none ∧
    let pushes := ((hs.filter fun e => env.natEq "link".toList e.1).flatMap
      fun e => (inspectLink e.2).getD []).filterMap (addPush env req .default)
    h2PushCollect env (some req) .default (some hs) =
      some (if pushes = [] then (none, some hs)
        else (some pushes, some (tableSetn hs "push-policy".toList (policyStr .default)))) ∧
    ∀ v p, addPush env req .default v = some p →
      (∃ val, tableGet v.params "rel".toList = some val ∧
        "preload".toList ∈ val.splitOn ' ') ∧
      tableGet v.params "nopush".toList = none ∧
      ∃ uri, env.uriParse v.link = some uri ∧ uri.path.isSome ∧
        (∀ sc, uri.scheme = some sc → sc = req.scheme) ∧
        (∀ hi, uri.hostinfo = some hi → hi = req.authority) ∧
        p.req = env.endHeaders
          ⟨if PushPolicy.default = .head then "HEAD".toList else "GET".toList, req.scheme,
            req.authority, env.uriUnparse uri, pushHeaders env req.headers⟩ ∧
        p.priority =
          (if (tableGet v.params "critical".toList).isSome then some .before else none) ∧
        ∀ e ∈ pushHeaders env req.headers,
          pushHeaderNames.any (hdMatchLit env · e.1) = true ∧
          (∃ w, (e.1, w) ∈ req.headers) ∧ ∃ k, (k, e.2) ∈ req.headers :=
  ⟨by decide, h2PushCollect_pushes _ _ .default (by decide) _⟩

end H2
