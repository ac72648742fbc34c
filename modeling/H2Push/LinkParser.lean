import H2Push.Request

/-!
# H2Push — the `Link` header scanner

`inspect_link` reads one header value with a cursor `ctx->i` into the `slen` characters
of `ctx->s`. Each reader skips blanks, tests the next character, and advances the cursor
only over what it consumed; a reader that fails leaves the cursor where its last step left
it. Every `read_link` that succeeds starts a link-value: its parameters are read until
`read_param` fails, the link-value goes to `add_push`, and the loop goes on only past a `,`.

The model keeps the cursor as a number and every read of `ctx->s[k]` as `s[k]?`, so that a
read outside the string is a fault (`none`). `mk_str(ctx, end)` faults outside
`ctx->i ≤ end ≤ slen`, the range its callers mean to keep: below `ctx->i` the code returns
`""`, and past `slen` `apr_pstrndup` stops at the string's NUL, so neither reads out of
bounds, but either means that a reader lost its place. Each loop runs on fuel that its
bound, the length of the string, makes enough; running out is a fault too. `inspectLink`
returns the link-values in the order it hands them to `add_push`.

`inspect_link` is called with `strlen(value)`, so the string holds no NUL and
`apr_pstrndup` copies the whole range it is given.

The main result here is `inspectLink_safe`: from any cursor inside the string every reader
and every round of the loop returns without a fault and inside the string, each round and
each successful `read_param` moves the cursor forward, and the whole scan ends.
-/

namespace H2

/-- `attr_char`: the RFC 5987 attr-char, letters and digits by `apr_isalnum`. -/
def attrChar (c : Char) : Bool :=
  match c with
  | '!' | '#' | '$' | '&' | '+' | '-' | '.' | '^' | '_' | '\x60' | '|' | '~' => true
  | _ => c.isAlphanum

/-- `ptoken_char`: the characters `read_ptoken` accepts. -/
def ptokenChar (c : Char) : Bool :=
  match c with
  | '!' | '#' | '$' | '&' | '\x27' | '(' | ')' | '*' | '+' | '-' | '.' | '/' | ':' | '<'
  | '=' | '>' | '?' | '@' | '[' | ']' | '^' | '_' | '\x60' | '\x7b' | '|' | '\x7d' | '~' => true
  | _ => c.isAlphanum

/-- The blanks `skip_ws` skips. -/
def isWs (c : Char) : Bool := c == ' ' || c == '\t'

/-- The loops `for (j = i; j < slen && p(s[j]); ++j)`: the first index from `j` on that
ends the string or fails `p`. -/
def scanWhile (s : List Char) (p : Char → Bool) : Nat → Nat → Option Nat
  | 0, _ => none
  | fuel + 1, j =>
    if j < s.length then do
      let c ← s[j]?
      if p c then scanWhile s p fuel (j + 1) else pure j
    else pure j

/-- `skip_ws`: the cursor past the blanks, and whether it is still inside the string. -/
def skipWs (s : List Char) (i : Nat) : Option (Bool × Nat) := do
  let i ← scanWhile s isWs (s.length + 1) i
  pure (decide (i < s.length), i)

/-- `find_chr`: the index of the next `c` from the cursor on. -/
def findChr (s : List Char) (c : Char) (i : Nat) : Option (Option Nat) := do
  let j ← scanWhile s (· != c) (s.length + 1) i
  pure (if j < s.length then some j else none)

/-- `read_chr`: consumes `c` if it is the next character. -/
def readChr (s : List Char) (c : Char) (i : Nat) : Option (Bool × Nat) :=
  if i < s.length then do
    let x ← s[i]?
    pure (if x = c then (true, i + 1) else (false, i))
  else pure (false, i)

/-- `mk_str(ctx, end)`: the characters from the cursor up to `end`. -/
def mkStr (s : List Char) (i e : Nat) : Option (List Char) :=
  if i ≤ e ∧ e ≤ s.length then some (if i < e then (s.drop i).take (e - i) else []) else none

/-- The shape `read_link` and `read_qstring` share: blanks, the opening character `o`, and
everything up to the next closing character `c`, which is skipped. -/
def readDelimited (s : List Char) (o c : Char) (i : Nat) : Option (Option (List Char) × Nat) := do
  let (ok, i) ← skipWs s i
  if ok then
    let (ok, i) ← readChr s o i
    if ok then
      match ← findChr s c i with
      | some e => pure (some (← mkStr s i e), e + 1)
      | none => pure (none, i)
    else pure (none, i)
  else pure (none, i)

/-- `read_qstring`: a quoted string, without its quotes. -/
def readQstring (s : List Char) (i : Nat) : Option (Option (List Char) × Nat) :=
  readDelimited s '"' '"' i

/-- `read_link`: the target between `<` and `>`. -/
def readLink (s : List Char) (i : Nat) : Option (Option (List Char) × Nat) :=
  readDelimited s '<' '>' i

/-- The shape `read_ptoken` and `read_pname` share: blanks, then a non-empty run of the
characters `p` accepts. -/
def readToken (s : List Char) (p : Char → Bool) (i : Nat) :
    Option (Option (List Char) × Nat) := do
  let (ok, i) ← skipWs s i
  if ok then
    let j ← scanWhile s p (s.length + 1) i
    if i < j then pure (some (← mkStr s i j), j) else pure (none, i)
  else pure (none, i)

/-- `read_ptoken`. -/
def readPtoken (s : List Char) (i : Nat) : Option (Option (List Char) × Nat) :=
  readToken s ptokenChar i

/-- `read_pname`. -/
def readPname (s : List Char) (i : Nat) : Option (Option (List Char) × Nat) :=
  readToken s attrChar i

/-- `read_pvalue`: `=` and then a quoted string or, from wherever `read_qstring` left the
cursor, a ptoken. -/
def readPvalue (s : List Char) (i : Nat) : Option (Option (List Char) × Nat) := do
  let (ok, i) ← skipWs s i
  if ok then
    let (ok, i) ← readChr s '=' i
    if ok then
      match ← readQstring s i with
      | (some v, i) => pure (some v, i)
      | (none, i) => readPtoken s i
    else pure (none, i)
  else pure (none, i)

/-- `read_param`: `;`, a name and an optional value, set into the parameter table (`""`
when there is no value). -/
def readParam (s : List Char) (i : Nat) (params : Table) : Option ((Bool × Table) × Nat) := do
  let (ok, i) ← skipWs s i
  if ok then
    let (ok, i) ← readChr s ';' i
    if ok then
      match ← readPname s i with
      | (some name, i) =>
        let (v, i) ← readPvalue s i
        pure ((true, tableSetn params name (v.getD [])), i)
      | (none, i) => pure ((false, params), i)
    else pure ((false, params), i)
  else pure ((false, params), i)

/-- `read_sep`: blanks and a `,`. -/
def readSep (s : List Char) (i : Nat) : Option (Bool × Nat) := do
  let (ok, i) ← skipWs s i
  if ok then readChr s ',' i else pure (false, i)

/-- The loop `while (read_param(ctx))`. -/
def readParams (s : List Char) : Nat → Nat → Table → Option (Table × Nat)
  | 0, _, _ => none
  | fuel + 1, i, params => do
    match ← readParam s i params with
    | ((true, params), i) => readParams s fuel i params
    | ((false, params), i) => pure (params, i)

/-- What `add_push` sees of a link-value: `ctx->link` and `ctx->params`. -/
structure LinkValue where
  link : List Char
  params : Table
  deriving DecidableEq, Repr

/-- One round of the `read_link` loop from cursor `i`: `none` when `read_link` fails and the
loop ends; otherwise the link-value handed to `add_push` (its parameters read into a table
that `init_params` cleared), whether `read_sep` found a `,`, and the cursor after it. -/
def inspectRound (s : List Char) (i : Nat) : Option (Option (LinkValue × Bool × Nat)) := do
  match ← readLink s i with
  | (none, _) => pure none
  | (some link, i) =>
    let (params, i) ← readParams s (s.length + 1) i []
    let (sep, i) ← readSep s i
    pure (some (⟨link, params⟩, sep, i))

/-- The `read_link` loop of `inspect_link` from cursor `i`. -/
def inspectLoop (s : List Char) : Nat → Nat → Option (List LinkValue)
  | 0, _ => none
  | fuel + 1, i => do
    match ← inspectRound s i with
    | none => pure []
    | some (v, false, _) => pure [v]
    | some (v, true, i) => (v :: ·) <$> inspectLoop s fuel i

/-- `inspect_link`: the link-values handed to `add_push`, in order. -/
def inspectLink (s : List Char) : Option (List LinkValue) := inspectLoop s (s.length + 1) 0

/-! ## §1 — the scans -/

/-- Where a scan for the characters `p` accepts, started at `j`, stops. -/
def scanEnd (s : List Char) (p : Char → Bool) (j : Nat) : Nat :=
  j + ((s.drop j).takeWhile p).length

theorem scanEnd_of_lt {s : List Char} {p : Char → Bool} {j : Nat} (hj : j < s.length) :
    scanEnd s p j = if p s[j] then scanEnd s p (j + 1) else j := by
  rw [scanEnd, scanEnd, List.drop_eq_getElem_cons hj, List.takeWhile_cons]
  split <;> simp; omega

theorem scanWhile_eq (s : List Char) (p : Char → Bool) :
    ∀ (fuel j : Nat), s.length - j < fuel → scanWhile s p fuel j = some (scanEnd s p j)
  | 0, _, h => absurd h (Nat.not_lt_zero _)
  | fuel + 1, j, h => by
    by_cases hj : j < s.length
    · rw [scanEnd_of_lt hj]
      by_cases hp : p s[j]
      · simp [scanWhile, hj, hp, scanWhile_eq s p fuel (j + 1) (by omega)]
      · simp [scanWhile, hj, hp]
    · simp [scanWhile, hj, scanEnd, List.drop_eq_nil_of_le (by omega : s.length ≤ j)]

theorem le_scanEnd (s : List Char) (p : Char → Bool) (j : Nat) : j ≤ scanEnd s p j :=
  Nat.le_add_right _ _

theorem scanEnd_le (s : List Char) (p : Char → Bool) {j : Nat} (hj : j ≤ s.length) :
    scanEnd s p j ≤ s.length := by
  have := (List.takeWhile_sublist p (l := s.drop j)).length_le
  simp only [scanEnd, List.length_drop] at *
  omega

theorem skipWs_eq (s : List Char) (i : Nat) :
    skipWs s i = some (decide (scanEnd s isWs i < s.length), scanEnd s isWs i) := by
  simp [skipWs, scanWhile_eq s isWs (s.length + 1) i (by omega)]

theorem findChr_eq (s : List Char) (c : Char) (i : Nat) :
    findChr s c i =
      some (if scanEnd s (· != c) i < s.length then some (scanEnd s (· != c) i) else none) := by
  simp [findChr, scanWhile_eq s _ (s.length + 1) i (by omega)]

theorem readChr_of_lt (s : List Char) (c : Char) {i : Nat} (hi : i < s.length) :
    readChr s c i = some (if s[i] = c then (true, i + 1) else (false, i)) := by
  simp [readChr, hi]

theorem mkStr_of_le (s : List Char) {i e : Nat} (hie : i ≤ e) (he : e ≤ s.length) :
    mkStr s i e = some ((s.drop i).take (e - i)) := by
  simp only [mkStr, hie, he, and_self, if_true, Option.some.injEq]
  split <;> simp; omega

/-! ## §2 — every reader stays inside the string -/

/-- A reader's result from cursor `i`: no fault, and a cursor `k` with `i ≤ k ≤ slen` that
has moved past `i` whenever the reader reports success (`ok`). -/
def Moves {α : Type} (len i : Nat) (ok : α → Bool) : Option (α × Nat) → Prop
  | some (a, k) => i ≤ k ∧ k ≤ len ∧ (ok a → i < k)
  | none => False

@[simp] theorem moves_some {α : Type} {len i k : Nat} {ok : α → Bool} {a : α} :
    Moves len i ok (some (a, k)) ↔ i ≤ k ∧ k ≤ len ∧ (ok a → i < k) := Iff.rfl

theorem Moves.exists {α : Type} {len i : Nat} {ok : α → Bool} {x : Option (α × Nat)}
    (h : Moves len i ok x) :
    ∃ a k, x = some (a, k) ∧ i ≤ k ∧ k ≤ len ∧ (ok a → i < k) := by
  rcases x with _ | ⟨a, k⟩
  · exact h.elim
  · exact ⟨a, k, rfl, h⟩

theorem readDelimited_moves (s : List Char) (o c : Char) {i : Nat} (hi : i ≤ s.length) :
    Moves s.length i Option.isSome (readDelimited s o c i) := by
  have h1 := le_scanEnd s isWs i
  have h2 := scanEnd_le s isWs hi
  simp only [readDelimited, skipWs_eq]
  generalize scanEnd s isWs i = k at *
  by_cases hk : k < s.length
  · simp only [hk, decide_True, Option.bind_eq_bind, Option.some_bind, if_true,
      readChr_of_lt s o hk]
    split
    · simp only [findChr_eq]
      have h3 := le_scanEnd s (· != c) (k + 1)
      have h4 := scanEnd_le s (· != c) (show k + 1 ≤ s.length by omega)
      generalize scanEnd s (· != c) (k + 1) = e at *
      by_cases he : e < s.length
      · simp [he, mkStr_of_le s h3 h4]; omega
      · simp [he]; omega
    · simp; omega
  · simp [hk]; omega

theorem readToken_moves (s : List Char) (p : Char → Bool) {i : Nat} (hi : i ≤ s.length) :
    Moves s.length i Option.isSome (readToken s p i) := by
  have h1 := le_scanEnd s isWs i
  have h2 := scanEnd_le s isWs hi
  simp only [readToken, skipWs_eq]
  generalize scanEnd s isWs i = k at *
  by_cases hk : k < s.length
  · simp only [hk, decide_True, Option.bind_eq_bind, Option.some_bind, if_true,
      scanWhile_eq s p (s.length + 1) k (by omega)]
    have h4 := scanEnd_le s p h2
    generalize scanEnd s p k = j at *
    by_cases hj : k < j
    · simp [hj, mkStr_of_le s hj.le h4]; omega
    · simp [hj]; omega
  · simp [hk]; omega

theorem readPvalue_moves (s : List Char) {i : Nat} (hi : i ≤ s.length) :
    Moves s.length i Option.isSome (readPvalue s i) := by
  have h1 := le_scanEnd s isWs i
  have h2 := scanEnd_le s isWs hi
  simp only [readPvalue, skipWs_eq]
  generalize scanEnd s isWs i = k at *
  by_cases hk : k < s.length
  · simp only [hk, decide_True, Option.bind_eq_bind, Option.some_bind, if_true,
      readChr_of_lt s _ hk]
    split
    · obtain ⟨r, k', hr, h3, h4, -⟩ := (readDelimited_moves s '"' '"' (i := k + 1) hk).exists
      simp only [readQstring, hr, Option.some_bind]
      rcases r with _ | v
      · obtain ⟨r', k'', hr', h5, h6, -⟩ := (readToken_moves s ptokenChar h4).exists
        simp [readPtoken, hr']; omega
      · simp; omega
    · simp; omega
  · simp [hk]; omega

theorem readParam_moves (s : List Char) {i : Nat} (hi : i ≤ s.length) (params : Table) :
    Moves s.length i Prod.fst (readParam s i params) := by
  have h1 := le_scanEnd s isWs i
  have h2 := scanEnd_le s isWs hi
  simp only [readParam, skipWs_eq]
  generalize scanEnd s isWs i = k at *
  by_cases hk : k < s.length
  · simp only [hk, decide_True, Option.bind_eq_bind, Option.some_bind, if_true,
      readChr_of_lt s _ hk]
    split
    · obtain ⟨r, k', hr, h3, h4, -⟩ := (readToken_moves s attrChar (i := k + 1) hk).exists
      simp only [readPname, hr, Option.some_bind]
      rcases r with _ | name
      · simp; omega
      · obtain ⟨v, k'', hv, h5, h6, -⟩ := (readPvalue_moves s h4).exists
        simp [hv]; omega
    · simp; omega
  · simp [hk]; omega

theorem readSep_moves (s : List Char) {i : Nat} (hi : i ≤ s.length) :
    Moves s.length i id (readSep s i) := by
  have h1 := le_scanEnd s isWs i
  have h2 := scanEnd_le s isWs hi
  simp only [readSep, skipWs_eq]
  generalize scanEnd s isWs i = k at *
  by_cases hk : k < s.length
  · simp only [hk, decide_True, Option.bind_eq_bind, Option.some_bind, if_true,
      readChr_of_lt s _ hk]
    split <;> simp <;> omega
  · simp [hk]; omega

theorem readParams_moves (s : List Char) :
    ∀ (fuel i : Nat) (params : Table), i ≤ s.length → s.length - i < fuel →
      Moves s.length i (fun _ => false) (readParams s fuel i params)
  | 0, _, _, _, h => absurd h (Nat.not_lt_zero _)
  | fuel + 1, i, params, hi, hf => by
    obtain ⟨⟨ok, t⟩, k, hr, h1, h2, h3⟩ := (readParam_moves s hi params).exists
    simp only [readParams, hr, Option.bind_eq_bind, Option.some_bind]
    cases ok
    · simp; omega
    · obtain ⟨t', k', hr', h4, h5, -⟩ :=
        (readParams_moves s fuel k t h2 (by simp at h3; omega)).exists
      simp [hr']; omega

/-- **Progress.** A round of the `read_link` loop that hands a link-value to `add_push`
leaves the cursor past where it started and inside the string. -/
theorem inspectRound_moves (s : List Char) {i : Nat} (hi : i ≤ s.length) :
    ∃ r, inspectRound s i = some r ∧
      ∀ v sep k, r = some (v, sep, k) → i < k ∧ k ≤ s.length := by
  obtain ⟨r, k, hr, h1, h2, h3⟩ := (readDelimited_moves s '<' '>' hi).exists
  simp only [inspectRound, readLink, hr, Option.bind_eq_bind, Option.some_bind]
  rcases r with _ | link
  · simp
  · obtain ⟨t, k', hr', h4, h5, -⟩ :=
      (readParams_moves s (s.length + 1) k [] h2 (by omega)).exists
    obtain ⟨sep, k'', hr'', h6, h7, -⟩ := (readSep_moves s h5).exists
    simp only [Option.isSome_some, forall_const] at h3
    simp [hr', hr'']; omega

theorem inspectLoop_isSome (s : List Char) :
    ∀ (fuel i : Nat), i ≤ s.length → s.length - i < fuel →
      ∃ vs, inspectLoop s fuel i = some vs
  | 0, _, _, h => absurd h (Nat.not_lt_zero _)
  | fuel + 1, i, hi, hf => by
    obtain ⟨r, hr, hk⟩ := inspectRound_moves s hi
    simp only [inspectLoop, hr, Option.bind_eq_bind, Option.some_bind]
    rcases r with _ | ⟨v, _ | _, k⟩
    · simp
    · simp
    · obtain ⟨h1, h2⟩ := hk v true k rfl
      obtain ⟨vs, hvs⟩ := inspectLoop_isSome s fuel k h2 (by omega)
      simp [hvs]

/-! ## §3 — `inspect_link` is safe on every string -/

/-- **Safety and termination of `inspect_link`.** On every string the scan ends without a
fault (no read outside the string, no `mk_str` outside `ctx->i ≤ end ≤ slen`, no loop
past its bound); from any cursor inside the string each round of the `read_link` loop and
each `read_param` returns inside the string, and a round that hands a link-value on, or a
`read_param` that reports success, has moved the cursor forward. -/
theorem inspectLink_safe (s : List Char) :
    (∃ vs, inspectLink s = some vs) ∧
    (∀ i ≤ s.length, ∃ r, inspectRound s i = some r ∧
      ∀ v sep k, r = some (v, sep, k) → i < k ∧ k ≤ s.length) ∧
    (∀ i ≤ s.length, ∀ params, ∃ ok t k, readParam s i params = some ((ok, t), k) ∧
      i ≤ k ∧ k ≤ s.length ∧ (ok = true → i < k)) :=
  ⟨inspectLoop_isSome s _ 0 (Nat.zero_le _) (by omega),
    fun _ hi => inspectRound_moves s hi,
    fun _ hi params => by
      obtain ⟨⟨ok, t⟩, k, h⟩ := (readParam_moves s hi params).exists
      exact ⟨ok, t, k, h⟩⟩

end H2
