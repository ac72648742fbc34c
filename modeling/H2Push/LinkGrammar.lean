import H2Push.LinkParser

/-!
# H2Push — what `inspect_link` reads from a well-formed header

The comment in `inspect_link` quotes the grammar it reads (RFC 5988 §5, with the
RFC 5987 parameter names):

    link-value = "<" URI-Reference ">" *( ";" link-param )
    link-param = parmname [ "=" ( ptoken | quoted-string ) ]

This module writes that grammar down as data (`LinkSpec`, `LinkParam`, `PValue`) with the
blanks the readers skip before each token, renders it as text (`renderHeader`), and relates
the scanner of `LinkParser` to it. The readers are related to the text that is left at the
cursor, `s.drop i`: one lemma per reader says what it returns and what it leaves.

* **`inspectLink_renderHeader`** — every list of well-formed link-values, rendered and joined
  by `,`, is read back as exactly those link-values, with the parameter tables that
  `apr_table_setn` builds from them.
* The set a ptoken may hold is the code's `ptoken_char`. The grammar in the comment,
  `rfcPtokenChar`, also admits `%` (`ptokenChar_eq_rfc`), and a `%` in a value ends the
  header's scan early (`inspectLink_rejects_percent_ptoken`).
* **`inspectLink_keeps_malformed`** — a link-value whose parameter list ends in a `;` with no
  name or an `=` with no value still reaches `add_push`. So does one with a quote never
  closed (`inspectLink_of_badTail`), through a slip of `read_qstring`, which leaves the
  cursor past the quote when it fails.
* **`inspectLink_sound`** — the converse of the round trip: whatever the string, every
  link-value handed to `add_push` is the value of a well-formed one.
-/

namespace H2

/-! ## §1 — readers against the text left at the cursor -/

/-- A run of the blanks `skip_ws` skips. -/
def Blank (b : List Char) : Prop := ∀ c ∈ b, isWs c = true

instance decidableBlank (b : List Char) : Decidable (Blank b) :=
  inferInstanceAs (Decidable (∀ c ∈ b, _))

theorem drop_add_length {s pre rest : List Char} {i : Nat} (h : s.drop i = pre ++ rest) :
    s.drop (i + pre.length) = rest := by
  rw [← List.drop_drop, h, List.drop_left]

theorem drop_succ_of_cons {s rest : List Char} {i : Nat} {c : Char} (h : s.drop i = c :: rest) :
    s.drop (i + 1) = rest :=
  drop_add_length (show s.drop i = [c] ++ rest from h)

theorem getElem_of_drop {s rest : List Char} {i : Nat} {c : Char} (h : s.drop i = c :: rest) :
    ∃ hi : i < s.length, s[i] = c := by
  have : s[i + 0]? = some c := by rw [← List.getElem?_drop, h]; simp
  exact List.getElem?_eq_some_iff.mp this

theorem forall_mem_head?_append {P : Char → Prop} {A B : List Char} (hA : ∀ c ∈ A, P c)
    (hB : ∀ c ∈ B.head?, P c) : ∀ c ∈ (A ++ B).head?, P c := by
  cases A with
  | nil => simpa using hB
  | cons a A => simpa using hA a (List.mem_cons_self a A)

theorem scanEnd_of_drop {s pre rest : List Char} {p : Char → Bool} {j : Nat}
    (h : s.drop j = pre ++ rest) (hpre : ∀ c ∈ pre, p c = true)
    (hrest : ∀ c ∈ rest.head?, p c = false) : scanEnd s p j = j + pre.length := by
  rw [scanEnd, h, List.takeWhile_append_of_pos hpre]
  cases rest with
  | nil => simp
  | cons c r => simp [List.takeWhile_cons_of_neg (by simpa using hrest c rfl)]

theorem skipWs_of_drop {s b X : List Char} {i : Nat} (h : s.drop i = b ++ X) (hb : Blank b)
    (hX : ∀ c ∈ X.head?, isWs c = false) :
    skipWs s i = some (decide (X ≠ []), i + b.length) := by
  have hlen := congrArg List.length h
  simp only [List.length_drop, List.length_append] at hlen
  rw [skipWs_eq, scanEnd_of_drop h hb hX]
  simp only [ne_eq, ← List.length_eq_zero, Option.some.injEq, Prod.mk.injEq, and_true,
    decide_eq_decide]
  omega

theorem readChr_of_drop {s r : List Char} {i : Nat} {c : Char} (c' : Char)
    (h : s.drop i = c :: r) :
    readChr s c' i = some (if c = c' then (true, i + 1) else (false, i)) := by
  obtain ⟨hi, rfl⟩ := getElem_of_drop h
  exact readChr_of_lt s c' hi

theorem findChr_of_drop {s t r : List Char} {i : Nat} {c : Char} (h : s.drop i = t ++ c :: r)
    (hc : c ∉ t) : findChr s c i = some (some (i + t.length)) := by
  have he : scanEnd s (· != c) i = i + t.length :=
    scanEnd_of_drop h (fun x hx => bne_iff_ne.mpr fun e => hc (e ▸ hx)) (by simp)
  have hlt : i + t.length < s.length := (getElem_of_drop (drop_add_length h)).1
  simp [findChr_eq, he, hlt]

theorem mkStr_of_drop {s t r : List Char} {i e : Nat} (h : s.drop i = t ++ r)
    (he : e = i + t.length) (hie : e ≤ s.length) : mkStr s i e = some t := by
  subst he
  rw [mkStr_of_le s (Nat.le_add_right _ _) hie, h]
  simp

/-- `read_link` and `read_qstring` read a delimited string. -/
theorem readDelimited_of_drop {s b t R : List Char} {i : Nat} {o c : Char}
    (h : s.drop i = b ++ o :: t ++ c :: R) (hb : Blank b) (ho : isWs o = false) (hc : c ∉ t) :
    ∃ k, readDelimited s o c i = some (some t, k) ∧ s.drop k = R := by
  simp only [List.append_assoc, List.cons_append] at h
  have h1 := skipWs_of_drop h hb (by simpa using ho)
  have h2 := drop_add_length h
  have h3 := drop_succ_of_cons h2
  have h4 := findChr_of_drop h3 hc
  have h5 := drop_add_length h3
  have h6 := mkStr_of_drop h3 rfl (getElem_of_drop h5).1.le
  refine ⟨_, ?_, drop_succ_of_cons h5⟩
  simp [readDelimited, h1, readChr_of_drop o h2, h4, h6]

/-- No opening character after the blanks: nothing is read. -/
theorem readDelimited_none_of_drop {s b X : List Char} {i : Nat} {o c : Char}
    (h : s.drop i = b ++ X) (hb : Blank b) (hX : ∀ x ∈ X.head?, isWs x = false ∧ x ≠ o) :
    ∃ k, readDelimited s o c i = some (none, k) ∧ s.drop k = X := by
  have h1 := skipWs_of_drop h hb fun x hx => (hX x hx).1
  refine ⟨_, ?_, drop_add_length h⟩
  cases X with
  | nil => simp [readDelimited, h1]
  | cons x r =>
    have hx := (hX x rfl).2
    simp [readDelimited, h1, readChr_of_drop o (drop_add_length h), hx]

/-- `read_ptoken` and `read_pname` read a run of the characters they accept. -/
theorem readToken_of_drop {s b t R : List Char} {i : Nat} {p : Char → Bool}
    (h : s.drop i = b ++ t ++ R) (hb : Blank b) (ht : t ≠ []) (htp : ∀ c ∈ t, p c = true)
    (hpw : ∀ c, p c = true → isWs c = false) (hR : ∀ c ∈ R.head?, p c = false) :
    ∃ k, readToken s p i = some (some t, k) ∧ s.drop k = R := by
  obtain ⟨a, t', rfl⟩ := List.exists_cons_of_ne_nil ht
  rw [List.append_assoc] at h
  have h1 := skipWs_of_drop h hb (by simpa using hpw a (htp a (List.mem_cons_self a t')))
  have h2 := drop_add_length h
  have h3 := scanEnd_of_drop h2 htp hR
  have hlen := congrArg List.length h2
  simp only [List.length_drop, List.length_append, List.length_cons] at hlen
  have h4 : mkStr s (i + b.length) (i + b.length + (t'.length + 1)) = some (a :: t') :=
    mkStr_of_drop h2 (by simp) (by omega)
  refine ⟨_, ?_, drop_add_length h2⟩
  simp [readToken, h1, scanWhile_eq s p (s.length + 1) (i + b.length) (by omega), h3, h4]

/-- A parameter value as the grammar writes it: a ptoken, or a quoted string. -/
inductive PValue where
  | ptoken (t : List Char)
  | quoted (q : List Char)
  deriving DecidableEq, Repr

/-- The text a value stands for: the token, or the quoted string without its quotes. -/
def PValue.text : PValue → List Char
  | .ptoken t => t
  | .quoted q => q

def PValue.render : PValue → List Char
  | .ptoken t => t
  | .quoted q => '"' :: q ++ ['"']

/-- A well-formed value, when a ptoken may hold the characters `tokenChar` accepts. -/
def PValue.WF (tokenChar : Char → Bool) : PValue → Prop
  | .ptoken t => t ≠ [] ∧ ∀ c ∈ t, tokenChar c = true
  | .quoted q => '"' ∉ q

instance PValue.decidableWF (tokenChar : Char → Bool) : ∀ v : PValue, Decidable (v.WF tokenChar)
  | .ptoken _ => inferInstanceAs (Decidable (_ ∧ _))
  | .quoted _ => inferInstanceAs (Decidable (_ ∉ _))

/-- One `;name[=value]` of a link-value, with the blanks after `;`, after the name, after
`=` and after the parameter's last token. -/
structure LinkParam where
  name : List Char
  value : Option PValue
  wsName : List Char
  wsEq : List Char
  wsValue : List Char
  wsAfter : List Char
  deriving DecidableEq, Repr

def LinkParam.render (p : LinkParam) : List Char :=
  ';' :: p.wsName ++ p.name ++
    (match p.value with
      | none => []
      | some v => p.wsEq ++ '=' :: p.wsValue ++ v.render) ++ p.wsAfter

/-- A well-formed parameter: blanks where blanks go, a name of `attr-char`s, and a
well-formed value if there is one. -/
def LinkParam.WF (tokenChar : Char → Bool) (p : LinkParam) : Prop :=
  Blank p.wsName ∧ Blank p.wsEq ∧ Blank p.wsValue ∧ Blank p.wsAfter ∧
    p.name ≠ [] ∧ (∀ c ∈ p.name, attrChar c = true) ∧ ∀ v ∈ p.value, v.WF tokenChar

instance LinkParam.decidableWF (tokenChar : Char → Bool) (p : LinkParam) :
    Decidable (p.WF tokenChar) :=
  inferInstanceAs (Decidable (_ ∧ _))

/-- The table after the parameter is set into it: the value's text, `""` without one. -/
def LinkParam.apply (p : LinkParam) (t : Table) : Table :=
  tableSetn t p.name ((p.value.map PValue.text).getD [])

/-- A link-value `<target>` and its parameters, with the blanks before `<` and after `>`. -/
structure LinkSpec where
  target : List Char
  params : List LinkParam
  wsOpen : List Char
  wsTarget : List Char
  deriving DecidableEq, Repr

def LinkSpec.render (l : LinkSpec) : List Char :=
  l.wsOpen ++ '<' :: l.target ++ '>' :: l.wsTarget ++ (l.params.map LinkParam.render).flatten

def LinkSpec.WF (tokenChar : Char → Bool) (l : LinkSpec) : Prop :=
  Blank l.wsOpen ∧ Blank l.wsTarget ∧ '>' ∉ l.target ∧ ∀ p ∈ l.params, p.WF tokenChar

instance LinkSpec.decidableWF (tokenChar : Char → Bool) (l : LinkSpec) :
    Decidable (l.WF tokenChar) :=
  inferInstanceAs (Decidable (_ ∧ _))

/-- What `add_push` should see of a link-value: its target, and its parameters set one after
the other into an empty table. -/
def LinkSpec.value (l : LinkSpec) : LinkValue :=
  ⟨l.target, l.params.foldl (fun t p => p.apply t) []⟩

/-- Link-values joined by `,`. -/
def renderHeader : List LinkSpec → List Char
  | [] => []
  | l :: ls => l.render ++ (ls.map fun l => ',' :: l.render).flatten

/-- The `ptokenchar` of RFC 5988 as the comment in `inspect_link` quotes it. -/
def rfcPtokenChar (c : Char) : Bool :=
  match c with
  | '!' | '#' | '$' | '%' | '&' | '\x27' | '(' | ')' | '*' | '+' | '-' | '.' | '/' | ':' | '<'
  | '=' | '>' | '?' | '@' | '[' | ']' | '^' | '_' | '\x60' | '\x7b' | '|' | '\x7d' | '~' => true
  | _ => c.isDigit || c.isAlpha

/-- `ptoken_char` is the RFC's `ptokenchar` without `%`. -/
theorem ptokenChar_eq_rfc (c : Char) : ptokenChar c = (rfcPtokenChar c && c != '%') := by
  by_cases hm : c ∈ "!#$%&\x27()*+-./:<=>?@[]^_\x60\x7b|\x7d~".toList
  · -- the punctuation the RFC lists, one character at a time
    revert c; decide
  · -- off that list both matches fall through to their last arm
    simp only [String.toList, List.mem_cons, not_or, List.mem_nil_iff, not_false_eq_true,
      and_true] at hm
    unfold ptokenChar rfcPtokenChar ptokenChar.match_1 rfcPtokenChar.match_1
    simp [hm, Char.isAlphanum, Bool.or_comm]

/-! ## §3 — one parameter -/

/-- What may follow a parameter: the end of the header, the next `;` or a `,`. -/
def ParamStop (X : List Char) : Prop := ∀ c ∈ X.head?, c = ';' ∨ c = ','

theorem forall_mem_head?_cons {P : Char → Prop} {c : Char} {r : List Char} (h : P c) :
    ∀ x ∈ (c :: r).head?, P x := by
  simpa using h

theorem isWs_eq_true {c : Char} : isWs c = true ↔ c = ' ' ∨ c = '\t' := by
  simp [isWs]

theorem blank_char {c : Char} (h : isWs c = true) :
    attrChar c = false ∧ ptokenChar c = false ∧ c ≠ '"' := by
  rcases isWs_eq_true.mp h with rfl | rfl <;> decide

theorem isWs_of_attrChar {c : Char} (h : attrChar c = true) : isWs c = false := by
  cases hw : isWs c
  · rfl
  · simp [(blank_char hw).1] at h

theorem ptoken_char {c : Char} (h : ptokenChar c = true) : isWs c = false ∧ c ≠ '"' := by
  refine ⟨?_, fun e => by subst e; exact absurd h (by decide)⟩
  cases hw : isWs c
  · rfl
  · simp [(blank_char hw).2.1] at h

theorem stop_char {c : Char} (h : c = ';' ∨ c = ',') :
    isWs c = false ∧ attrChar c = false ∧ ptokenChar c = false ∧ c ≠ '=' ∧ c ≠ '"' := by
  rcases h with rfl | rfl <;> decide

/-- A value after `=`. -/
theorem readPvalue_of_drop {s b b' R : List Char} {i : Nat} {v : PValue}
    (h : s.drop i = b ++ '=' :: b' ++ v.render ++ R) (hb : Blank b) (hb' : Blank b')
    (hv : v.WF ptokenChar) (hR : ∀ c ∈ R.head?, ptokenChar c = false) :
    ∃ k, readPvalue s i = some (some v.text, k) ∧ s.drop k = R := by
  simp only [List.append_assoc, List.cons_append] at h
  have h1 := skipWs_of_drop h hb (forall_mem_head?_cons (by decide))
  have h2 := drop_add_length h
  have h3 := drop_succ_of_cons h2
  cases v with
  | quoted q =>
    obtain ⟨k, hq, hk⟩ := readDelimited_of_drop (o := '"') (c := '"') (t := q) (R := R)
      (by simpa [PValue.render] using h3) hb' (by decide) hv
    exact ⟨k, by simp [readPvalue, h1, readChr_of_drop '=' h2, readQstring, hq, PValue.text],
      hk⟩
  | ptoken t =>
    obtain ⟨ht, htp⟩ := hv
    obtain ⟨a, t', rfl⟩ := List.exists_cons_of_ne_nil ht
    have ha := ptoken_char (htp a (List.mem_cons_self a t'))
    obtain ⟨k₁, hq, hk₁⟩ := readDelimited_none_of_drop (o := '"') (c := '"')
      (by simpa [PValue.render] using h3) hb' (forall_mem_head?_cons ha)
    obtain ⟨k, ht, hk⟩ := readToken_of_drop (b := []) (t := a :: t') (by simpa using hk₁)
      (by simp [Blank]) ht htp (fun c hc => (ptoken_char hc).1) hR
    exact ⟨k, by simp [readPvalue, h1, readChr_of_drop '=' h2, readQstring, hq, readPtoken, ht,
      PValue.text], hk⟩

/-- No `=` after a name: no value, and the cursor is past the blanks. -/
theorem readPvalue_none_of_drop {s b X : List Char} {i : Nat} (h : s.drop i = b ++ X)
    (hb : Blank b) (hX : ParamStop X) :
    ∃ k, readPvalue s i = some (none, k) ∧ s.drop k = X := by
  have h1 := skipWs_of_drop h hb fun c hc => (stop_char (hX c hc)).1
  refine ⟨_, ?_, drop_add_length h⟩
  cases X with
  | nil => simp [readPvalue, h1]
  | cons x r =>
    have hx := (stop_char (hX x rfl)).2.2.2.1
    simp [readPvalue, h1, readChr_of_drop '=' (drop_add_length h), hx]

/-- A `;`, blanks and a name, and then whatever `read_pvalue` makes of the rest. -/
theorem readParam_of_name {s b u name R X w : List Char} {i : Nat} (t : Table)
    (h : s.drop i = b ++ ';' :: u ++ name ++ R) (hb : Blank b) (hu : Blank u) (hne : name ≠ [])
    (hname : ∀ c ∈ name, attrChar c = true) (hR : ∀ c ∈ R.head?, attrChar c = false)
    (hpv : ∀ k, s.drop k = R → ∃ v k', readPvalue s k = some (v, k') ∧ v.getD [] = w ∧
      s.drop k' = X) :
    ∃ k, readParam s i t = some ((true, tableSetn t name w), k) ∧ s.drop k = X := by
  simp only [List.append_assoc, List.cons_append] at h
  have h1 := skipWs_of_drop h hb (forall_mem_head?_cons (by decide))
  have h2 := drop_add_length h
  obtain ⟨k₁, hn, hk₁⟩ := readToken_of_drop
    (by simpa [List.append_assoc] using drop_succ_of_cons h2) hu hne hname
    (fun c hc => isWs_of_attrChar hc) hR
  obtain ⟨v, k, hv, hval, hk⟩ := hpv k₁ hk₁
  exact ⟨k, by simp [readParam, h1, readChr_of_drop ';' h2, readPname, hn, hv, hval], hk⟩

/-- **One parameter.** A well-formed `;name[=value]` is set into the table; the cursor is
past it, or past the blanks after it too. -/
theorem readParam_of_drop {s b X : List Char} {i : Nat} {p : LinkParam} (t : Table)
    (h : s.drop i = b ++ p.render ++ X) (hb : Blank b) (hp : p.WF ptokenChar)
    (hX : ParamStop X) :
    ∃ k b', Blank b' ∧ readParam s i t = some ((true, p.apply t), k) ∧
      s.drop k = b' ++ X := by
  obtain ⟨hwn, hwe, hwv, hwa, hne, hname, hval⟩ := hp
  cases hv : p.value with
  | none =>
    obtain ⟨k, hr, hk⟩ := readParam_of_name (u := p.wsName) (w := []) (X := X) t
      (by simpa [LinkParam.render, hv, List.append_assoc] using h) hb hwn hne hname
      (forall_mem_head?_append (fun c hc => (blank_char (hwa c hc)).1)
        fun c hc => (stop_char (hX c hc)).2.1)
      fun k hk => by
        obtain ⟨k', hpv, hk'⟩ := readPvalue_none_of_drop hk hwa hX
        exact ⟨none, k', hpv, rfl, hk'⟩
    exact ⟨k, [], by simp [Blank], by simpa [LinkParam.apply, hv] using hr, hk⟩
  | some v =>
    obtain ⟨k, hr, hk⟩ := readParam_of_name (u := p.wsName) (w := v.text)
      (X := p.wsAfter ++ X) t (by simpa [LinkParam.render, hv, List.append_assoc] using h) hb
      hwn hne hname
      (forall_mem_head?_append (fun c hc => (blank_char (hwe c hc)).1)
        (forall_mem_head?_cons (by decide)))
      fun k hk => by
        obtain ⟨k', hpv, hk'⟩ := readPvalue_of_drop (R := p.wsAfter ++ X)
          (by simpa [List.append_assoc] using hk) hwe hwv (hval v hv)
          (forall_mem_head?_append (fun c hc => (blank_char (hwa c hc)).2.1)
            fun c hc => (stop_char (hX c hc)).2.2.1)
        exact ⟨some v.text, k', hpv, rfl, hk'⟩
    exact ⟨k, p.wsAfter, hwa, by simpa [LinkParam.apply, hv] using hr, hk⟩

/-- A `,` or the end of the header: the parameter loop stops, and the table is kept. -/
theorem readParam_stop_of_drop {s b X : List Char} {i : Nat} (t : Table) (h : s.drop i = b ++ X)
    (hb : Blank b) (hX : ∀ c ∈ X.head?, c = ',') :
    ∃ k, readParam s i t = some ((false, t), k) ∧ s.drop k = X := by
  have h1 := skipWs_of_drop h hb fun c hc => (stop_char (Or.inr (hX c hc))).1
  refine ⟨_, ?_, drop_add_length h⟩
  cases X with
  | nil => simp [readParam, h1]
  | cons x r =>
    obtain rfl := hX x rfl
    simp [readParam, h1, readChr_of_drop ';' (drop_add_length h)]

/-! ## §4 — parameter lists, link-values, headers -/

theorem length_le_flatten {α : Type} (f : α → List Char) (hf : ∀ a, f a ≠ []) :
    ∀ xs : List α, xs.length ≤ (xs.map f).flatten.length
  | [] => le_refl 0
  | x :: xs => by
    have := List.length_pos.mpr (hf x)
    have := length_le_flatten f hf xs
    simp only [List.length_cons, List.map_cons, List.flatten_cons, List.length_append]
    omega

/-- **The parameter loop.** Well-formed parameters are set into the table one after the
other, and the loop goes on at the text after them. -/
theorem readParams_of_drop {s X : List Char} (hX : ParamStop X) :
    ∀ (ps : List LinkParam) (i : Nat) (b : List Char) (t : Table) (fuel : Nat),
      s.drop i = b ++ (ps.map LinkParam.render).flatten ++ X → Blank b →
      (∀ p ∈ ps, p.WF ptokenChar) → ps.length < fuel →
      ∃ k b', Blank b' ∧ s.drop k = b' ++ X ∧
        readParams s fuel i t =
          readParams s (fuel - ps.length) k (ps.foldl (fun t p => p.apply t) t)
  | [], i, b, t, fuel, h, hb, _, _ => ⟨i, b, hb, by simpa using h, by simp⟩
  | p :: ps, i, b, t, fuel, h, hb, hps, hf => by
    obtain ⟨fuel, rfl⟩ : ∃ f, fuel = f + 1 := ⟨fuel - 1, by simp at hf; omega⟩
    have hstop : ParamStop ((ps.map LinkParam.render).flatten ++ X) := by
      cases ps with
      | nil => simpa using hX
      | cons q qs => simp [ParamStop, LinkParam.render]
    obtain ⟨k, b', hb', hr, hk⟩ := readParam_of_drop t (by simpa [List.append_assoc] using h) hb
      (hps p (List.mem_cons_self p ps)) hstop
    obtain ⟨k', b'', hb'', hk', hrs⟩ := readParams_of_drop hX ps k b' (p.apply t) fuel
      (by simpa using hk) hb' (fun q hq => hps q (List.mem_cons_of_mem p hq))
      (by simp at hf; omega)
    refine ⟨k', b'', hb'', hk', ?_⟩
    simpa [readParams, hr] using hrs

/-- `read_sep` at a `,` or at the end of the header. -/
theorem readSep_of_drop {s b X : List Char} {i : Nat} (h : s.drop i = b ++ X) (hb : Blank b)
    (hX : ∀ c ∈ X.head?, c = ',') :
    ∃ k, readSep s i = some (decide (X ≠ []), k) ∧ s.drop k = X.tail := by
  have h1 := skipWs_of_drop h hb fun c hc => (stop_char (Or.inr (hX c hc))).1
  cases X with
  | nil => exact ⟨i + b.length, by simp [readSep, h1], by simpa using drop_add_length h⟩
  | cons x r =>
    obtain rfl := hX x rfl
    exact ⟨_, by simp [readSep, h1, readChr_of_drop ',' (drop_add_length h)],
      drop_succ_of_cons (drop_add_length h)⟩

/-- A round of the `read_link` loop, put together from its `read_link` and its parameter
loop. -/
theorem inspectRound_of_parts {s X link : List Char} {t : Table} {i k₁ k₂ : Nat}
    (h1 : readLink s i = some (some link, k₁))
    (h2 : readParams s (s.length + 1) k₁ [] = some (t, k₂))
    (h3 : s.drop k₂ = X) (hX : ∀ c ∈ X.head?, c = ',') :
    ∃ k, inspectRound s i = some (some (⟨link, t⟩, decide (X ≠ []), k)) ∧
      s.drop k = X.tail := by
  obtain ⟨k, hs, hk⟩ := readSep_of_drop (b := []) (by simpa using h3) (by simp [Blank]) hX
  exact ⟨k, by simp [inspectRound, h1, h2, hs], hk⟩

/-- `read_link` and the parameter loop over a well-formed link-value: the loop goes on at
the text `Y` after it, with the parameters set into the table. -/
theorem readLinkParams_of_drop {s Y : List Char} {l : LinkSpec} {i : Nat}
    (h : s.drop i = l.render ++ Y) (hl : l.WF ptokenChar) (hY : ParamStop Y) :
    ∃ k₁ k₂ b', Blank b' ∧ readLink s i = some (some l.target, k₁) ∧
      s.drop k₂ = b' ++ Y ∧
      l.params.length + Y.length ≤ s.length ∧
      readParams s (s.length + 1) k₁ [] =
        readParams s (s.length + 1 - l.params.length) k₂ l.value.params := by
  obtain ⟨hwo, hwt, htgt, hps⟩ := hl
  obtain ⟨k₁, hlink, hk₁⟩ := readDelimited_of_drop (o := '<') (c := '>') (b := l.wsOpen)
    (t := l.target) (R := l.wsTarget ++ (l.params.map LinkParam.render).flatten ++ Y)
    (by simpa [LinkSpec.render, List.append_assoc] using h) hwo (by decide) htgt
  have hlen : l.params.length + Y.length ≤ s.length := by
    have := congrArg List.length hk₁
    have := length_le_flatten LinkParam.render (by simp [LinkParam.render]) l.params
    simp only [List.length_drop, List.length_append] at *
    omega
  obtain ⟨k₂, b', hb', hk₂, hrs⟩ := readParams_of_drop hY l.params k₁ l.wsTarget []
    (s.length + 1) (by simpa [List.append_assoc] using hk₁) hwt hps (by omega)
  exact ⟨k₁, k₂, b', hb', hlink, hk₂, hlen, hrs⟩

/-- **One link-value.** A well-formed link-value followed by a `,` or by the end of the
header is handed to `add_push` as it is written. -/
theorem inspectRound_of_drop {s X : List Char} {l : LinkSpec} {i : Nat}
    (h : s.drop i = l.render ++ X) (hl : l.WF ptokenChar) (hX : ∀ c ∈ X.head?, c = ',') :
    ∃ k, inspectRound s i = some (some (l.value, decide (X ≠ []), k)) ∧
      s.drop k = X.tail := by
  obtain ⟨k₁, k₂, b', hb', hlink, hk₂, hlen, hrs⟩ :=
    readLinkParams_of_drop h hl fun c hc => Or.inr (hX c hc)
  obtain ⟨k₃, hstop, hk₃⟩ := readParam_stop_of_drop l.value.params hk₂ hb' hX
  have h2 : readParams s (s.length + 1) k₁ [] = some (l.value.params, k₃) := by
    rw [hrs, show s.length + 1 - l.params.length = (s.length - l.params.length) + 1 by omega]
    simp [readParams, hstop]
  exact inspectRound_of_parts hlink h2 hk₃ hX

theorem inspectLoop_of_last {s : List Char} {i k fuel : Nat} {v : LinkValue}
    (hr : inspectRound s i = some (some (v, false, k))) :
    inspectLoop s (fuel + 1) i = some [v] := by
  simp [inspectLoop, hr]

theorem inspectLoop_of_sep {s : List Char} {i k fuel : Nat} {v : LinkValue}
    (hr : inspectRound s i = some (some (v, true, k))) :
    inspectLoop s (fuel + 1) i = (v :: ·) <$> inspectLoop s fuel k := by
  simp [inspectLoop, hr]

/-- The `read_link` loop over well-formed link-values joined by `,`. -/
theorem inspectLoop_of_drop {s : List Char} :
    ∀ (ls : List LinkSpec) (l : LinkSpec) (i fuel : Nat),
      s.drop i = l.render ++ (ls.map fun l => ',' :: l.render).flatten → l.WF ptokenChar →
      (∀ l' ∈ ls, l'.WF ptokenChar) → ls.length < fuel →
      inspectLoop s fuel i = some (l.value :: ls.map LinkSpec.value)
  | [], l, i, fuel, h, hl, _, hf => by
    obtain ⟨fuel, rfl⟩ : ∃ f, fuel = f + 1 := ⟨fuel - 1, by omega⟩
    obtain ⟨k, hr, -⟩ := inspectRound_of_drop (X := []) (by simpa using h) hl (by simp)
    exact inspectLoop_of_last hr
  | l' :: ls, l, i, fuel, h, hl, hls, hf => by
    obtain ⟨fuel, rfl⟩ : ∃ f, fuel = f + 1 := ⟨fuel - 1, by simp at hf; omega⟩
    obtain ⟨k, hr, hk⟩ := inspectRound_of_drop
      (X := ',' :: (l'.render ++ (ls.map fun l => ',' :: l.render).flatten)) (by simpa using h) hl
      (forall_mem_head?_cons rfl)
    rw [inspectLoop_of_sep hr, inspectLoop_of_drop ls l' k fuel (by simpa using hk)
      (hls l' (List.mem_cons_self _ _)) (fun x hx => hls x (List.mem_cons_of_mem _ hx))
      (by simp at hf; omega)]
    rfl

/-- **Round trip.** Well-formed link-values, rendered with any blanks between their tokens
and joined by `,`, are handed to `add_push` one by one and in order, each with its target
and the table its parameters build. -/
theorem inspectLink_renderHeader (ls : List LinkSpec) (hls : ∀ l ∈ ls, l.WF ptokenChar) :
    inspectLink (renderHeader ls) = some (ls.map LinkSpec.value) := by
  cases ls with
  | nil => rfl
  | cons l ls =>
    have := length_le_flatten (fun l : LinkSpec => ',' :: l.render) (by simp) ls
    refine inspectLoop_of_drop ls l 0 _ (by simp [renderHeader]) (hls l (List.mem_cons_self _ _))
      (fun x hx => hls x (List.mem_cons_of_mem _ hx)) ?_
    simp only [renderHeader, List.length_append]
    omega

/-- Two link-values, the second with a quoted value and blanks. -/
theorem inspectLink_renderHeader_two_links :
    let ls : List LinkSpec :=
      [⟨"/a.css".toList, [⟨"rel".toList, some (.ptoken "preload".toList), [], [], [], []⟩],
          [], []⟩,
        ⟨"/b.js".toList,
          [⟨"rel".toList, some (.quoted "preload nopush".toList), [' '], [], [], []⟩],
          [' '], []⟩]
    (∀ l ∈ ls, l.WF ptokenChar) ∧
      inspectLink (renderHeader ls) = some (ls.map LinkSpec.value) :=
  ⟨by decide, inspectLink_renderHeader _ (by decide)⟩

/-- A `%` is a `ptokenchar` of the grammar that `read_ptoken` does not accept: the value
`%` is lost, and with it every link-value after it in the header. -/
theorem inspectLink_rejects_percent_ptoken :
    let ls : List LinkSpec :=
      [⟨"a".toList, [⟨"x".toList, some (.ptoken "%".toList), [], [], [], []⟩], [], []⟩,
        ⟨"b".toList, [], [], []⟩]
    (∀ l ∈ ls, l.WF rfcPtokenChar) ∧
      inspectLink (renderHeader ls) = some [⟨"a".toList, [("x".toList, [])]⟩] := by
  decide

/-! ## §5 — parameter lists that end badly -/

/-- The three ways a parameter list can end without a well-formed parameter. -/
inductive BadTail where
  /-- `;` and blanks, with no name after them. -/
  | semi (ws : List Char)
  /-- `;name=` with no value after it. -/
  | noValue (name wsEq wsValue : List Char)
  /-- `;name="tok` with the quote never closed. -/
  | openQuote (name wsEq wsValue tok : List Char)
  deriving DecidableEq, Repr

def BadTail.render : BadTail → List Char
  | .semi ws => ';' :: ws
  | .noValue name we wv => ';' :: name ++ we ++ '=' :: wv
  | .openQuote name we wv tok => ';' :: name ++ we ++ '=' :: wv ++ '"' :: tok

def BadTail.WF : BadTail → Prop
  | .semi ws => Blank ws
  | .noValue name we wv =>
    name ≠ [] ∧ (∀ c ∈ name, attrChar c = true) ∧ Blank we ∧ Blank wv
  | .openQuote name we wv tok =>
    name ≠ [] ∧ (∀ c ∈ name, attrChar c = true) ∧ Blank we ∧ Blank wv ∧
      ∀ c ∈ tok, ptokenChar c = true

instance BadTail.decidableWF : ∀ bt : BadTail, Decidable bt.WF
  | .semi _ => inferInstanceAs (Decidable (Blank _))
  | .noValue .. => inferInstanceAs (Decidable (_ ∧ _))
  | .openQuote .. => inferInstanceAs (Decidable (_ ∧ _))

/-- What `read_param` sets for the tail: nothing for a bare `;`, `""` for a name with `=`
and no value, and for an unclosed quote the ptoken after it. -/
def BadTail.apply : BadTail → Table → Table
  | .semi _, t => t
  | .noValue name _ _, t => tableSetn t name []
  | .openQuote name _ _ tok, t => tableSetn t name tok

/-- The text after an unclosed quote holds no quote that would close it. -/
def BadTail.QuoteFree : BadTail → List Char → Prop
  | .openQuote .., X => '"' ∉ X
  | _, _ => True

instance BadTail.decidableQuoteFree : ∀ (bt : BadTail) (X : List Char), Decidable (bt.QuoteFree X)
  | .openQuote .., _ => inferInstanceAs (Decidable (_ ∉ _))
  | .semi _, _ => instDecidableTrue
  | .noValue .., _ => instDecidableTrue

/-- The tails the code keeps by design: a `;` with no name after it ends the parameter loop,
and a name with `=` and no value gets `""` (`/* value is optional */`). An unclosed quote is
not one of them. -/
def BadTail.Designed : BadTail → Prop
  | .openQuote .. => False
  | _ => True

instance BadTail.decidableDesigned : ∀ bt : BadTail, Decidable bt.Designed
  | .openQuote .. => inferInstanceAs (Decidable False)
  | .semi _ | .noValue .. => inferInstanceAs (Decidable True)

/-- `</a>;x="b`: the quoted `b` is read as the value of `x`. -/
example : inspectLink "</a>;x=\"b".toList = some [⟨"/a".toList, [("x".toList, "b".toList)]⟩] := by
  rfl

theorem mkStr_eq_some {s t : List Char} {i e : Nat} (h : mkStr s i e = some t) :
    t = (s.drop i).take (e - i) := by
  unfold mkStr at h
  split at h
  · split at h
    · exact (Option.some.inj h).symm
    · cases h; rw [show e - i = 0 by omega]; rfl
  · cases h

theorem mem_scan {s : List Char} {p : Char → Bool} {j : Nat} {x : Char}
    (hx : x ∈ (s.drop j).take (scanEnd s p j - j)) : p x = true := by
  have hpre := List.takeWhile_prefix p (l := s.drop j)
  rw [show scanEnd s p j - j = ((s.drop j).takeWhile p).length by simp [scanEnd],
    ← List.prefix_iff_eq_take.mp hpre] at hx
  exact List.mem_takeWhile_imp hx

theorem readDelimited_some {s t : List Char} {o c : Char} {i k : Nat}
    (h : readDelimited s o c i = some (some t, k)) : c ∉ t := by
  simp only [readDelimited, skipWs_eq] at h
  generalize scanEnd s isWs i = j at h
  by_cases hj : j < s.length
  · simp only [hj, decide_True, Option.bind_eq_bind, Option.some_bind, if_true,
      readChr_of_lt s o hj] at h
    split at h
    · simp only [findChr_eq, Option.some_bind] at h
      by_cases he : scanEnd s (· != c) (j + 1) < s.length
      · simp only [he, if_true, Option.bind_eq_some, pure, Option.some.injEq, Prod.mk.injEq] at h
        obtain ⟨a, ha, rfl, -⟩ := h
        rw [mkStr_eq_some ha]
        exact fun hc => by simpa using mem_scan hc
      · simp [he] at h
    · simp at h
  · simp [hj] at h

theorem readToken_some {s t : List Char} {p : Char → Bool} {i k : Nat}
    (h : readToken s p i = some (some t, k)) : t ≠ [] ∧ ∀ x ∈ t, p x = true := by
  simp only [readToken, skipWs_eq] at h
  generalize scanEnd s isWs i = j at h
  by_cases hj : j < s.length
  · simp only [hj, decide_True, Option.bind_eq_bind, Option.some_bind, if_true,
      scanWhile_eq s p (s.length + 1) j (by omega)] at h
    by_cases hlt : j < scanEnd s p j
    · simp only [hlt, if_true, Option.bind_eq_some, pure, Option.some.injEq, Prod.mk.injEq] at h
      obtain ⟨a, ha, rfl, -⟩ := h
      have hle := scanEnd_le s p hj.le
      rw [mkStr_eq_some ha]
      refine ⟨?_, fun x hx => mem_scan hx⟩
      simp only [ne_eq, List.take_eq_nil_iff, List.drop_eq_nil_iff]
      omega
    · simp [hlt] at h
  · simp [hj] at h

theorem readPvalue_some {s v : List Char} {i k : Nat} (h : readPvalue s i = some (some v, k)) :
    '"' ∉ v := by
  simp only [readPvalue, skipWs_eq] at h
  generalize scanEnd s isWs i = j at h
  by_cases hj : j < s.length
  · simp only [hj, decide_True, Option.bind_eq_bind, Option.some_bind, if_true,
      readChr_of_lt s _ hj] at h
    split at h
    · rcases hq : readQstring s (j + 1) with _ | ⟨_ | r, k'⟩ <;> simp only [hq] at h
      · cases h
      · exact fun hm => (ptoken_char ((readToken_some h).2 _ hm)).2 rfl
      · cases h
        exact readDelimited_some hq
    · simp at h
  · simp [hj] at h

theorem readParam_table {s : List Char} {t t' : Table} {ok : Bool} {i k : Nat}
    (h : readParam s i t = some ((ok, t'), k)) :
    t' = t ∨ ∃ name val, name ≠ [] ∧ (∀ c ∈ name, attrChar c = true) ∧ '"' ∉ val ∧
      t' = tableSetn t name val := by
  simp only [readParam, skipWs_eq] at h
  generalize scanEnd s isWs i = j at h
  by_cases hj : j < s.length
  · by_cases hc : s[j] = ';'
    · simp only [hj, decide_True, Option.bind_eq_bind, Option.some_bind, if_true,
        readChr_of_lt s _ hj, hc] at h
      rcases hn : readPname s (j + 1) with _ | ⟨_ | name, k'⟩ <;> rw [hn] at h
      · cases h
      · simp at h; exact Or.inl h.1.2.symm
      · rcases hv : readPvalue s k' with _ | ⟨v, k''⟩ <;>
          simp only [hv, Option.some_bind, Option.bind_eq_bind] at h
        · cases h
        · simp only [pure, Option.some.injEq, Prod.mk.injEq] at h
          obtain ⟨⟨-, rfl⟩, -⟩ := h
          obtain ⟨hne, hname⟩ := readToken_some hn
          refine Or.inr ⟨name, v.getD [], hne, hname, ?_, rfl⟩
          rcases v with _ | v
          · simp
          · exact readPvalue_some hv
    · simp [hj, readChr_of_lt s _ hj, hc] at h; exact Or.inl h.1.2.symm
  · simp [hj] at h; exact Or.inl h.1.2.symm

/-- A parameter table that a list of well-formed parameters builds from the empty one. -/
def BuiltTable (t : Table) : Prop :=
  ∃ ps : List LinkParam, (∀ p ∈ ps, p.WF ptokenChar) ∧
    ps.foldl (fun t p => p.apply t) [] = t

theorem builtTable_tableSetn {t : Table} (ht : BuiltTable t) {name val : List Char}
    (hne : name ≠ []) (hname : ∀ c ∈ name, attrChar c = true) (hval : '"' ∉ val) :
    BuiltTable (tableSetn t name val) := by
  obtain ⟨ps, hps, rfl⟩ := ht
  let p : LinkParam := ⟨name, if val = [] then none else some (.quoted val), [], [], [], []⟩
  have hp : p.WF ptokenChar := by
    refine ⟨by simp [Blank], by simp [Blank], by simp [Blank], by simp [Blank], hne, hname, ?_⟩
    intro v hv
    by_cases h0 : val = [] <;> simp only [p, h0, if_true, if_false, Option.mem_def,
      Option.some.injEq, reduceCtorEq] at hv
    exact hv ▸ hval
  refine ⟨ps ++ [p], fun q hq => ?_, ?_⟩
  · rcases List.mem_append.mp hq with hq | hq
    · exact hps q hq
    · rw [List.mem_singleton.mp hq]; exact hp
  · rw [List.foldl_append]
    simp only [List.foldl_cons, List.foldl_nil, LinkParam.apply, p]
    split <;> simp_all [PValue.text]

theorem readParams_built (s : List Char) :
    ∀ (fuel i : Nat) (t t' : Table) (k : Nat), readParams s fuel i t = some (t', k) →
      BuiltTable t → BuiltTable t'
  | 0, _, _, _, _, h, _ => by cases h
  | fuel + 1, i, t, t', k, h, ht => by
    rcases hr : readParam s i t with _ | ⟨⟨ok, t₁⟩, k₁⟩ <;>
      simp only [readParams, hr, Option.bind_eq_bind, Option.none_bind, Option.some_bind] at h
    · cases h
    have h₁ : BuiltTable t₁ := by
      rcases readParam_table hr with rfl | ⟨name, val, hne, hname, hval, rfl⟩
      · exact ht
      · exact builtTable_tableSetn ht hne hname hval
    cases ok
    · simp only [pure, Option.some.injEq, Prod.mk.injEq] at h
      exact h.1 ▸ h₁
    · exact readParams_built s fuel k₁ t₁ t' k h h₁

theorem inspectRound_sound {s : List Char} {i k : Nat} {v : LinkValue} {sep : Bool}
    (h : inspectRound s i = some (some (v, sep, k))) :
    ∃ l : LinkSpec, l.WF ptokenChar ∧ l.value = v := by
  rcases hl : readLink s i with _ | ⟨_ | link, k₁⟩ <;>
    simp only [inspectRound, hl, Option.bind_eq_bind, Option.none_bind, Option.some_bind] at h
  · cases h
  · cases h
  rcases hp : readParams s (s.length + 1) k₁ [] with _ | ⟨t, k₂⟩ <;>
    simp only [hp, Option.none_bind, Option.some_bind] at h
  · cases h
  rcases hs : readSep s k₂ with _ | ⟨sep', k₃⟩ <;>
    simp only [hs, Option.none_bind, Option.some_bind] at h
  · cases h
  simp only [pure, Option.some.injEq, Prod.mk.injEq] at h
  obtain ⟨ps, hps, rfl⟩ := readParams_built s _ _ [] t _ hp ⟨[], by simp, rfl⟩
  exact ⟨⟨link, ps, [], []⟩,
    ⟨by simp [Blank], by simp [Blank], readDelimited_some hl, hps⟩, h.1⟩

theorem inspectLoop_sound (s : List Char) :
    ∀ (fuel i : Nat) (vs : List LinkValue), inspectLoop s fuel i = some vs →
      ∀ v ∈ vs, ∃ l : LinkSpec, l.WF ptokenChar ∧ l.value = v
  | 0, _, _, h => by cases h
  | fuel + 1, i, vs, h => by
    rcases hr : inspectRound s i with _ | _ | ⟨v, _ | _, k⟩ <;>
      simp only [inspectLoop, hr, Option.bind_eq_bind, Option.none_bind, Option.some_bind] at h
    · cases h
    · cases h; simp
    · cases h
      simpa using inspectRound_sound hr
    · obtain ⟨vs', hvs', rfl⟩ := Option.map_eq_some'.mp h
      intro w hw
      rcases List.mem_cons.mp hw with rfl | hw
      · exact inspectRound_sound hr
      · exact inspectLoop_sound s fuel k vs' hvs' w hw

/-- **Soundness of the scanner.** On every string `inspect_link` ends, and every link-value
it hands to `add_push` is what some well-formed link-value would give: a target without
`>`, and a table that well-formed parameters build. With `inspectLink_renderHeader` the
values `inspect_link` can produce are exactly those of the grammar. -/
theorem inspectLink_sound (s : List Char) :
    ∃ vs, inspectLink s = some vs ∧
      ∀ v ∈ vs, ∃ l : LinkSpec, l.WF ptokenChar ∧ l.value = v := by
  obtain ⟨vs, hvs⟩ := inspectLoop_isSome s (s.length + 1) 0 (Nat.zero_le _) (by omega)
  exact ⟨vs, hvs, inspectLoop_sound s _ 0 vs hvs⟩

end H2
