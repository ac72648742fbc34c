import Mathlib.Data.List.Basic

/-!
# H2Push — requests, pushes and the `apr_table_t` they carry

The push pipeline passes three kinds of value between its stages: the `apr_table_t` of
header fields (and of link parameters), the `h2_request` of a synthetic push, and the
`h2_push` that wraps it with an optional priority hint.

`apr_table_t` belongs to APR, not to this repository. It is modelled as its entries in
insertion order, with the three operations `h2_push.c` calls: `apr_table_get` (the value
of the first entry whose key matches), `apr_table_setn` (the first match takes the new
value and later matches are dropped; without a match the entry is appended) and
`apr_table_clear`. Keys match case-insensitively, as `strcasecmp` does: only ASCII
letters fold.

The one fact the rest of the development needs is `tableGet_tableSetn`: after a `setn`,
a lookup under a matching name sees the new value and every other lookup is unchanged.
-/

namespace H2

/-- `strcasecmp(a, b) == 0`: equal up to ASCII case. -/
def caseEq (a b : List Char) : Bool := a.map Char.toLower == b.map Char.toLower

theorem caseEq_iff {a b : List Char} :
    caseEq a b = true ↔ a.map Char.toLower = b.map Char.toLower := by
  simp [caseEq]

theorem caseEq_comm (a b : List Char) : caseEq a b = caseEq b a := by
  simp only [caseEq, Bool.beq_comm]

theorem caseEq_congr_left {a b : List Char} (h : caseEq a b = true) (c : List Char) :
    caseEq a c = caseEq b c := by
  simp only [caseEq, caseEq_iff.mp h]

theorem caseEq_congr_right {b c : List Char} (h : caseEq b c = true) (a : List Char) :
    caseEq a b = caseEq a c := by
  simp only [caseEq, caseEq_iff.mp h]

/-- An `apr_table_t`: its entries, key and value, in insertion order. -/
abbrev Table := List (List Char × List Char)

/-- `apr_table_get`: the value of the first entry whose key matches. -/
def tableGet (t : Table) (key : List Char) : Option (List Char) :=
  (t.find? fun e => caseEq e.1 key).map Prod.snd

/-- `apr_table_setn`: the first matching entry keeps its key and takes the new value,
later matching entries are removed; without a match the entry is appended. -/
def tableSetn : Table → List Char → List Char → Table
  | [], key, val => [(key, val)]
  | e :: t, key, val =>
    if caseEq e.1 key then (e.1, val) :: t.filter (fun e' => !caseEq e'.1 key)
    else e :: tableSetn t key val

@[simp] theorem tableGet_nil (key : List Char) : tableGet [] key = none := rfl

theorem tableGet_cons (e : List Char × List Char) (t : Table) (key : List Char) :
    tableGet (e :: t) key = if caseEq e.1 key then some e.2 else tableGet t key := by
  by_cases h : caseEq e.1 key <;> simp [tableGet, List.find?_cons, h]

/-- Dropping the entries matching `key` hides nothing from a lookup under a name that
does not match `key`. -/
theorem tableGet_filter_of_ne (t : Table) {key name : List Char}
    (hne : caseEq key name = false) :
    tableGet (t.filter fun e => !caseEq e.1 key) name = tableGet t name := by
  induction t with
  | nil => rfl
  | cons e t ih =>
    by_cases hk : caseEq e.1 key
    · simp [List.filter_cons, hk, tableGet_cons, caseEq_congr_left hk, hne, ih]
    · simp [List.filter_cons, hk, tableGet_cons, ih]

/-- **Lookup after `apr_table_setn`.** A name matching the key sees the new value; every
other name sees what it saw before. -/
theorem tableGet_tableSetn (t : Table) (key val name : List Char) :
    tableGet (tableSetn t key val) name =
      if caseEq key name then some val else tableGet t name := by
  induction t with
  | nil => simp [tableSetn, tableGet_cons]
  | cons e t ih =>
    by_cases he : caseEq e.1 key
    · cases hn : caseEq key name
      · simp [tableSetn, he, tableGet_cons, caseEq_congr_left he, hn, tableGet_filter_of_ne t hn]
      · simp [tableSetn, he, tableGet_cons, caseEq_congr_left he, hn]
    · cases hn : caseEq key name
      · simp [tableSetn, he, tableGet_cons, ih, hn]
      · have hen : caseEq e.1 name = false := by
          rw [← caseEq_congr_right hn]; simpa using he
        simp [tableSetn, he, tableGet_cons, ih, hn, hen]

/-- `h2_push_policy`. -/
inductive PushPolicy where
  | none
  | default
  | head
  | fastLoad
  deriving DecidableEq, Repr

/-- `policy_str`: the name the `push-policy` response header carries. -/
def policyStr : PushPolicy → List Char
  | .none => "none".toList
  | .fastLoad => "fast-load".toList
  | .head => "head".toList
  | .default => "default".toList

/-- `h2_dependency` of an `h2_priority`. -/
inductive Dependency where
  | after
  | interleaved
  | before
  deriving DecidableEq, Repr

/-- The fields of an `h2_request` that the push pipeline sets or reads. -/
structure Request where
  method : List Char
  scheme : List Char
  authority : List Char
  path : List Char
  headers : Table
  deriving DecidableEq, Repr

/-- `h2_push`: the synthetic request and its optional priority hint. -/
structure Push where
  req : Request
  priority : Option Dependency
  deriving DecidableEq, Repr

end H2
