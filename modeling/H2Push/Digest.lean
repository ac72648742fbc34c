import H2Push.Diary
import H2Push.GsetEncoder
import Mathlib.Data.List.Destutter

/-!
# H2Push — the cache digest of a push diary

`h2_push_diary_digest_get` turns the diary into a Golomb-coded set. It rounds the entry
count and `maxP` up to powers of two, takes their exponents `log2n` and `log2pmax`, and
keeps `log2p = min (mask_bits - log2n) log2pmax` bits of remainder. Every hash is shifted
right by `delta_bits = mask_bits - log2n - log2p` and stored in `hashes`, `qsort` sorts
them, and each value that differs from the one before it goes to `gset_encode_next`. The
result is the encoder's buffer and `offset + 1` bytes of it.

`hashes` and the growths of the buffer come from one pool, and the loop loads every
`hashes[i]` from it as it stands at that point (`encodeHashes`). `poolByte` lays the pool
out from `hashes` on: `apr_pcalloc(pool, hash_count)` hands `hashes` `hash_count` bytes,
rounded up to 8, while the store `hashes[i]` writes 8 bytes from `8 * i`; each granted
growth is carved right after the block before it, over stored values. The layout takes the
pool's current block to have room for the call, and the log calls to allocate nothing.

* While the buffer has not grown, each load gives the value stored, and the loop is the
  loop over the sorted values (`encodeHashes_eq_encodeSorted`). A digest whose code fits in
  the first buffer is the Golomb-coded set of the distinct shifted hashes
  (`h2PushDiaryDigestGet_golombSet_of_fit`).
* The first growth lands on stored values not yet loaded, and the digest loses them
  (`h2PushDiaryDigestGet_loses_values`).
* The status of `gset_encode_next` is dropped by the loop, and the function returns
  `APR_SUCCESS` whatever happened. `digestRun` returns the statuses of those calls beside
  the outputs, so that a refused growth can be seen (`h2PushDiaryDigestGet_drops_enomem`).
-/

namespace H2

instance u64LeIsTrans : IsTrans UInt64 (· ≤ ·) := ⟨fun _ _ _ => UInt64.le_trans⟩

instance u64LeIsTotal : IsTotal UInt64 (· ≤ ·) := ⟨UInt64.le_total⟩

instance u64LeIsAntisymm : IsAntisymm UInt64 (· ≤ ·) :=
  ⟨fun _ _ h₁ h₂ => UInt64.toNat.inj (Nat.le_antisymm h₁ h₂)⟩

/-- What `h2_push_diary_digest_get` hands back: its status, the buffer `*pdata` points to,
and `*plen`. -/
structure Digest where
  status : Status
  data : List UInt8
  plen : Nat
  deriving DecidableEq, Repr

/-- The test that selects the entries for the digest: `!authority || !diary->authority ||
!strcmp("*", authority) || !strcmp(diary->authority, authority)`. -/
def authorityMatches (diaryAuthority authority : Option (List Char)) : Bool :=
  match authority, diaryAuthority with
  | none, _ => true
  | some _, none => true
  | some a, some da => a == "*".toList || da == a

/-- An `int` stored into an `unsigned char`. -/
def uchar (x : Int) : Nat := (x % 256).toNat

/-- The encoder as `h2_push_diary_digest_get` sets it up: a zeroed 512-byte buffer holding
`log2n` and `log2p`, the writer just before byte `2`, `last = 0`. -/
def digestEncoder (log2n log2p : Nat) (pool : List Bool) : GsetEncoder :=
  { fixedBits := log2p, pool := pool,
    data := UInt8.ofNat log2n :: UInt8.ofNat log2p :: List.replicate 510 0, datalen := 512,
    offset := 1, bit := 8, last := 0 }

/-- The loop over the sorted values as they were stored: a value equal to the one before it
is skipped, every other one goes to `gset_encode_next`. It is the loop of the code as long
as each load of `hashes[i]` gives the value stored (`encodeHashes_eq_encodeSorted`). The
statuses of the calls, which the code drops, are returned beside the encoder. -/
def encodeSorted (e : GsetEncoder) : Option UInt64 → List UInt64 → GsetEncoder × List Status
  | _, [] => (e, [])
  | prev, h :: hs =>
    if prev = some h then encodeSorted e prev hs
    else
      let r := gsetEncodeNext e h
      let rest := encodeSorted r.1 (some h) hs
      (rest.1, r.2 :: rest.2)

/-- `hashes` after the stores `hashes[i] = entry->hash >> delta_bits` and `qsort`: the
shifted hashes in ascending order. `qsort` is `insertionSort`: both give the one ascending
order of the values. -/
def sortedHashes (entries : List UInt64) (deltaBits : Nat) : List UInt64 :=
  (entries.map (· >>> deltaBits.toUInt64)).insertionSort (· ≤ ·)

/-- `apr_pcalloc(pool, hash_count)`: the bytes of the block `hashes` points to. -/
def hashesBlockBytes (hashCount : Nat) : Nat := hashCount

/-- The end of the bytes the store `hashes[i]` writes: `sizeof(apr_uint64_t)` bytes from
`8 * i`. -/
def hashesStoreEnd (i : Nat) : Nat := 8 * i + 8

/-- `APR_ALIGN_DEFAULT`: the pool hands out every request rounded up to a multiple of 8. -/
def aprAlign (n : Nat) : Nat := (n + 7) / 8 * 8

/-- Byte `a` from `hashes` on once the stores and `qsort` are done: the sorted values,
`8` bytes each, least significant byte first; `0` past them, where nothing is loaded. -/
def storedByte (stored : List UInt64) (a : Nat) : UInt8 :=
  UInt8.ofNat ((stored.getD (a / 8) 0).toNat / 256 ^ (a % 8))

/-- Where the growth blocks, carved from `start` on, put byte `a`: the block of `2 * D`
bytes follows those of `1024 .. D` bytes, at `start + 2 * D - 1024`, so byte `a` lies in
the block of `2 ^ log2 r` bytes, `r = a + 1024 - start`, at offset `r - 2 ^ log2 r`. -/
def growthOffset (start a : Nat) : Nat :=
  a + 1024 - start - 2 ^ Nat.log2 (a + 1024 - start)

/-- Byte `a` from `hashes` on, with the encoder at `e`. `hashes` takes `aprAlign hash_count`
bytes of the pool and the growths the blocks after it. A byte of a growth block so far is
the buffer's: the live block holds `e.data`, an earlier one what `memcpy` copied on from
it, the prefix of `e.data` that no later write reaches. Every other byte holds what the
stores and `qsort` left. -/
def poolByte (stored : List UInt64) (e : GsetEncoder) (a : Nat) : UInt8 :=
  if aprAlign (hashesBlockBytes stored.length) ≤ a ∧
      a + 1024 < aprAlign (hashesBlockBytes stored.length) + 2 * e.datalen then
    e.data.getD (growthOffset (aprAlign (hashesBlockBytes stored.length)) a) 0
  else storedByte stored a

/-- The `n` bytes of `mem` from `a`, least significant first, as a number. -/
def loadLE (mem : Nat → UInt8) (a : Nat) : Nat → Nat
  | 0 => 0
  | n + 1 => (mem a).toNat + 256 * loadLE mem (a + 1) n

/-- `hashes[i]`, loaded from the pool with the encoder at `e`. -/
def hashesAt (stored : List UInt64) (e : GsetEncoder) (i : Nat) : UInt64 :=
  UInt64.ofNat (loadLE (poolByte stored e) (8 * i) 8)

/-- `n` rounds from `i` of the loop `if (!i || (hashes[i] != hashes[i-1]))
gset_encode_next(&encoder, hashes[i]);`, each `hashes[...]` loaded from the pool as the
rounds before have left it. The statuses of the calls, which the code drops, are returned
beside the encoder. -/
def encodeHashes (stored : List UInt64) : GsetEncoder → Nat → Nat → GsetEncoder × List Status
  | e, _, 0 => (e, [])
  | e, i, n + 1 =>
    if i ≠ 0 ∧ hashesAt stored e i = hashesAt stored e (i - 1) then
      encodeHashes stored e (i + 1) n
    else
      let r := gsetEncodeNext e (hashesAt stored e i)
      let rest := encodeHashes stored r.1 (i + 1) n
      (rest.1, r.2 :: rest.2)

/-- `h2_push_diary_digest_get`, with the statuses of its `gset_encode_next` calls beside
its outputs. `pool` answers the growths of the buffer. `none` is undefined behaviour: a
signed overflow in `ceil_power_of_2`, the shift `fixed_mask << fixed_bits` by `64` or more,
or a shift of a hash by `delta_bits` outside `[0, 64)`. -/
def digestRun (diary : Diary) (pool : List Bool) (maxP : Int) (authority : Option (List Char)) :
    Option (Digest × List Status) := do
  let N ← ceilPowerOf2 diary.entries.length
  let log2n := h2Log2 N
  let log2pmax := h2Log2 (← ceilPowerOf2 maxP)
  let log2p := uchar (min ((diary.maskBits : Int) - log2n) log2pmax)
  let deltaBits : Int := diary.maskBits - (log2n + log2p)
  if 64 ≤ log2p then none
  let e := digestEncoder log2n log2p pool
  if authorityMatches diary.authority authority then
    if diary.entries ≠ [] ∧ ¬ (0 ≤ deltaBits ∧ deltaBits < 64) then none
    let r := encodeHashes (sortedHashes diary.entries deltaBits.toNat) e 0 diary.entries.length
    some (⟨.success, r.1.data, r.1.offset + 1⟩, r.2)
  else some (⟨.success, e.data, e.offset + 1⟩, [])

/-- `h2_push_diary_digest_get`: the status, `*pdata` and `*plen`. -/
def h2PushDiaryDigestGet (diary : Diary) (pool : List Bool) (maxP : Int)
    (authority : Option (List Char)) : Option Digest :=
  (digestRun diary pool maxP authority).map Prod.fst

/-! ## §1 — the loop over the sorted values -/

section Loop

variable {e : GsetEncoder} {hdr : List UInt8} {bs : List Bool}

theorem encodeSorted_of_eq (e : GsetEncoder) {prev : Option UInt64} {x : UInt64}
    (hx : prev = some x) (hs : List UInt64) :
    encodeSorted e prev (x :: hs) = encodeSorted e prev hs := by
  simp [encodeSorted, hx]

theorem encodeSorted_of_ne (e : GsetEncoder) {prev : Option UInt64} {x : UInt64}
    (hx : prev ≠ some x) (hs : List UInt64) :
    encodeSorted e prev (x :: hs) =
      ((encodeSorted (gsetEncodeNext e x).1 (some x) hs).1,
        (gsetEncodeNext e x).2 :: (encodeSorted (gsetEncodeNext e x).1 (some x) hs).2) := by
  simp [encodeSorted, hx]

/-- One value with a pool that grants every block: `gset_encode_next` succeeds and appends
the code of the gap. -/
theorem gsetEncodeNext_encodes (h : Encodes e hdr bs) (hpool : e.pool = [])
    (hfix : e.fixedBits < 64) {x : UInt64} (hle : e.last ≤ x) :
    (gsetEncodeNext e x).2 = .success ∧ (gsetEncodeNext e x).1.pool = [] ∧
      (gsetEncodeNext e x).1.last = x ∧ (gsetEncodeNext e x).1.fixedBits = e.fixedBits ∧
      Encodes (gsetEncodeNext e x).1 hdr (bs ++ riceCode e.fixedBits (x.toNat - e.last.toNat)) := by
  rw [gsetEncodeNext_eq e x hle hfix]
  obtain ⟨hs, hp, he⟩ := encodeBits_encodes (h.with_last x) hpool _
  exact ⟨hs, hp, by simp, by simp, he⟩

/-- One value whose code fits in the buffer: the call succeeds without asking the pool. -/
theorem gsetEncodeNext_of_room (h : Encodes e hdr bs) (hfix : e.fixedBits < 64) {x : UInt64}
    (hle : e.last ≤ x)
    (hroom : bs.length + (riceCode e.fixedBits (x.toNat - e.last.toNat)).length + 16 ≤
      8 * e.datalen) :
    (gsetEncodeNext e x).2 = .success ∧ (gsetEncodeNext e x).1.pool = e.pool ∧
      (gsetEncodeNext e x).1.datalen = e.datalen ∧ (gsetEncodeNext e x).1.last = x ∧
      (gsetEncodeNext e x).1.fixedBits = e.fixedBits ∧
      Encodes (gsetEncodeNext e x).1 hdr (bs ++ riceCode e.fixedBits (x.toNat - e.last.toNat)) := by
  rw [gsetEncodeNext_eq e x hle hfix]
  obtain ⟨hs, hp, hd, he⟩ := encodeBits_of_room (h.with_last x) _ hroom
  exact ⟨hs, hp, hd, by simp, by simp, he⟩

/-- One value whose code overflows the buffer, when the growth is refused: the call fails. -/
theorem gsetEncodeNext_of_refusal (h : Encodes e hdr bs) (hp : e.pool.headD true = false)
    (hfix : e.fixedBits < 64) {x : UInt64} (hle : e.last ≤ x)
    (hlong : 8 * e.datalen <
      bs.length + (riceCode e.fixedBits (x.toNat - e.last.toNat)).length + 16) :
    (gsetEncodeNext e x).2 = .enomem := by
  rw [gsetEncodeNext_eq e x hle hfix]
  exact encodeBits_of_refusal (h.with_last x) hp _ hlong

theorem destutter'_eq_cons_tail {α : Type} (R : α → α → Prop) [DecidableRel R] :
    ∀ (l : List α) (a : α), l.destutter' R a = a :: (l.destutter' R a).tail
  | [], _ => rfl
  | b :: l, a => by
    by_cases h : R a b
    · rw [List.destutter'_cons_pos _ h]; rfl
    · rw [List.destutter'_cons_neg _ h]; exact destutter'_eq_cons_tail R l a

/-- The values the loop passes on after `a`: those that differ from the one before them. -/
theorem sorted_tail_of_sorted {a x : UInt64} {hs : List UInt64}
    (h : (a :: x :: hs).Sorted (· ≤ ·)) : (a :: hs).Sorted (· ≤ ·) :=
  List.sorted_cons.mpr ⟨fun y hy => List.rel_of_sorted_cons h y (List.mem_cons_of_mem _ hy),
    (List.sorted_cons.mp (List.sorted_cons.mp h).2).2⟩

/-- **The loop encodes the distinct values.** With a pool that grants every block, every
`gset_encode_next` call succeeds, and after value `last` the loop appends the codes of the
values of `hs` that differ from the one before them. -/
theorem encodeSorted_encodes :
    ∀ (hs : List UInt64) (e : GsetEncoder) (bs : List Bool), Encodes e hdr bs → e.pool = [] →
      e.fixedBits < 64 → (e.last :: hs).Sorted (· ≤ ·) →
      (∀ st ∈ (encodeSorted e (some e.last) hs).2, st = .success) ∧
      Encodes (encodeSorted e (some e.last) hs).1 hdr
        (bs ++ riceCodes e.fixedBits e.last.toNat
          ((hs.destutter' (· ≠ ·) e.last).tail.map UInt64.toNat))
  | [], e, bs, h, _, _, _ => by simpa [encodeSorted, List.destutter'_nil] using h
  | x :: hs, e, bs, h, hpool, hfix, hsort => by
    by_cases hx : e.last = x
    · subst hx
      rw [encodeSorted_of_eq e rfl, List.destutter'_cons_neg _ (by simp)]
      exact encodeSorted_encodes hs e bs h hpool hfix (sorted_tail_of_sorted hsort)
    · obtain ⟨hs1, hp1, hl1, hf1, he1⟩ :=
        gsetEncodeNext_encodes h hpool hfix (List.rel_of_sorted_cons hsort x (by simp))
      have ih := encodeSorted_encodes hs _ _ he1 hp1 (by omega)
        (by rw [hl1]; exact (List.sorted_cons.mp hsort).2)
      rw [hl1, hf1] at ih
      rw [encodeSorted_of_ne _ (by simpa using hx), List.destutter'_cons_pos _ hx,
        List.tail_cons, destutter'_eq_cons_tail, List.map_cons, riceCodes_cons,
        ← List.append_assoc]
      exact ⟨by simpa [hs1] using ih.1, ih.2⟩

/-- **A refused growth surfaces in the loop.** When the codes still to come overflow the
buffer and the pool refuses the next block, one `gset_encode_next` call returns
`APR_ENOMEM`. -/
theorem encodeSorted_of_refusal :
    ∀ (hs : List UInt64) (e : GsetEncoder) (bs : List Bool), Encodes e hdr bs →
      e.pool.headD true = false → e.fixedBits < 64 → (e.last :: hs).Sorted (· ≤ ·) →
      8 * e.datalen < bs.length + (riceCodes e.fixedBits e.last.toNat
          ((hs.destutter' (· ≠ ·) e.last).tail.map UInt64.toNat)).length + 16 →
      Status.enomem ∈ (encodeSorted e (some e.last) hs).2
  | [], e, bs, h, _, _, _, hlong => by
    have := h.length_le; simp [List.destutter'_nil] at hlong; omega
  | x :: hs, e, bs, h, hp, hfix, hsort, hlong => by
    by_cases hx : e.last = x
    · subst hx
      rw [encodeSorted_of_eq e rfl]
      rw [List.destutter'_cons_neg _ (by simp)] at hlong
      exact encodeSorted_of_refusal hs e bs h hp hfix (sorted_tail_of_sorted hsort) hlong
    · have hle := List.rel_of_sorted_cons hsort x (by simp)
      rw [List.destutter'_cons_pos _ hx, List.tail_cons, destutter'_eq_cons_tail, List.map_cons,
        riceCodes_cons, List.length_append] at hlong
      rw [encodeSorted_of_ne _ (by simpa using hx)]
      by_cases hroom : bs.length + (riceCode e.fixedBits (x.toNat - e.last.toNat)).length + 16 ≤
          8 * e.datalen
      · obtain ⟨-, hp1, hd1, hl1, hf1, he1⟩ := gsetEncodeNext_of_room h hfix hle hroom
        have ih := encodeSorted_of_refusal hs _ _ he1 (by rw [hp1, hp]) (by omega)
          (by rw [hl1]; exact (List.sorted_cons.mp hsort).2)
        rw [hl1, hf1, hd1] at ih
        exact List.mem_cons_of_mem _ (ih (by rw [List.length_append]; omega))
      · rw [gsetEncodeNext_of_refusal h hp hfix hle (by omega)]
        exact List.mem_cons_self _ _

section Runs

variable {P : GsetEncoder → Prop} (hP : ∀ e x, P e → P (gsetEncodeNext e x).1)
include hP

/-- What every `gset_encode_next` keeps, the loop keeps. -/
theorem encodeSorted_preserves :
    ∀ (l : List UInt64) (e : GsetEncoder) (prev : Option UInt64), P e → P (encodeSorted e prev l).1
  | [], _, _, h => h
  | x :: l, e, prev, h => by
    by_cases hx : prev = some x
    · subst hx
      rw [encodeSorted_of_eq e rfl]
      exact encodeSorted_preserves l e _ h
    · rw [encodeSorted_of_ne e hx]
      exact encodeSorted_preserves l _ _ (hP e x h)

end Runs

theorem encodeSorted_datalen_le (l : List UInt64) (e : GsetEncoder) (prev : Option UInt64) :
    e.datalen ≤ (encodeSorted e prev l).1.datalen :=
  encodeSorted_preserves (P := fun e' => e.datalen ≤ e'.datalen)
    (fun e' x h => h.trans (gsetEncodeNext_datalen_le e' x)) l e prev (Nat.le_refl _)

theorem encodeSorted_shape (l : List UInt64) {e : GsetEncoder} (h : BufferShape e)
    (prev : Option UInt64) : BufferShape (encodeSorted e prev l).1 :=
  encodeSorted_preserves (P := BufferShape) (fun _ x h => gsetEncodeNext_shape h x) l e prev h

/-- The loop up to the last value ends on a buffer no longer than the whole loop's. -/
theorem encodeSorted_dropLast_datalen_le :
    ∀ (l : List UInt64) (e : GsetEncoder) (prev : Option UInt64),
      (encodeSorted e prev l.dropLast).1.datalen ≤ (encodeSorted e prev l).1.datalen
  | [], _, _ => Nat.le_refl _
  | [x], e, prev => encodeSorted_datalen_le [x] e prev
  | x :: y :: l, e, prev => by
    rw [List.dropLast_cons₂]
    by_cases hx : prev = some x
    · subst hx
      rw [encodeSorted_of_eq e rfl, encodeSorted_of_eq e rfl]
      exact encodeSorted_dropLast_datalen_le (y :: l) e _
    · rw [encodeSorted_of_ne e hx, encodeSorted_of_ne e hx]
      exact encodeSorted_dropLast_datalen_le (y :: l) _ _

/-- **A loop that fits.** When the codes of the values still to come fit in the buffer, the
loop appends them without asking the pool: the buffer keeps its length. -/
theorem encodeSorted_of_room :
    ∀ (hs : List UInt64) (e : GsetEncoder) (bs : List Bool), Encodes e hdr bs →
      e.fixedBits < 64 → (e.last :: hs).Sorted (· ≤ ·) →
      bs.length + (riceCodes e.fixedBits e.last.toNat
          ((hs.destutter' (· ≠ ·) e.last).tail.map UInt64.toNat)).length + 16 ≤ 8 * e.datalen →
      (encodeSorted e (some e.last) hs).1.datalen = e.datalen ∧
      Encodes (encodeSorted e (some e.last) hs).1 hdr
        (bs ++ riceCodes e.fixedBits e.last.toNat
          ((hs.destutter' (· ≠ ·) e.last).tail.map UInt64.toNat))
  | [], e, bs, h, _, _, _ => ⟨rfl, by simpa [encodeSorted, List.destutter'_nil] using h⟩
  | x :: hs, e, bs, h, hfix, hsort, hroom => by
    by_cases hx : e.last = x
    · subst hx
      rw [List.destutter'_cons_neg _ (by simp)] at hroom ⊢
      rw [encodeSorted_of_eq e rfl]
      exact encodeSorted_of_room hs e bs h hfix (sorted_tail_of_sorted hsort) hroom
    · rw [List.destutter'_cons_pos _ hx, List.tail_cons, destutter'_eq_cons_tail, List.map_cons,
        riceCodes_cons, List.length_append] at hroom
      obtain ⟨-, -, hd1, hl1, hf1, he1⟩ :=
        gsetEncodeNext_of_room h hfix (x := x) (List.rel_of_sorted_cons hsort x (by simp)) (by omega)
      have ih := encodeSorted_of_room hs _ _ he1 (by omega)
        (by rw [hl1]; exact (List.sorted_cons.mp hsort).2)
        (by rw [hl1, hf1, hd1, List.length_append]; omega)
      rw [hl1, hf1, hd1] at ih
      rw [encodeSorted_of_ne _ (by simpa using hx), List.destutter'_cons_pos _ hx,
        List.tail_cons, destutter'_eq_cons_tail, List.map_cons, riceCodes_cons,
        ← List.append_assoc]
      exact ih

end Loop

/-! ## §2 — the values that are encoded -/

theorem u64_le_iff {a b : UInt64} : a ≤ b ↔ a.toNat ≤ b.toNat := Iff.rfl

theorem u64_lt_iff {a b : UInt64} : a < b ↔ a.toNat < b.toNat := Iff.rfl

theorem mem_destutter'_ne {α : Type} [DecidableEq α] (x : α) :
    ∀ (l : List α) (a : α), x ∈ l.destutter' (· ≠ ·) a ↔ x = a ∨ x ∈ l
  | [], a => by simp [List.destutter'_nil]
  | b :: l, a => by
    by_cases h : a = b
    · subst h
      rw [List.destutter'_cons_neg _ (by simp), mem_destutter'_ne x l a]
      simp
    · rw [List.destutter'_cons_pos _ h, List.mem_cons, mem_destutter'_ne x l b]
      simp

/-- Dropping the values equal to the one before them loses no value. -/
theorem mem_destutter_ne {α : Type} [DecidableEq α] (x : α) (l : List α) :
    x ∈ l.destutter (· ≠ ·) ↔ x ∈ l := by
  cases l with
  | nil => simp [List.destutter_nil]
  | cons a l => rw [List.destutter_cons', mem_destutter'_ne, List.mem_cons]

theorem chain'_lt_of_sorted : ∀ {l : List Nat}, l.Sorted (· ≤ ·) → l.Chain' (· ≠ ·) →
    l.Chain' (· < ·)
  | [], _, _ => List.chain'_nil
  | [a], _, _ => List.chain'_singleton a
  | a :: b :: l, hs, hc => by
    rw [List.chain'_cons] at hc ⊢
    exact ⟨lt_of_le_of_ne (List.rel_of_sorted_cons hs b (by simp)) hc.1,
      chain'_lt_of_sorted hs.of_cons hc.2⟩

/-- From a sorted list, the values the loop encodes are strictly ascending. -/
theorem sorted_destutter_toNat {l : List UInt64} (hl : l.Sorted (· ≤ ·)) :
    ((l.destutter (· ≠ ·)).map UInt64.toNat).Sorted (· < ·) := by
  have hs : (l.destutter (· ≠ ·)).Sorted (· ≤ ·) := hl.sublist (List.destutter_sublist _ l)
  rw [List.Sorted, ← List.chain'_iff_pairwise]
  refine chain'_lt_of_sorted (List.pairwise_map.mpr (hs.imp fun h => h)) ?_
  exact List.chain'_map_of_chain' _ (fun _ _ h hn => h (UInt64.toNat.inj hn))
    (List.destutter_is_chain' _ l)

theorem chain_zero_of_sorted {vs : List Nat} (hs : vs.Sorted (· < ·)) : vs.Chain (· ≤ ·) 0 :=
  List.chain_iff_pairwise.mpr
    (List.pairwise_cons.mpr ⟨fun _ _ => Nat.zero_le _, hs.imp Nat.le_of_lt⟩)

/-- With a pool that grants every block, the loop started on `last = 0` with no previous
value encodes every distinct value of a sorted list. -/
theorem encodeSorted_none_encodes {e : GsetEncoder} {hdr : List UInt8} {bs : List Bool}
    (h : Encodes e hdr bs) (hpool : e.pool = []) (hfix : e.fixedBits < 64) (hlast : e.last = 0)
    {hs : List UInt64} (hsort : hs.Sorted (· ≤ ·)) :
    (∀ st ∈ (encodeSorted e none hs).2, st = .success) ∧
      Encodes (encodeSorted e none hs).1 hdr
        (bs ++ riceCodes e.fixedBits 0 ((hs.destutter (· ≠ ·)).map UInt64.toNat)) := by
  cases hs with
  | nil => simpa [encodeSorted, List.destutter_nil] using h
  | cons x hs =>
    obtain ⟨hs1, hp1, hl1, hf1, he1⟩ :=
      gsetEncodeNext_encodes h hpool hfix (by rw [hlast]; exact Nat.zero_le _)
    have ih := encodeSorted_encodes hs _ _ he1 hp1 (by omega) (by rw [hl1]; exact hsort)
    rw [hl1, hf1, hlast, UInt64.toNat_zero] at ih
    rw [encodeSorted_of_ne _ (by simp), List.destutter_cons', destutter'_eq_cons_tail,
      List.map_cons, riceCodes_cons, ← List.append_assoc]
    exact ⟨by simpa [hs1] using ih.1, ih.2⟩

/-- With the first growth refused, the loop started on `last = 0` reports `APR_ENOMEM` from
one of its calls as soon as the codes overflow the buffer. -/
theorem encodeSorted_none_of_refusal {e : GsetEncoder} {hdr : List UInt8} {bs : List Bool}
    (h : Encodes e hdr bs) (hp : e.pool.headD true = false) (hfix : e.fixedBits < 64)
    (hlast : e.last = 0) {hs : List UInt64} (hsort : hs.Sorted (· ≤ ·))
    (hlong : 8 * e.datalen < bs.length +
      (riceCodes e.fixedBits 0 ((hs.destutter (· ≠ ·)).map UInt64.toNat)).length + 16) :
    Status.enomem ∈ (encodeSorted e none hs).2 := by
  cases hs with
  | nil => have := h.length_le; simp [List.destutter_nil] at hlong; omega
  | cons x hs =>
    have hle : e.last ≤ x := by rw [hlast]; exact Nat.zero_le _
    rw [List.destutter_cons', destutter'_eq_cons_tail, List.map_cons, riceCodes_cons,
      List.length_append, ← UInt64.toNat_zero, ← hlast] at hlong
    rw [encodeSorted_of_ne _ (by simp)]
    by_cases hroom : bs.length + (riceCode e.fixedBits (x.toNat - e.last.toNat)).length + 16 ≤
        8 * e.datalen
    · obtain ⟨-, hp1, hd1, hl1, hf1, he1⟩ := gsetEncodeNext_of_room h hfix hle hroom
      have ih := encodeSorted_of_refusal hs _ _ he1 (by rw [hp1, hp]) (by omega)
        (by rw [hl1]; exact hsort)
      rw [hl1, hf1, hd1] at ih
      exact List.mem_cons_of_mem _ (ih (by rw [List.length_append]; omega))
    · rw [gsetEncodeNext_of_refusal h hp hfix hle (by omega)]
      exact List.mem_cons_self _ _

/-- The loop started on `last = 0` with no previous value, when all the codes fit. -/
theorem encodeSorted_none_of_room {e : GsetEncoder} {hdr : List UInt8} {bs : List Bool}
    (h : Encodes e hdr bs) (hfix : e.fixedBits < 64) (hlast : e.last = 0)
    {hs : List UInt64} (hsort : hs.Sorted (· ≤ ·))
    (hroom : bs.length +
      (riceCodes e.fixedBits 0 ((hs.destutter (· ≠ ·)).map UInt64.toNat)).length + 16 ≤
        8 * e.datalen) :
    (encodeSorted e none hs).1.datalen = e.datalen ∧
      Encodes (encodeSorted e none hs).1 hdr
        (bs ++ riceCodes e.fixedBits 0 ((hs.destutter (· ≠ ·)).map UInt64.toNat)) := by
  cases hs with
  | nil => exact ⟨rfl, by simpa [encodeSorted, List.destutter_nil] using h⟩
  | cons x hs =>
    rw [List.destutter_cons', destutter'_eq_cons_tail, List.map_cons, riceCodes_cons,
      List.length_append, ← UInt64.toNat_zero, ← hlast] at hroom
    obtain ⟨-, -, hd1, hl1, hf1, he1⟩ :=
      gsetEncodeNext_of_room h hfix (x := x) (by rw [hlast]; exact Nat.zero_le _) (by omega)
    have ih := encodeSorted_of_room hs _ _ he1 (by omega) (by rw [hl1]; exact hsort)
      (by rw [hl1, hf1, hd1, List.length_append]; omega)
    rw [hl1, hf1, hd1] at ih
    rw [encodeSorted_of_ne _ (by simp), List.destutter_cons', destutter'_eq_cons_tail,
      List.map_cons, riceCodes_cons, ← List.append_assoc, ← UInt64.toNat_zero, ← hlast]
    exact ih

/-! ## §3 — loading `hashes[i]` from the pool -/

/-- Bytes that are the base-256 digits of `x` from digit `c` on load as those digits. -/
theorem loadLE_digits (mem : Nat → UInt8) (x : Nat) :
    ∀ (n a c : Nat), (∀ m < n, (mem (a + m)).toNat = x / 256 ^ (c + m) % 256) →
      loadLE mem a n = x / 256 ^ c % 256 ^ n
  | 0, _, _, _ => by simp [loadLE, Nat.mod_one]
  | n + 1, a, c, h => by
    have h0 : (mem a).toNat = x / 256 ^ c % 256 := by simpa using h 0 (Nat.succ_pos n)
    have ih := loadLE_digits mem x n (a + 1) (c + 1) fun m hm => by
      have := h (m + 1) (by omega)
      rwa [show a + (m + 1) = a + 1 + m by omega, show c + (m + 1) = c + 1 + m by omega] at this
    rw [loadLE, h0, ih, show 256 ^ (n + 1) = 256 * 256 ^ n from Nat.pow_succ', Nat.mod_mul,
      Nat.pow_succ, Nat.div_div_eq_div_mul]

/-- The store `hashes[i]` wrote the value's bytes from `8 * i`, least significant first. -/
theorem toNat_storedByte (stored : List UInt64) (i : Nat) {m : Nat} (hm : m < 8) :
    (storedByte stored (8 * i + m)).toNat = (stored.getD i 0).toNat / 256 ^ (0 + m) % 256 := by
  rw [storedByte, show (8 * i + m) / 8 = i by omega, show (8 * i + m) % 8 = m by omega,
    Nat.zero_add]
  rfl

/-- Bytes that still hold the store of `hashes[i]` load as the value stored. -/
theorem hashesAt_of_stored {stored : List UInt64} {e : GsetEncoder} {i : Nat}
    (h : ∀ m < 8, poolByte stored e (8 * i + m) = storedByte stored (8 * i + m)) :
    hashesAt stored e i = stored.getD i 0 := by
  have hlt := (stored.getD i 0).toNat_lt_size
  rw [hashesAt, loadLE_digits _ (stored.getD i 0).toNat 8 (8 * i) 0 fun m hm => by
      rw [h m hm, toNat_storedByte stored i hm],
    Nat.pow_zero, Nat.div_one, Nat.mod_eq_of_lt (show _ < 256 ^ 8 from hlt)]
  exact UInt64.toNat.inj (UInt64.toNat_ofNat_of_lt hlt)

/-- Before the first growth no block lies over the stores. -/
theorem poolByte_of_datalen {stored : List UInt64} {e : GsetEncoder} (he : e.datalen = 512)
    (a : Nat) : poolByte stored e a = storedByte stored a := by
  rw [poolByte, if_neg (by omega)]

theorem hashesAt_of_datalen {stored : List UInt64} {e : GsetEncoder} (he : e.datalen = 512)
    (i : Nat) : hashesAt stored e i = stored.getD i 0 :=
  hashesAt_of_stored fun _ _ => poolByte_of_datalen he _

/-- Zero bytes load as zero. -/
theorem hashesAt_eq_zero {stored : List UInt64} {e : GsetEncoder} {i : Nat}
    (h : ∀ m < 8, poolByte stored e (8 * i + m) = 0) : hashesAt stored e i = 0 := by
  rw [hashesAt, loadLE_digits _ 0 8 _ 0 fun m hm => by rw [h m hm, Nat.zero_div]; rfl]
  rfl

theorem growthOffset_of_lt {start a k : Nat} (h1 : 2 ^ k ≤ a + 1024 - start)
    (h2 : a + 1024 - start < 2 ^ (k + 1)) : growthOffset start a = a + 1024 - start - 2 ^ k := by
  have hne : a + 1024 - start ≠ 0 := by have := @Nat.one_le_two_pow k; omega
  rw [growthOffset, Nat.le_antisymm (Nat.lt_succ_iff.mp ((Nat.log2_lt hne).2 h2))
    ((Nat.le_log2 hne).2 h1)]

/-- Once the buffer has grown to 1024 bytes, its block is the 1024 bytes from
`aprAlign hash_count`. -/
theorem poolByte_of_grown_once {stored : List UInt64} {e : GsetEncoder} (he : e.datalen = 1024)
    {a : Nat} (h1 : aprAlign (hashesBlockBytes stored.length) ≤ a)
    (h2 : a < aprAlign (hashesBlockBytes stored.length) + 1024) :
    poolByte stored e a = e.data.getD (a - aprAlign (hashesBlockBytes stored.length)) 0 := by
  have h10 : (2 : Nat) ^ 10 = 1024 := rfl
  rw [poolByte, if_pos ⟨h1, by omega⟩, growthOffset_of_lt (k := 10) (by omega) (by omega)]
  exact congrArg (e.data.getD · 0) (by omega)

/-! ## §4 — the loop of the code -/

section Hashes

variable {stored : List UInt64}

theorem encodeHashes_skip {e : GsetEncoder} {i : Nat} (n : Nat)
    (h : i ≠ 0 ∧ hashesAt stored e i = hashesAt stored e (i - 1)) :
    encodeHashes stored e i (n + 1) = encodeHashes stored e (i + 1) n := by
  rw [encodeHashes, if_pos h]

theorem encodeHashes_next {e : GsetEncoder} {i : Nat} (n : Nat)
    (h : ¬ (i ≠ 0 ∧ hashesAt stored e i = hashesAt stored e (i - 1))) :
    encodeHashes stored e i (n + 1) =
      ((encodeHashes stored (gsetEncodeNext e (hashesAt stored e i)).1 (i + 1) n).1,
        (gsetEncodeNext e (hashesAt stored e i)).2 ::
          (encodeHashes stored (gsetEncodeNext e (hashesAt stored e i)).1 (i + 1) n).2) := by
  rw [encodeHashes, if_neg h]

/-- `n + m` rounds are `n` rounds, then `m` more from where they stopped. -/
theorem encodeHashes_add :
    ∀ (n m i : Nat) (e : GsetEncoder), encodeHashes stored e i (n + m) =
      ((encodeHashes stored (encodeHashes stored e i n).1 (i + n) m).1,
        (encodeHashes stored e i n).2 ++
          (encodeHashes stored (encodeHashes stored e i n).1 (i + n) m).2)
  | 0, m, i, e => by simp [encodeHashes]
  | n + 1, m, i, e => by
    rw [Nat.add_right_comm, show i + (n + 1) = i + 1 + n by omega]
    by_cases h : i ≠ 0 ∧ hashesAt stored e i = hashesAt stored e (i - 1)
    · rw [encodeHashes_skip _ h, encodeHashes_skip _ h, encodeHashes_add n m (i + 1) e]
    · rw [encodeHashes_next _ h, encodeHashes_next _ h, encodeHashes_add n m (i + 1)]
      simp

/-- **The loop of the code is the loop over the stored values while the buffer stays.**
From round `i` on, when every load happens before the first growth (the loop up to its
last value leaves the buffer at 512 bytes), each `hashes[...]` loads the value stored, and
the rounds are those of `encodeSorted` over the stored values, with the value before
`hashes[i]` as the previous one. -/
theorem encodeHashes_eq_encodeSorted (stored : List UInt64) :
    ∀ (n i : Nat) (e : GsetEncoder) (prev : Option UInt64), i + n ≤ stored.length →
      prev = (if i = 0 then none else some (stored.getD (i - 1) 0)) → e.datalen = 512 →
      (encodeSorted e prev ((stored.drop i).take n).dropLast).1.datalen = 512 →
      encodeHashes stored e i n = encodeSorted e prev ((stored.drop i).take n)
  | 0, _, _, _, _, _, _, _ => by simp [encodeHashes, encodeSorted]
  | n + 1, i, e, prev, hn, hprev, he, hfin => by
    have hi : i < stored.length := by omega
    have hx : stored.getD i 0 = stored[i] := by
      rw [List.getD_eq_getElem?_getD, List.getElem?_eq_getElem hi]; rfl
    have hnext : some stored[i] = (if i + 1 = 0 then none else some (stored.getD (i + 1 - 1) 0)) :=
      by rw [if_neg (Nat.succ_ne_zero i), Nat.add_sub_cancel, hx]
    have hskip : (i ≠ 0 ∧ hashesAt stored e i = hashesAt stored e (i - 1)) ↔
        prev = some stored[i] := by
      rw [hashesAt_of_datalen he, hashesAt_of_datalen he, hprev, hx]
      split_ifs with h0 <;> simp [h0, eq_comm]
    rw [List.drop_eq_getElem_cons hi, List.take_succ_cons] at hfin ⊢
    -- the rounds after this one, once their encoder has not grown either
    have hrest : ∀ e' prev', prev' = some stored[i] → e'.datalen = 512 →
        (encodeSorted e' prev' ((stored.drop (i + 1)).take n).dropLast).1.datalen = 512 →
        encodeHashes stored e' (i + 1) n = encodeSorted e' prev' ((stored.drop (i + 1)).take n) :=
      fun e' prev' hp he' hf =>
        encodeHashes_eq_encodeSorted stored n (i + 1) e' prev' (by omega) (hp.trans hnext) he' hf
    rcases n with _ | n
    · by_cases hs : prev = some stored[i]
      · rw [encodeHashes_skip _ (hskip.2 hs), encodeSorted_of_eq e hs]; rfl
      · rw [encodeHashes_next _ (mt hskip.1 hs), encodeSorted_of_ne e hs, hashesAt_of_datalen he,
          hx]
        rfl
    · have hne : (stored.drop (i + 1)).take (n + 1) ≠ [] := by simp; omega
      rw [List.dropLast_cons_of_ne_nil hne] at hfin
      by_cases hs : prev = some stored[i]
      · rw [encodeSorted_of_eq e hs] at hfin ⊢
        rw [encodeHashes_skip _ (hskip.2 hs)]
        exact hrest e prev hs he hfin
      · rw [encodeSorted_of_ne e hs] at hfin ⊢
        rw [encodeHashes_next _ (mt hskip.1 hs), hashesAt_of_datalen he, hx]
        have h1 : (gsetEncodeNext e stored[i]).1.datalen = 512 :=
          Nat.le_antisymm (hfin ▸ encodeSorted_datalen_le _ _ _)
            (he ▸ gsetEncodeNext_datalen_le e _)
        rw [hrest _ _ rfl h1 hfin]

/-- The whole loop, when the loop over all the stored values keeps the 512-byte buffer. -/
theorem encodeHashes_eq_of_datalen {e : GsetEncoder} (he : e.datalen = 512)
    (hfin : (encodeSorted e none stored).1.datalen = 512) :
    encodeHashes stored e 0 stored.length = encodeSorted e none stored := by
  have h := encodeHashes_eq_encodeSorted stored stored.length 0 e none (by omega) rfl he
  rw [List.drop_zero, List.take_length] at h
  exact h (Nat.le_antisymm (hfin ▸ encodeSorted_dropLast_datalen_le _ _ _)
    (he ▸ encodeSorted_datalen_le _ _ _))

/-- Rounds whose `hashes[i]` loads as the `hashes[i-1]` before it encode nothing. -/
theorem encodeHashes_of_repeats {e : GsetEncoder} :
    ∀ (n i : Nat), i ≠ 0 →
      (∀ j, i ≤ j → j < i + n → hashesAt stored e j = hashesAt stored e (j - 1)) →
      encodeHashes stored e i n = (e, [])
  | 0, _, _, _ => rfl
  | n + 1, i, hi, h => by
    rw [encodeHashes_skip _ ⟨hi, h i (Nat.le_refl i) (by omega)⟩]
    exact encodeHashes_of_repeats n (i + 1) (by omega) fun j hj hj' => h j (by omega) (by omega)

end Hashes

/-! ## §5 — the digest of a diary whose code fits the first buffer -/

/-- The bytes of the Golomb-coded set of `vs`: the header bytes `log2n` and `log2p`, then
the codes of `vs` with parameter `log2p`, the last byte padded with `1`s. -/
structure IsGolombSet (log2n log2p : Nat) (vs : List Nat) (bytes : List UInt8) : Prop where
  header : (bytes.take 2).map UInt8.toNat = [log2n, log2p]
  length : bytes.length = 2 + ((riceCodes log2p 0 vs).length + 7) / 8
  bits : streamBits (bytes.drop 2) =
    riceCodes log2p 0 vs ++ List.replicate (padLen (riceCodes log2p 0 vs).length) true

/-- The format's reader reads a Golomb-coded set of strictly ascending values back. -/
theorem IsGolombSet.decode {log2n log2p : Nat} {vs : List Nat} {bytes : List UInt8}
    (h : IsGolombSet log2n log2p vs bytes) (hs : vs.Sorted (· < ·)) :
    gcsDecode log2p (streamBits (bytes.drop 2)) = vs := by
  rw [h.bits]; exact gcsDecode_riceCodes _ (chain_zero_of_sorted hs) _

theorem digestEncoder_encodes (log2n log2p : Nat) (pool : List Bool) :
    Encodes (digestEncoder log2n log2p pool) [UInt8.ofNat log2n, UInt8.ofNat log2p] [] where
  data_length := by simp only [digestEncoder, List.length_cons, List.length_replicate]
  offset_lt := by show 1 < 512; omega
  header := rfl
  pos := Or.inl ⟨rfl, rfl, rfl⟩
  bits := rfl

theorem digestEncoder_shape (log2n log2p : Nat) (pool : List Bool) :
    BufferShape (digestEncoder log2n log2p pool) where
  pow := ⟨0, rfl⟩
  half := Or.inl rfl
  zero j hj := by
    obtain ⟨j, rfl⟩ : ∃ j', j = j' + 2 := ⟨j - 2, by simp only [digestEncoder] at hj; omega⟩
    simp only [digestEncoder, List.getD_eq_getElem?_getD, List.getElem?_cons_succ,
      List.getElem?_replicate]
    split <;> rfl

/-- What an encoder holding the codes of `vs` returns: `offset + 1` bytes, which are the
Golomb-coded set of `vs`. -/
theorem Encodes.isGolombSet {e : GsetEncoder} {log2n log2p : Nat} {vs : List Nat}
    (h : Encodes e [UInt8.ofNat log2n, UInt8.ofNat log2p] (riceCodes log2p 0 vs))
    (hn : log2n < 256) (hp : log2p < 256) :
    e.offset + 1 = 2 + ((riceCodes log2p 0 vs).length + 7) / 8 ∧
      IsGolombSet log2n log2p vs (e.data.take (e.offset + 1)) := by
  have hlen := h.data_length
  have hlt := h.offset_lt
  have hplen : e.offset + 1 = 2 + ((riceCodes log2p 0 vs).length + 7) / 8 := by
    rcases h.pos with ⟨hb, h1, -⟩ | ⟨-, h1, h2⟩
    · rw [hb, List.length_nil]; omega
    · omega
  refine ⟨hplen, ⟨?_, by simp; omega, by simpa using h.bits⟩⟩
  rw [List.take_take, Nat.min_eq_left (by omega), h.header]
  simp [UInt8.toNat_ofNat_of_lt (show log2n < UInt8.size by simpa using hn),
    UInt8.toNat_ofNat_of_lt (show log2p < UInt8.size by simpa using hp)]

theorem digestRun_of_pow (d : Diary) (hmask : d.maskBits = 64) {maxP : Int} {k j : Nat}
    (hN : ceilPowerOf2 d.entries.length = some (2 ^ k)) (hk1 : 1 ≤ k) (hk : k ≤ 30)
    (hP : ceilPowerOf2 maxP = some (2 ^ j)) (hj : j ≤ 30) (pool : List Bool)
    (authority : Option (List Char)) :
    digestRun d pool maxP authority =
      some (if authorityMatches d.authority authority then
          let r := encodeHashes (sortedHashes d.entries (64 - k - j)) (digestEncoder k j pool) 0
            d.entries.length
          (⟨.success, r.1.data, r.1.offset + 1⟩, r.2)
        else (⟨.success, (digestEncoder k j pool).data, 2⟩, [])) := by
  have hp : uchar (min ((64 : Nat) - (k : Int)) (j : Int)) = j := by simp only [uchar]; omega
  have hd : ((64 : Nat) - ((k : Int) + (j : Nat)) : Int).toNat = 64 - k - j := by omega
  have hr : 0 ≤ ((64 : Nat) - ((k : Int) + (j : Nat)) : Int) ∧
      ((64 : Nat) - ((k : Int) + (j : Nat)) : Int) < 64 := by omega
  simp only [digestRun, hN, hP, h2Log2_two_pow, hmask, hp, Option.bind_eq_bind, Option.some_bind,
    if_neg (show ¬ 64 ≤ j by omega), hr, hd, and_self, not_true_eq_false, and_false, if_false,
    pure_bind]
  split <;> rfl

/-- With the rounded sizes `2^k` and `2^j` and a matching authority, the call returns the
buffer the loop leaves and succeeds. -/
theorem digestRun_of_loop (d : Diary) (hmask : d.maskBits = 64) {maxP : Int} {k j : Nat}
    (hN : ceilPowerOf2 d.entries.length = some (2 ^ k)) (hk1 : 1 ≤ k) (hk : k ≤ 30)
    (hP : ceilPowerOf2 maxP = some (2 ^ j)) (hj : j ≤ 30) {pool : List Bool}
    {authority : Option (List Char)} (hauth : authorityMatches d.authority authority = true)
    {e : GsetEncoder} {sts : List Status}
    (hloop : encodeHashes (sortedHashes d.entries (64 - k - j)) (digestEncoder k j pool) 0
      d.entries.length = (e, sts)) :
    digestRun d pool maxP authority = some (⟨.success, e.data, e.offset + 1⟩, sts) := by
  rw [digestRun_of_pow d hmask hN hk1 hk hP hj, if_pos hauth]
  simp only [hloop]

/-- The shifted hashes, as numbers: `h >> delta_bits` for a shift below `64`. -/
theorem mem_shifted_iff (entries : List UInt64) {s : Nat} (hs : s < 64) (x : Nat) :
    x ∈ ((sortedHashes entries s).destutter (· ≠ ·)).map UInt64.toNat ↔
      ∃ h ∈ entries, x = h.toNat >>> s := by
  simp only [sortedHashes, List.mem_map, mem_destutter_ne,
    (List.perm_insertionSort (fun a b : UInt64 => a ≤ b)
      (entries.map (· >>> s.toUInt64))).mem_iff]
  constructor
  · rintro ⟨_, ⟨h, hh, rfl⟩, rfl⟩
    exact ⟨h, hh, toNat_shiftRight_toUInt64 h hs⟩
  · rintro ⟨h, hh, rfl⟩
    exact ⟨_, ⟨h, hh, rfl⟩, toNat_shiftRight_toUInt64 h hs⟩

/-- With the rounded sizes `2^k` and `2^j`, a matching authority, and codes that fit in the
first buffer, the digest succeeds and is the Golomb-coded set of the entries shifted down
to their top `k + j` bits, whatever the pool would answer. -/
theorem digestGet_golombSet_of_fit (d : Diary) (hmask : d.maskBits = 64) {maxP : Int}
    {k j : Nat} (hN : ceilPowerOf2 d.entries.length = some (2 ^ k)) (hk1 : 1 ≤ k) (hk : k ≤ 30)
    (hP : ceilPowerOf2 maxP = some (2 ^ j)) (hj : j ≤ 30) {authority : Option (List Char)}
    (hauth : authorityMatches d.authority authority = true) (pool : List Bool) {vs : List Nat}
    (hvs : ((sortedHashes d.entries (64 - k - j)).destutter (· ≠ ·)).map UInt64.toNat = vs)
    (hfit : (riceCodes j 0 vs).length ≤ 4080) :
    ∃ r, h2PushDiaryDigestGet d pool maxP authority = some r ∧ r.status = .success ∧
      IsGolombSet k j vs (r.data.take r.plen) ∧ r.plen = 2 + ((riceCodes j 0 vs).length + 7) / 8 ∧
      gcsDecode j (streamBits ((r.data.take r.plen).drop 2)) = vs := by
  subst hvs
  have hsort : (sortedHashes d.entries (64 - k - j)).Sorted (· ≤ ·) :=
    List.sorted_insertionSort _ _
  obtain ⟨hd, he⟩ := encodeSorted_none_of_room (digestEncoder_encodes k j pool)
    (show j < 64 by omega) rfl hsort (by simp only [digestEncoder, List.length_nil]; omega)
  rw [List.nil_append] at he
  obtain ⟨hplen, hgs⟩ := he.isGolombSet (by omega) (by omega)
  have hloop := encodeHashes_eq_of_datalen rfl hd
  rw [show (sortedHashes d.entries (64 - k - j)).length = d.entries.length by
    simp [sortedHashes]] at hloop
  rw [h2PushDiaryDigestGet, digestRun_of_loop d hmask hN hk1 hk hP hj hauth hloop]
  exact ⟨_, rfl, rfl, hgs, hplen, hgs.decode (sorted_destutter_toNat hsort)⟩

/-- **The digest of a diary whose code fits the first buffer.** For a diary of up to `2^30`
entries with 64-bit hashes, any `maxP` up to `2^30`, any answers of the pool and any
authority, the header is the exponents `k` and `j` of the rounded entry count and `maxP`,
and the values to encode are the strictly ascending distinct `h >> (64 - k - j)`. When
their Golomb-Rice code takes at most the 4080 bits of the first 512-byte buffer, no growth
is asked for and every load of `hashes[i]` gives the value stored: the call succeeds, and
for an authority that selects the entries its `*plen = 2 + ⌈B/8⌉` bytes are the
Golomb-coded set of those values, which the format's reader reads back; for any other
authority they are the two header bytes alone. -/
theorem h2PushDiaryDigestGet_golombSet_of_fit (d : Diary) (hmask : d.maskBits = 64)
    (hn : d.entries.length ≤ 2 ^ 30) (maxP : Int) (hP : maxP ≤ 2 ^ 30)
    (authority : Option (List Char)) (pool : List Bool) :
    ∃ k j vs, ceilPowerOf2 d.entries.length = some (2 ^ k) ∧
      ceilPowerOf2 maxP = some (2 ^ j) ∧ vs.Sorted (· < ·) ∧
      (∀ x, x ∈ vs ↔ ∃ h ∈ d.entries, x = h.toNat >>> (64 - k - j)) ∧
      ((riceCodes j 0 vs).length ≤ 4080 →
        ∃ r, h2PushDiaryDigestGet d pool maxP authority = some r ∧ r.status = .success ∧
          if authorityMatches d.authority authority then
            IsGolombSet k j vs (r.data.take r.plen) ∧
              r.plen = 2 + ((riceCodes j 0 vs).length + 7) / 8 ∧
              gcsDecode j (streamBits ((r.data.take r.plen).drop 2)) = vs
          else (r.data.take r.plen).map UInt8.toNat = [k, j]) := by
  obtain ⟨k, hN, hk1, hk⟩ :=
    ceilPowerOf2_eq_two_pow (n := d.entries.length) (by exact_mod_cast hn)
  obtain ⟨j, hP', -, hj⟩ := ceilPowerOf2_eq_two_pow hP
  refine ⟨k, j, ((sortedHashes d.entries (64 - k - j)).destutter (· ≠ ·)).map UInt64.toNat, hN,
    hP', sorted_destutter_toNat (List.sorted_insertionSort _ _), mem_shifted_iff _ (by omega),
    fun hfit => ?_⟩
  by_cases hauth : authorityMatches d.authority authority = true
  · obtain ⟨r, hr, hst, hgs⟩ := digestGet_golombSet_of_fit d hmask hN hk1 hk hP' hj hauth pool rfl hfit
    exact ⟨r, hr, hst, by rw [if_pos hauth]; exact hgs⟩
  · -- another authority: the two header bytes and nothing else
    rw [h2PushDiaryDigestGet, digestRun_of_pow d hmask hN hk1 hk hP' hj, if_neg hauth]
    refine ⟨_, rfl, rfl, ?_⟩
    rw [if_neg hauth]
    show [(UInt8.ofNat k).toNat, (UInt8.ofNat j).toNat] = [k, j]
    rw [UInt8.toNat_ofNat_of_lt (show k < 256 by omega),
      UInt8.toNat_ofNat_of_lt (show j < 256 by omega)]

/-- A diary of one entry, `maxP = 1`, every growth refused. -/
theorem h2PushDiaryDigestGet_golombSet_of_fit_one_entry :
    let d : Diary := ⟨[7], 2, 2, 64, none, .sha256, le_refl 2⟩
    d.maskBits = 64 ∧ d.entries.length ≤ 2 ^ 30 ∧ (1 : Int) ≤ 2 ^ 30 ∧
    ∃ k j vs, ceilPowerOf2 d.entries.length = some (2 ^ k) ∧
      ceilPowerOf2 1 = some (2 ^ j) ∧ vs.Sorted (· < ·) ∧
      (∀ x, x ∈ vs ↔ ∃ h ∈ d.entries, x = h.toNat >>> (64 - k - j)) ∧
      ((riceCodes j 0 vs).length ≤ 4080 →
        ∃ r, h2PushDiaryDigestGet d [false] 1 none = some r ∧ r.status = .success ∧
          if authorityMatches d.authority none then
            IsGolombSet k j vs (r.data.take r.plen) ∧
              r.plen = 2 + ((riceCodes j 0 vs).length + 7) / 8 ∧
              gcsDecode j (streamBits ((r.data.take r.plen).drop 2)) = vs
          else (r.data.take r.plen).map UInt8.toNat = [k, j]) :=
  ⟨rfl, by decide, by decide,
    h2PushDiaryDigestGet_golombSet_of_fit _ rfl (by decide) 1 (by decide) none [false]⟩

/-- A hash shifted down by `64 - k - j` has at most `k + j` bits. -/
theorem shiftRight_le_pow_sub_one (h : UInt64) {k j : Nat} (hkj : k + j ≤ 64) :
    h.toNat >>> (64 - k - j) ≤ 2 ^ (k + j) - 1 := by
  have hlt : h.toNat < 2 ^ (64 - k - j) * 2 ^ (k + j) := by
    rw [← Nat.pow_add, show 64 - k - j + (k + j) = 64 by omega]; exact h.toNat_lt_size
  have := (Nat.div_lt_iff_lt_mul (Nat.two_pow_pos _)).2 (by rwa [Nat.mul_comm] at hlt)
  rw [Nat.shiftRight_eq_div_pow]; omega

/-- The code of the values of `n` entries: `j + 1` bits for each at most, besides unary
parts that add up to less than `2^k`. -/
theorem length_digestCodes_le (entries : List UInt64) {k j : Nat} (hk1 : 1 ≤ k)
    (hkj : k + j ≤ 64) :
    (riceCodes j 0 (((sortedHashes entries (64 - k - j)).destutter (· ≠ ·)).map
      UInt64.toNat)).length ≤ entries.length * (j + 1) + (2 ^ k - 1) := by
  have hsort : (((sortedHashes entries (64 - k - j)).destutter (· ≠ ·)).map
      UInt64.toNat).Sorted (· < ·) := sorted_destutter_toNat (List.sorted_insertionSort _ _)
  have hmem := mem_shifted_iff entries (s := 64 - k - j) (by omega)
  generalize ((sortedHashes entries (64 - k - j)).destutter (· ≠ ·)).map UInt64.toNat = vs
    at hsort hmem ⊢
  -- at most one value an entry, each below `2^(k + j)`
  have hvlen : vs.length ≤ entries.length := by
    have hsub : vs ⊆ entries.map (fun h => h.toNat >>> (64 - k - j)) := fun x hx => by
      obtain ⟨h, hh, rfl⟩ := (hmem x).1 hx
      exact List.mem_map_of_mem _ hh
    simpa using (List.subperm_of_subset hsort.nodup hsub).length_le
  have hB : ∀ v ∈ vs, v ≤ 2 ^ (k + j) - 1 := fun v hv => by
    obtain ⟨h, -, rfl⟩ := (hmem v).1 hv
    exact shiftRight_le_pow_sub_one h hkj
  have hR := length_riceCodes_le j 0 vs _ (chain_zero_of_sorted hsort) hB (Nat.zero_le _)
  -- the unary parts: `(2^(k + j) - 1) >>> j < 2^k`
  have hq : (2 ^ (k + j) - 1 - 0) >>> j < 2 ^ k := by
    rw [Nat.shiftRight_eq_div_pow, Nat.div_lt_iff_lt_mul (Nat.two_pow_pos j), ← Nat.pow_add]
    have := Nat.two_pow_pos (k + j); omega
  have hmul := Nat.mul_le_mul_right (j + 1) hvlen
  omega

/-- The code of at most one value below `2^(k + j)`: fewer than `2^k` unary bits, then
`j + 1` more. -/
theorem length_riceCodes_single_le {vs : List Nat} {k j : Nat} (hvs : vs.length ≤ 1)
    (hlt : ∀ v ∈ vs, v < 2 ^ (k + j)) : (riceCodes j 0 vs).length ≤ 2 ^ k + j := by
  match vs, hvs with
  | [], _ => simp
  | [v], _ =>
    have hq : v >>> j < 2 ^ k := by
      rw [Nat.shiftRight_eq_div_pow, Nat.div_lt_iff_lt_mul (Nat.two_pow_pos j), ← Nat.pow_add]
      exact hlt v (List.mem_singleton_self v)
    simp only [riceCodes_cons, riceCodes_nil, List.append_nil, length_riceCode, Nat.sub_zero]
    omega

/-! ## §6 — the block `hashes` -/

/-- **`hashes` is too small for its stores.** `apr_pcalloc(pool, hash_count)` allocates
`hash_count` bytes, while the store `hashes[i]` covers `sizeof(apr_uint64_t)` bytes from
`8 * i`. For a diary of one entry whose digest is taken (the authority matches), the one
store reaches byte `8` of a one-byte block. -/
theorem hashes_store_overruns :
    authorityMatches none none = true ∧
      hashesBlockBytes [(0 : UInt64)].length < hashesStoreEnd ([(0 : UInt64)].length - 1) :=
  ⟨rfl, by decide⟩

/-! ## §7 — the first growth lands on hashes not yet loaded -/

theorem sorted_range_ofNat (n : Nat) (hn : n ≤ 2 ^ 64) :
    ((List.range n).map UInt64.ofNat).Sorted (· < ·) :=
  List.pairwise_map.mpr ((List.pairwise_lt_range n).imp_of_mem fun ha hb hab => by
    show (UInt64.ofNat _).toNat < (UInt64.ofNat _).toNat
    rwa [UInt64.toNat_ofNat_of_lt (by have := List.mem_range.mp ha; show _ < 2 ^ 64; omega),
      UInt64.toNat_ofNat_of_lt (by have := List.mem_range.mp hb; show _ < 2 ^ 64; omega)])

theorem sorted_le_range_ofNat (n : Nat) (hn : n ≤ 2 ^ 64) :
    ((List.range n).map UInt64.ofNat).Sorted (· ≤ ·) :=
  (sorted_range_ofNat n hn).imp fun h => u64_le_iff.mpr (Nat.le_of_lt (u64_lt_iff.mp h))

/-- The values `0 .. n - 1` are encoded as they are. -/
theorem destutter_range_ofNat (n : Nat) (hn : n ≤ 2 ^ 64) :
    (((List.range n).map UInt64.ofNat).destutter (· ≠ ·)).map UInt64.toNat = List.range n := by
  rw [List.destutter_of_chain' _ _ ((sorted_range_ofNat n hn).imp UInt64.ne_of_lt).chain',
    List.map_map]
  exact (List.map_congr_left fun i hi =>
    UInt64.toNat_ofNat_of_lt (by have := List.mem_range.mp hi; show _ < 2 ^ 64; omega)).trans
      (List.map_id _)

/-- The values `0 .. n - 1` cost `p + 1` bits each. -/
theorem length_riceCodes_range (p n : Nat) (hn : n ≤ 2 ^ p) :
    (riceCodes p 0 (List.range n)).length = n * (p + 1) := by
  have hc := chain_zero_of_sorted (List.pairwise_lt_range n)
  have hge := length_riceCodes_ge p 0 (List.range n)
  have hle := length_riceCodes_le p 0 (List.range n) (n - 1) hc
    (fun v hv => by have := List.mem_range.mp hv; omega) (Nat.zero_le _)
  have hq : (n - 1 - 0) >>> p = 0 := by
    have := Nat.two_pow_pos p
    rw [Nat.shiftRight_eq_div_pow, Nat.div_eq_of_lt (by omega)]
  rw [List.length_range] at hge hle
  rw [hq, Nat.add_zero] at hle
  omega

/-- The hashes `i * 2^26` shifted right by `26` are the values `i`, already ascending. -/
theorem sortedHashes_mul (n : Nat) (hn : n ≤ 2 ^ 38) :
    sortedHashes ((List.range n).map fun i => UInt64.ofNat (i * 2 ^ 26)) 26 =
      (List.range n).map UInt64.ofNat := by
  have hmap : ((List.range n).map fun i => UInt64.ofNat (i * 2 ^ 26)).map
      (· >>> (26 : Nat).toUInt64) = (List.range n).map UInt64.ofNat := by
    rw [List.map_map]
    refine List.map_congr_left fun i hi => UInt64.toNat.inj ?_
    have hi := List.mem_range.mp hi
    rw [Function.comp_apply, toNat_shiftRight_toUInt64 _ (by omega),
      UInt64.toNat_ofNat_of_lt (show i * 2 ^ 26 < 2 ^ 64 by omega),
      UInt64.toNat_ofNat_of_lt (show i < 2 ^ 64 by omega), Nat.shiftRight_eq_div_pow,
      Nat.mul_div_cancel _ (by positivity)]
  rw [sortedHashes, hmap, (sorted_le_range_ofNat n (by omega)).insertionSort_eq]

/-- Up to the 132nd value every load comes before the first growth: 131 values of `31`
bits fit in the 4080 bits of the first buffer. -/
theorem encodeHashes_range_132 {n : Nat} (hn : 132 ≤ n) (hn' : n ≤ 2 ^ 38) (pool : List Bool) :
    encodeHashes ((List.range n).map UInt64.ofNat) (digestEncoder 8 30 pool) 0 132 =
      encodeSorted (digestEncoder 8 30 pool) none ((List.range 132).map UInt64.ofNat) := by
  have h := encodeHashes_eq_encodeSorted ((List.range n).map UInt64.ofNat) 132 0
    (digestEncoder 8 30 pool) none (by simp; omega) rfl rfl
  rw [List.drop_zero, ← List.map_take, List.take_range, Nat.min_eq_left hn] at h
  apply h
  rw [List.range_succ, List.map_append, List.map_singleton, List.dropLast_concat]
  refine (encodeSorted_none_of_room (digestEncoder_encodes 8 30 pool) (show 30 < 64 by omega) rfl
    (sorted_le_range_ofNat 131 (by norm_num)) ?_).1
  simp only [destutter_range_ofNat 131 (by norm_num), digestEncoder, List.length_nil,
    length_riceCodes_range 30 131 (by norm_num)]
  omega

/-- The diary of the `n` hashes `i * 2^26` with `maxP = 2^30` and no authority, for `n` that
rounds to `2^8`: the header is `log2n = 8`, `log2p = 30`, and the loop runs over the stored
values `0 .. n - 1`. -/
theorem digestRun_range_mul {n : Nat} (hN : ceilPowerOf2 n = some (2 ^ 8)) (hn : n ≤ 256)
    (pool : List Bool) {e : GsetEncoder} {sts : List Status}
    (hloop : encodeHashes ((List.range n).map UInt64.ofNat) (digestEncoder 8 30 pool) 0 n =
      (e, sts)) :
    digestRun ⟨(List.range n).map (fun i => UInt64.ofNat (i * 2 ^ 26)), 256, 256, 64, none,
      .sha256, by simp [hn]⟩ pool (2 ^ 30) none = some (⟨.success, e.data, e.offset + 1⟩, sts) := by
  have hlen : ((List.range n).map fun i => UInt64.ofNat (i * 2 ^ 26)).length = n := by simp
  refine digestRun_of_loop _ rfl (by rw [hlen]; exact hN) (by omega) (by omega)
    (by decide : ceilPowerOf2 (2 ^ 30) = some (2 ^ 30)) (by omega) (by rfl) ?_
  rw [sortedHashes_mul n (by omega), hlen]
  exact hloop

/-- **The growth block lands on hashes not yet loaded.** A diary of capacity `256` holding
the `140` hashes `i * 2^26`, `maxP = 2^30`, no authority, every growth granted: the header is
`log2n = 8`, `log2p = 30`, and the stored values are `0 .. 139`, `31` bits each. The 132nd
value overflows the 4080 bits of the first buffer, and its growth block of 1024 bytes is
carved from byte `144`, right after `hashes`' 144 bytes and over the stores of `hashes[18]`
on. `hashes[131 .. 139]` now load as zero bytes of that block, each equal to the one before
it, and the loop skips them: the digest holds the first 132 values only, in 514 bytes. -/
theorem h2PushDiaryDigestGet_loses_values :
    ∃ r, h2PushDiaryDigestGet ⟨(List.range 140).map (fun i => UInt64.ofNat (i * 2 ^ 26)), 256,
        256, 64, none, .sha256, by decide⟩ [] (2 ^ 30) none = some r ∧
      r.status = .success ∧ r.plen = 514 ∧
      gcsDecode 30 (streamBits ((r.data.take r.plen).drop 2)) = List.range 132 := by
  -- the first 132 values, with the growth during the last of them
  obtain ⟨-, he⟩ := encodeSorted_none_encodes (digestEncoder_encodes 8 30 []) rfl
    (by decide) rfl (sorted_le_range_ofNat 132 (by norm_num))
  rw [List.nil_append, destutter_range_ofNat 132 (by norm_num)] at he
  have hshape := encodeSorted_shape ((List.range 132).map UInt64.ofNat)
    (digestEncoder_shape 8 30 []) none
  generalize hr : encodeSorted (digestEncoder 8 30 []) none ((List.range 132).map UInt64.ofNat) =
    r132 at he hshape
  obtain ⟨e, sts⟩ := r132
  change Encodes e [UInt8.ofNat 8, UInt8.ofNat 30] (riceCodes 30 0 (List.range 132)) at he
  change BufferShape e at hshape
  have hbits := length_riceCodes_range 30 132 (by norm_num)
  have hoff : e.offset = 513 := by
    rcases he.pos with ⟨h0, -⟩ | ⟨-, h1, h2⟩
    · have := congrArg List.length h0; rw [hbits] at this; simp at this
    · rw [hbits] at h2; omega
  have hdl : e.datalen = 1024 := by
    obtain ⟨⟨k, hk⟩, hhalf, -⟩ := hshape
    have hle := he.length_le
    rw [hbits] at hle
    rcases k with _ | _ | k
    · omega
    · simpa using hk
    · have := @Nat.one_le_two_pow k; rw [Nat.pow_succ, Nat.pow_succ] at hk; omega
  -- the stores of `hashes[131 .. 139]` lie in the growth block, past the bytes written
  have hzero : ∀ i, 131 ≤ i → i < 140 →
      hashesAt ((List.range 140).map UInt64.ofNat) e i = 0 := fun i hi hi' =>
    hashesAt_eq_zero fun m hm => by
      have hA : aprAlign (hashesBlockBytes ((List.range 140).map UInt64.ofNat).length) = 144 := by
        rw [List.length_map, List.length_range]; rfl
      rw [poolByte_of_grown_once hdl (by omega) (by omega), hA]
      exact hshape.zero _ (by omega)
  have hrest : encodeHashes ((List.range 140).map UInt64.ofNat) e 132 8 = (e, []) :=
    encodeHashes_of_repeats 8 132 (by omega) fun i hi hi' => by
      rw [hzero i (by omega) hi', hzero (i - 1) (by omega) (by omega)]
  have hloop : encodeHashes ((List.range 140).map UInt64.ofNat) (digestEncoder 8 30 []) 0
      (132 + 8) = (e, sts ++ []) := by
    rw [encodeHashes_add, encodeHashes_range_132 (by norm_num) (by norm_num), hr, Nat.zero_add,
      hrest]
  obtain ⟨hplen, hgs⟩ := he.isGolombSet (by omega) (by omega)
  refine ⟨⟨.success, e.data, e.offset + 1⟩, ?_, rfl, by show e.offset + 1 = 514; omega,
    hgs.decode (List.pairwise_lt_range 132)⟩
  rw [h2PushDiaryDigestGet, digestRun_range_mul (by decide) (by norm_num) [] hloop]
  rfl

/-! ## §8 — the status of a refused growth is dropped -/

/-- **A refused growth is reported as success.** A diary of capacity `256` holding the
`132` hashes `i * 2^26`, with `maxP = 2^30` and no authority: the header is `log2n = 8`,
`log2p = 30`, every value costs `31` bits, and the codes overflow the 4080 bits of the first
buffer during the last value, after every load. With that growth refused,
`gset_encode_next` returns `APR_ENOMEM`, and `h2_push_diary_digest_get` returns
`APR_SUCCESS`. -/
theorem h2PushDiaryDigestGet_drops_enomem :
    ∃ r sts, digestRun ⟨(List.range 132).map (fun i => UInt64.ofNat (i * 2 ^ 26)), 256, 256, 64,
        none, .sha256, by decide⟩ [false] (2 ^ 30) none = some (r, sts) ∧
      Status.enomem ∈ sts ∧ r.status = .success := by
  have henomem := encodeSorted_none_of_refusal (digestEncoder_encodes 8 30 [false]) rfl
    (by decide) rfl (sorted_le_range_ofNat 132 (by norm_num)) (by
      simp only [destutter_range_ofNat 132 (by norm_num), digestEncoder, List.length_nil,
        length_riceCodes_range 30 132 (by norm_num)]
      omega)
  rcases hr : encodeSorted (digestEncoder 8 30 [false]) none ((List.range 132).map UInt64.ofNat)
    with ⟨e, sts⟩
  rw [hr] at henomem
  exact ⟨_, _, digestRun_range_mul (by decide) (by norm_num) [false]
    ((encodeHashes_range_132 (le_refl 132) (by norm_num) [false]).trans hr), henomem, rfl⟩

/-! ## §9 — the digest does not see the order of the entries -/

/-- `qsort` leaves one order: permutations of each other sort to the same list. -/
theorem insertionSort_eq_of_perm {l₁ l₂ : List UInt64} (h : l₁.Perm l₂) :
    l₁.insertionSort (· ≤ ·) = l₂.insertionSort (· ≤ ·) :=
  List.eq_of_perm_of_sorted
    (((List.perm_insertionSort _ l₁).trans h).trans (List.perm_insertionSort _ l₂).symm)
    (List.sorted_insertionSort _ l₁) (List.sorted_insertionSort _ l₂)

theorem digestRun_perm (d : Diary) {l : List UInt64} (hl : l.Perm d.entries) (pool : List Bool)
    (maxP : Int) (authority : Option (List Char)) :
    digestRun { d with entries := l } pool maxP authority = digestRun d pool maxP authority := by
  have hne : (l ≠ []) = (d.entries ≠ []) := by
    simp only [ne_eq, ← List.length_eq_zero, hl.length_eq]
  have hsort : ∀ s, sortedHashes l s = sortedHashes d.entries s :=
    fun s => insertionSort_eq_of_perm (hl.map _)
  unfold digestRun
  simp only [hl.length_eq, hne, hsort]

/-- **The digest does not see the LRU order.** Reordering the entries of a diary changes
neither the status, nor the bytes, nor the length of its digest, whatever the pool answers
to the growths of the buffer. -/
theorem h2PushDiaryDigestGet_perm (d : Diary) {l : List UInt64} (hl : l.Perm d.entries)
    (pool : List Bool) (maxP : Int) (authority : Option (List Char)) :
    h2PushDiaryDigestGet { d with entries := l } pool maxP authority =
      h2PushDiaryDigestGet d pool maxP authority := by
  rw [h2PushDiaryDigestGet, h2PushDiaryDigestGet, digestRun_perm d hl]

theorem h2PushDiaryDigestGet_perm_swap :
    let d : Diary := ⟨[7, 9], 2, 2, 64, none, .sha256, le_refl 2⟩
    [(9 : UInt64), 7].Perm d.entries ∧
      h2PushDiaryDigestGet { d with entries := [9, 7] } [] 1 none =
        h2PushDiaryDigestGet d [] 1 none :=
  ⟨by decide, h2PushDiaryDigestGet_perm _ (by decide) _ _ _⟩

end H2
