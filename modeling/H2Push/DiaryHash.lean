import H2Push.DiaryLru
import H2Push.Digest

/-!
# H2Push — the diary's hash functions

`diary_create` fixes the diary's `dcalc`: `calc_sha256_hash` for a SHA-256 diary,
`calc_apr_hash` otherwise. Both hash the push's `scheme`, `authority` and `path`. The digest
primitives are not part of this file (OpenSSL's `EVP_sha256`, APR's `apr_hashfunc_default`)
and are parameters here: `sha256` maps the text fed to `EVP_DigestUpdate` to the bytes
`EVP_DigestFinal` writes, `aprHash` is `val_apr_hash`.

* **`calcSha256Hash_keeps_last_bytes`** — `calc_sha256_hash` folds every byte of the digest
  into one `apr_uint64_t`, `val = val * 256 + hash[i]`. The multiplications wrap, so of a
  32-byte digest only the last eight bytes survive: the stored hash is the top `mask_bits`
  bits of the digest's *last* eight bytes read big-endian (`digestVal_toNat`,
  `ofBE_mod_two_pow_64`).
* **`aprHashDiary_digest_single_value`** — `calc_apr_hash` shifts the scheme's hash by 32
  and the authority's by 16 only, so its top 16 bits are the scheme's
  (`calcAprHash_toNat_shiftRight_48`). A cache digest that keeps at most 16 bits per entry
  of an APR-hash diary of at most 2048 entries whose pushes share a scheme holds at most one
  value. The run side comes from `DiaryLru` (`mem_lruRun`, `diaryRun_with`), the digest side
  from `Digest`.
-/

namespace H2

/-- Big-endian bytes read as a natural. -/
def ofBE (bytes : List UInt8) : Nat :=
  bytes.foldl (fun acc b => acc * 256 + b.toNat) 0

/-- The text `calc_sha256_hash` feeds the digest: `scheme`, `://`, `authority`, `path`. -/
def pushKey (push : Push) : List Char :=
  push.req.scheme ++ "://".toList ++ push.req.authority ++ push.req.path

/-- The loop `for (i = 0; i != len; ++i) val = val * 256 + hash[i];` in `apr_uint64_t`. -/
def digestVal (hash : List UInt8) : UInt64 :=
  hash.foldl (fun val b => val * 256 + b.toUInt64) 0

/-- `calc_sha256_hash`: the digest of the push's URL folded into `val`, then
`val >> (64 - mask_bits)`; a shift count outside `0 .. 63` is undefined. -/
def calcSha256Hash (sha256 : List Char → List UInt8) (diary : Diary) (push : Push) :
    Option UInt64 :=
  let val := digestVal (sha256 (pushKey push))
  if 0 < diary.maskBits ∧ diary.maskBits ≤ 64 then some (val >>> (64 - diary.maskBits).toUInt64)
  else none

/-- `calc_apr_hash` where `apr_uint64_t` is wider than `unsigned int`: the hashes of
`scheme`, `authority` and `path`, shifted by `32`, `16` and `0` and combined by `^`. -/
def calcAprHash (aprHash : List Char → UInt32) (push : Push) : UInt64 :=
  ((aprHash push.req.scheme).toUInt64 <<< 32) ^^^
    ((aprHash push.req.authority).toUInt64 <<< 16) ^^^ (aprHash push.req.path).toUInt64

/-- The `dcalc` that `diary_create` installs for the diary's digest type, as
`h2_push_diary_update` calls it. -/
def diaryDcalc (sha256 : List Char → List UInt8) (aprHash : List Char → UInt32)
    (diary : Diary) (push : Push) : Option UInt64 :=
  match diary.dtype with
  | .sha256 => calcSha256Hash sha256 diary push
  | .aprHash => some (calcAprHash aprHash push)

/-! ## §1 — big-endian readings -/

theorem foldl_ofBE (bytes : List UInt8) (acc : Nat) :
    bytes.foldl (fun acc b => acc * 256 + b.toNat) acc = acc * 256 ^ bytes.length + ofBE bytes := by
  induction bytes generalizing acc with
  | nil => simp [ofBE]
  | cons b bytes ih =>
    show bytes.foldl _ (acc * 256 + b.toNat) = _ + bytes.foldl _ (0 * 256 + b.toNat)
    rw [ih, ih, List.length_cons, Nat.pow_succ]
    ring

theorem ofBE_append (A B : List UInt8) : ofBE (A ++ B) = ofBE A * 256 ^ B.length + ofBE B := by
  rw [ofBE, List.foldl_append, foldl_ofBE]
  rfl

theorem ofBE_cons (b : UInt8) (bytes : List UInt8) :
    ofBE (b :: bytes) = b.toNat * 256 ^ bytes.length + ofBE bytes := by
  rw [ofBE, List.foldl_cons, foldl_ofBE, Nat.zero_mul, Nat.zero_add]

theorem ofBE_lt (bytes : List UInt8) : ofBE bytes < 256 ^ bytes.length := by
  induction bytes with
  | nil => simp [ofBE]
  | cons b bytes ih =>
    have hb : b.toNat < 256 := b.toNat_lt_size
    rw [ofBE_cons, List.length_cons, Nat.pow_succ]
    nlinarith

/-! ## §2 — the loop of `calc_sha256_hash` -/

/-- One round of the loop: `val * 256 + hash[i]` wraps modulo `2^64`. -/
theorem toNat_digestStep (a : UInt64) (b : UInt8) :
    (a * 256 + b.toUInt64).toNat = (a.toNat * 256 + b.toNat) % 2 ^ 64 := by
  show (a.toBitVec * (256 : UInt64).toBitVec + b.toUInt64.toBitVec).toNat = _
  rw [BitVec.toNat_add, BitVec.toNat_mul]
  show (a.toNat * 256 % 2 ^ 64 + b.toNat) % 2 ^ 64 = _
  rw [Nat.add_mod, Nat.mod_mod, ← Nat.add_mod]

/-- The loop computes the big-endian reading of the digest modulo `2^64`. -/
theorem foldl_digestVal_toNat (bytes : List UInt8) (acc : UInt64) :
    (bytes.foldl (fun val b => val * 256 + b.toUInt64) acc).toNat =
      (acc.toNat * 256 ^ bytes.length + ofBE bytes) % 2 ^ 64 := by
  induction bytes generalizing acc with
  | nil => simp [ofBE, Nat.mod_eq_of_lt acc.toNat_lt_size]
  | cons b bytes ih =>
    rw [List.foldl_cons, ih, toNat_digestStep, ofBE_cons, List.length_cons, Nat.add_mod,
      Nat.mul_mod, Nat.mod_mod, ← Nat.mul_mod, ← Nat.add_mod]
    congr 1
    ring

theorem digestVal_toNat (hash : List UInt8) : (digestVal hash).toNat = ofBE hash % 2 ^ 64 := by
  simpa using foldl_digestVal_toNat hash 0

/-- Modulo `2^64` only the last eight bytes count. -/
theorem ofBE_mod_two_pow_64 {hash : List UInt8} (h : 8 ≤ hash.length) :
    ofBE hash % 2 ^ 64 = ofBE (hash.drop (hash.length - 8)) := by
  have hlen : (hash.drop (hash.length - 8)).length = 8 := by simp; omega
  have hlt := ofBE_lt (hash.drop (hash.length - 8))
  rw [hlen, show (256 : Nat) ^ 8 = 2 ^ 64 by norm_num] at hlt
  conv_lhs => rw [← List.take_append_drop (hash.length - 8) hash, ofBE_append, hlen,
    show (256 : Nat) ^ 8 = 2 ^ 64 by norm_num]
  omega

/-! ## §3 — the stored hash -/

/-- **`calc_sha256_hash` keeps the last eight bytes.** For a 32-byte digest and `mask_bits`
in `1 .. 64`, the stored hash is the top `mask_bits` bits of the digest's last eight bytes
read big-endian: the loop's wrapping multiplications push the first 24 bytes out of `val`. -/
theorem calcSha256Hash_keeps_last_bytes (sha256 : List Char → List UInt8) (diary : Diary)
    (push : Push) (hlen : (sha256 (pushKey push)).length = 32) (hm : 1 ≤ diary.maskBits)
    (hm' : diary.maskBits ≤ 64) :
    (calcSha256Hash sha256 diary push).map UInt64.toNat =
      some (ofBE ((sha256 (pushKey push)).drop 24) >>> (64 - diary.maskBits)) := by
  unfold calcSha256Hash
  rw [if_pos ⟨hm, hm'⟩, Option.map_some', toNat_shiftRight_toUInt64 _ (by omega),
    digestVal_toNat, ofBE_mod_two_pow_64 (by omega), hlen]

/-- The SHA-256 digest of `https://example.org/a.css`, at `mask_bits = 64`: the stored hash
is `a16624caafdb7d88`, the digest's last eight bytes, not its first eight
`b81b71d443aa8c84`. -/
theorem calcSha256Hash_keeps_last_bytes_example_org :
    let digest : List UInt8 := [184, 27, 113, 212, 67, 170, 140, 132, 145, 174, 52, 50, 250,
      46, 111, 93, 15, 156, 169, 128, 20, 148, 241, 22, 161, 102, 36, 202, 175, 219, 125, 136]
    let push : Push :=
      ⟨⟨"GET".toList, "https".toList, "example.org".toList, "/a.css".toList, []⟩, none⟩
    let diary : Diary := ⟨[], 2, 2, 64, none, .sha256, le_refl 2⟩
    (digest.length = 32 ∧ 1 ≤ diary.maskBits ∧ diary.maskBits ≤ 64) ∧
      (calcSha256Hash (fun _ => digest) diary push).map UInt64.toNat =
        some (ofBE (digest.drop 24) >>> (64 - diary.maskBits)) ∧
      ofBE (digest.drop 24) = 0xa16624caafdb7d88 ∧ ofBE (digest.take 8) = 0xb81b71d443aa8c84 :=
  ⟨⟨rfl, by decide, by decide⟩,
    calcSha256Hash_keeps_last_bytes (fun _ => _) _ _ rfl (by decide) (by decide),
    by decide, by decide⟩

/-! ## §4 — the APR hash and the cache digest -/

/-- Bits `48 .. 63` of `(a << 32) ^ (b << 16) ^ c` in 64 bits, for 32-bit `a`, `b`, `c`,
are bits `16 .. 31` of `a`. -/
theorem xor_shiftLeft_shiftRight_48 {a b c : Nat} (ha : a < 2 ^ 32) (hb : b < 2 ^ 32)
    (hc : c < 2 ^ 32) :
    ((a <<< 32) % 2 ^ 64 ^^^ (b <<< 16) % 2 ^ 64 ^^^ c) >>> 48 = a >>> 16 := by
  have high : ∀ {x : Nat} (j : Nat), x < 2 ^ 32 → 32 ≤ j → x.testBit j = false :=
    fun j hx hj => Nat.testBit_lt_two_pow (lt_of_lt_of_le hx (Nat.pow_le_pow_right (by decide) hj))
  apply Nat.eq_of_testBit_eq
  intro i
  simp only [Nat.testBit_shiftRight, Nat.testBit_xor, Nat.testBit_mod_two_pow,
    Nat.testBit_shiftLeft, high (48 + i - 16) hb (by omega), high (48 + i) hc (by omega)]
  by_cases hi : 48 + i < 64
  · simp [hi, show 48 + i - 32 = 16 + i by omega, show 32 ≤ 48 + i by omega]
  · simp [hi, high (16 + i) ha (by omega)]

/-- The top 16 bits of `calc_apr_hash` are those of the scheme's hash alone: the authority's
hash is shifted by `16` only, the path's not at all. -/
theorem calcAprHash_toNat_shiftRight_48 (aprHash : List Char → UInt32) (push : Push) :
    (calcAprHash aprHash push).toNat >>> 48 = (aprHash push.req.scheme).toNat >>> 16 := by
  show ((((aprHash push.req.scheme).toNat <<< 32) % 2 ^ 64 ^^^
    ((aprHash push.req.authority).toNat <<< 16) % 2 ^ 64) ^^^
    (aprHash push.req.path).toNat) >>> 48 = _
  exact xor_shiftLeft_shiftRight_48 (UInt32.toNat_lt_size _) (UInt32.toNat_lt_size _)
    (UInt32.toNat_lt_size _)
theorem eq_nil_or_singleton_of_sorted {vs : List Nat} {c : Nat} (hs : vs.Sorted (· < ·))
    (h : ∀ x ∈ vs, x = c) : vs = [] ∨ vs = [c] := by
  match vs, hs with
  | [], _ => exact .inl rfl
  | [a], _ => exact .inr (by rw [h a (List.mem_singleton_self a)])
  | a :: b :: _, hs =>
    have hab := List.rel_of_sorted_cons hs b (List.mem_cons_self _ _)
    rw [h a (List.mem_cons_self _ _), h b (List.mem_cons_of_mem _ (List.mem_cons_self _ _))] at hab
    exact absurd hab (Nat.lt_irrefl c)

/-- **An APR-hash diary has a one-value cache digest.** Take a diary with the APR hash,
empty and with `mask_bits = 64` as `diary_create` makes it, and any run of
`h2_push_diary_update` calls whose pushes share one scheme, `https` say. When the digest
keeps at most 16 bits per entry (`log2n + log2p ≤ 16`) and the diary holds at most 2048
entries (`log2n ≤ 11`, as for at most 256 entries and `maxP ≤ 256`), those bits come from
the scheme's hash alone. Its code then takes fewer than `2^11 + 16` bits and fits in the
first buffer: the digest decodes to nothing or to one value, whatever the authorities and
paths pushed. -/
theorem aprHashDiary_digest_single_value (sha256 : List Char → List UInt8)
    (aprHash : List Char → UInt32) (d : Diary) (hdt : d.dtype = .aprHash) (hd : d.entries = [])
    (hmask : d.maskBits = 64) (hN : d.N ≤ 2 ^ 30) (sc : List Char)
    (calls : List (Option (List Push))) (hsc : ∀ c ∈ calls, ∀ p ∈ c.getD [], p.req.scheme = sc)
    (maxP : Int) (hP : maxP ≤ 2 ^ 30) (authority : Option (List Char))
    (hauth : authorityMatches d.authority authority = true) :
    (∀ p, diaryDcalc sha256 aprHash d p = some (calcAprHash aprHash p)) ∧
    ∃ d', (diaryRun (calcAprHash aprHash) (some d) calls).1 = some d' ∧
      ∃ N P, ceilPowerOf2 d'.entries.length = some N ∧ ceilPowerOf2 maxP = some P ∧
        (h2Log2 N + h2Log2 P ≤ 16 → h2Log2 N ≤ 11 →
          ∃ r, h2PushDiaryDigestGet d' [] maxP authority = some r ∧
            (gcsDecode (h2Log2 P) (streamBits ((r.data.take r.plen).drop 2)) = [] ∨
              gcsDecode (h2Log2 P) (streamBits ((r.data.take r.plen).drop 2)) =
                [(aprHash sc).toNat >>> 16 >>> (16 - h2Log2 N - h2Log2 P)])) := by
  refine ⟨fun p => by simp [diaryDcalc, hdt], ?_⟩
  obtain ⟨d', hrun, -, ⟨hent, -, hlen⟩, -⟩ :=
    diaryRun_refines (calcAprHash aprHash) calls d [] ⟨hd, List.nodup_nil, Nat.zero_le _⟩
  -- the run changed the entries only
  obtain ⟨l, hl⟩ := diaryRun_with (calcAprHash aprHash) calls d
  obtain rfl : d' = { d with entries := l } := Option.some.inj (hrun.symm.trans hl)
  refine ⟨_, hrun, ?_⟩
  have hent : l = (lruRun d.N (calcAprHash aprHash) [] calls).1 := hent
  have hlen : l.length ≤ d.N := hent ▸ hlen
  obtain ⟨k, hNk, hk1, hk⟩ :=
    ceilPowerOf2_eq_two_pow (n := l.length) (by exact_mod_cast hlen.trans hN)
  obtain ⟨j, hPj, -, hj⟩ := ceilPowerOf2_eq_two_pow hP
  refine ⟨_, _, hNk, hPj, fun hbits hk11 => ?_⟩
  simp only [h2Log2_two_pow] at hbits hk11 ⊢
  have hmem := mem_shifted_iff l (s := 64 - k - j) (by omega)
  have hsort : (((sortedHashes l (64 - k - j)).destutter (· ≠ ·)).map UInt64.toNat).Sorted
      (· < ·) := sorted_destutter_toNat (List.sorted_insertionSort _ _)
  generalize hvs : ((sortedHashes l (64 - k - j)).destutter (· ≠ ·)).map UInt64.toNat = vs
    at hmem hsort
  -- each encoded value is the top `k + j` bits of an APR hash of a push of scheme `sc`
  have hone := eq_nil_or_singleton_of_sorted hsort fun x hx => by
    obtain ⟨h, hh, rfl⟩ := (hmem x).mp hx
    rcases mem_lruRun _ _ calls [] (hent ▸ hh) with hh | ⟨c, hc, p, hp, rfl⟩
    · cases hh
    · rw [show 64 - k - j = 48 + (16 - k - j) by omega, Nat.shiftRight_add,
        calcAprHash_toNat_shiftRight_48, hsc c hc p hp]
  -- so the code is at most one value of `k + j` bits, and it fits in the first buffer
  have hfit : (riceCodes j 0 vs).length ≤ 2 ^ k + j :=
    length_riceCodes_single_le (by rcases hone with h | h <;> rw [h] <;> simp) fun v hv => by
      obtain ⟨h, -, rfl⟩ := (hmem v).mp hv
      have := shiftRight_le_pow_sub_one h (k := k) (j := j) (by omega)
      have := Nat.two_pow_pos (k + j)
      omega
  have h11 : 2 ^ k ≤ 2 ^ 11 := Nat.pow_le_pow_right (by omega) hk11
  obtain ⟨r, hr, -, -, -, hdec⟩ := digestGet_golombSet_of_fit { d with entries := l } hmask hNk
    hk1 hk hPj hj hauth [] hvs (by omega)
  exact ⟨r, hr, hdec ▸ hone⟩

/-- Two `https` pushes to different hosts, with the string length as the APR hash. -/
theorem aprHashDiary_digest_single_value_https :
    let aprHash : List Char → UInt32 := fun s => s.length.toUInt32
    let d : Diary := ⟨[], 4, 4, 64, none, .aprHash, by decide⟩
    let calls : List (Option (List Push)) :=
      [some [⟨⟨"GET".toList, "https".toList, "a.example".toList, "/x".toList, []⟩, none⟩,
        ⟨⟨"GET".toList, "https".toList, "bb.example".toList, "/yy".toList, []⟩, none⟩]]
    (d.dtype = .aprHash ∧ d.entries = [] ∧ d.maskBits = 64 ∧ d.N ≤ 2 ^ 30 ∧
      (∀ c ∈ calls, ∀ p ∈ c.getD [], p.req.scheme = "https".toList) ∧ (16 : Int) ≤ 2 ^ 30 ∧
      authorityMatches d.authority none = true) ∧
    (∀ p, diaryDcalc (fun _ => []) aprHash d p = some (calcAprHash aprHash p)) ∧
    ∃ d', (diaryRun (calcAprHash aprHash) (some d) calls).1 = some d' ∧
      ∃ N P, ceilPowerOf2 d'.entries.length = some N ∧ ceilPowerOf2 16 = some P ∧
        (h2Log2 N + h2Log2 P ≤ 16 → h2Log2 N ≤ 11 →
          ∃ r, h2PushDiaryDigestGet d' [] 16 none = some r ∧
            (gcsDecode (h2Log2 P) (streamBits ((r.data.take r.plen).drop 2)) = [] ∨
              gcsDecode (h2Log2 P) (streamBits ((r.data.take r.plen).drop 2)) =
                [(aprHash "https".toList).toNat >>> 16 >>> (16 - h2Log2 N - h2Log2 P)])) :=
  ⟨⟨rfl, rfl, rfl, by decide, by decide, by decide, rfl⟩,
    aprHashDiary_digest_single_value _ _ _ rfl rfl rfl (by decide) _ _ (by decide) _
      (by decide) _ rfl⟩

end H2
