import H2Push.GolombRice

/-!
# H2Push — the Golomb-set bit writer

`gset_encoder` packs bits most-significant-first into a byte buffer that grows by
doubling. `offset` is the byte being filled and `bit` the position of the last bit
written in it; the writer starts at `offset = 1, bit = 8`, just after the two header
bytes, so its first bit opens byte `2`. A fresh byte is set to `0xff` and a `0` bit
clears its mask, so the unwritten bits of the last byte stay `1`.

The buffer is a list of bytes with its length `datalen`. Growth asks the pool for a
block of twice the length; `pool` lists the pool's answers to the coming requests
(`false` for `NULL`), and past its end every request succeeds.

The abstraction is `Encodes e hdr bs`: the bytes up to `offset`, read bit by bit after
the header `hdr`, are the bits `bs` written so far followed by the `1`s of the unfinished
byte. The buffer is full exactly when `bs.length + 16 = 8 * datalen` (`Encodes.full_iff`);
short of that a call appends its bit without touching the pool (`gsetEncodeBit_of_room`),
at that point it appends it after a granted growth (`gsetEncodeBit_of_grant`) and fails
after a refused one (`gsetEncodeBit_of_refusal`).

`encodeBits` runs `gset_encode_bit` over a list of bits, stopping at the first failure;
the two loops of `gset_encode_next` are such runs, and together with the `0` between them
they write the Golomb-Rice code of the gap (`gsetEncodeNext_eq`).
-/

namespace H2

/-- `apr_status_t`, as far as the encoder reports it. -/
inductive Status where
  | success
  | enomem
  deriving DecidableEq, Repr

/-- `cbit_mask`: the mask of bit `i` of a byte, most significant first. -/
def cbitMask : List UInt8 := [0x80, 0x40, 0x20, 0x10, 0x08, 0x04, 0x02, 0x01]

/-- `gset_encoder`: the fields `gset_encode_bit` and `gset_encode_next` read and write. -/
structure GsetEncoder where
  fixedBits : Nat
  pool : List Bool
  data : List UInt8
  datalen : Nat
  offset : Nat
  bit : Nat
  last : UInt64

/-- The tail of `gset_encode_bit`: `if (!bit) data[offset] &= ~cbit_mask[bit];`. -/
def storeBit (e : GsetEncoder) (b : Bool) : GsetEncoder :=
  if b then e
  else { e with data := e.data.modify (· &&& ~~~(cbitMask.getD e.bit 0)) e.offset }

/-- `gset_encode_bit`. Past the last bit of a byte it opens the next one, growing the
buffer when `offset` reaches `datalen`; a `NULL` block returns `APR_ENOMEM` with `bit`
and `offset` already advanced. -/
def gsetEncodeBit (e : GsetEncoder) (b : Bool) : GsetEncoder × Status :=
  if 8 ≤ e.bit + 1 then
    if e.datalen ≤ e.offset + 1 then
      if e.pool.headD true then
        (storeBit { e with pool := e.pool.tail,
                           data := (e.data.take e.datalen ++ List.replicate e.datalen 0).set
                             (e.offset + 1) 0xff,
                           datalen := e.datalen * 2, offset := e.offset + 1, bit := 0 } b,
          .success)
      else ({ e with pool := e.pool.tail, offset := e.offset + 1, bit := e.bit + 1 }, .enomem)
    else
      (storeBit { e with data := e.data.set (e.offset + 1) 0xff, offset := e.offset + 1,
                         bit := 0 } b, .success)
  else (storeBit { e with bit := e.bit + 1 } b, .success)

/-- The unary loop of `gset_encode_next`: `flex_bits` one bits, stopping at a failure. -/
def encodeOnes (e : GsetEncoder) : Nat → GsetEncoder × Status
  | 0 => (e, .success)
  | n + 1 =>
    match gsetEncodeBit e true with
    | (e', .success) => encodeOnes e' n
    | r => r

/-- The remainder loop of `gset_encode_next`: bits `i - 1` down to `0` of `delta`. -/
def encodeFixed (e : GsetEncoder) (delta : UInt64) : Nat → GsetEncoder × Status
  | 0 => (e, .success)
  | i + 1 =>
    match gsetEncodeBit e ((delta >>> i.toUInt64) &&& 1 != 0) with
    | (e', .success) => encodeFixed e' delta i
    | r => r

/-- `gset_encode_next`: the gap to the previous value, as a unary quotient, a `0`, and
`fixed_bits` remainder bits. -/
def gsetEncodeNext (e : GsetEncoder) (pval : UInt64) : GsetEncoder × Status :=
  let delta := pval - e.last
  let e := { e with last := pval }
  match encodeOnes e (delta >>> e.fixedBits.toUInt64).toNat with
  | (e, .success) =>
    match gsetEncodeBit e false with
    | (e, .success) => encodeFixed e delta e.fixedBits
    | r => r
  | r => r


/-- Writing the bits `bs` one after another with `gset_encode_bit`, stopping at the first
call that fails. -/
def encodeBits (e : GsetEncoder) : List Bool → GsetEncoder × Status
  | [] => (e, .success)
  | b :: bs =>
    match gsetEncodeBit e b with
    | (e', .success) => encodeBits e' bs
    | r => r

/-! ## §1 — bytes read as bits -/

/-- The bits of a byte, most significant first: bit `j` is the one `cbit_mask[j]` selects. -/
def byteBits (x : UInt8) : List Bool := (List.range 8).map fun i => x.toNat.testBit (7 - i)

/-- The bits of a byte string, byte after byte. -/
def streamBits (bytes : List UInt8) : List Bool := bytes.flatMap byteBits

/-- The `1`s that complete `n` written bits to whole bytes. -/
def padLen (n : Nat) : Nat := (8 - n % 8) % 8

@[simp] theorem length_byteBits (x : UInt8) : (byteBits x).length = 8 := by simp [byteBits]

theorem streamBits_append (a b : List UInt8) :
    streamBits (a ++ b) = streamBits a ++ streamBits b :=
  List.flatMap_append ..

theorem streamBits_singleton (x : UInt8) : streamBits [x] = byteBits x := by simp [streamBits]

@[simp] theorem length_streamBits (l : List UInt8) : (streamBits l).length = 8 * l.length := by
  induction l with
  | nil => rfl
  | cons x l ih => simp [streamBits] at *; omega

theorem byteBits_ff : byteBits 0xff = List.replicate 8 true := by decide

theorem not_cbitMask_testBit : ∀ j < 8, ∀ i < 8,
    (~~~(cbitMask.getD j 0)).toNat.testBit (7 - i) = decide (i ≠ j) := by decide

/-- `&= ~cbit_mask[j]` clears bit `j` and keeps the others. -/
theorem byteBits_clear (x : UInt8) {j : Nat} (hj : j < 8) :
    byteBits (x &&& ~~~(cbitMask.getD j 0)) = (byteBits x).set j false := by
  refine List.ext_getElem (by simp) fun i h1 _ => ?_
  simp only [length_byteBits] at h1
  simp only [byteBits, List.getElem_map, List.getElem_range, List.getElem_set, UInt8.and_toNat,
    Nat.testBit_and, not_cbitMask_testBit j hj i h1]
  by_cases hij : j = i
  · subst hij; simp
  · simp [hij, Ne.symm hij]

theorem streamBits_take_succ {D : List UInt8} {o : Nat} (ho : 2 ≤ o) (hD : o < D.length) :
    streamBits ((D.take (o + 1)).drop 2) = streamBits ((D.take o).drop 2) ++ byteBits D[o] := by
  rw [List.take_succ, List.getElem?_eq_getElem hD, Option.toList_some,
    List.drop_append_of_le_length (by simp; omega), streamBits_append, streamBits_singleton]

theorem padLen_of_mod_eq_zero {n : Nat} (h : n % 8 = 0) : padLen n = 0 := by simp [padLen, h]

theorem set_length_append_replicate (bs : List Bool) (k : Nat) (b : Bool) :
    (bs ++ List.replicate (k + 1) true).set bs.length b = (bs ++ [b]) ++ List.replicate k true := by
  rw [List.set_append_right _ _ (le_refl _), Nat.sub_self, List.replicate_succ, List.set_cons_zero,
    List.append_assoc, List.singleton_append]

/-! ## §2 — the invariant -/

/-- The encoder holds the header `hdr` and the bits `bs`: bytes `2 .. offset`, read as bits,
are `bs` and the `1`s that pad the last byte. Before the first bit the writer sits at
`offset = 1, bit = 8`; afterwards `8 * offset + bit` counts the bits past the header. -/
structure Encodes (e : GsetEncoder) (hdr : List UInt8) (bs : List Bool) : Prop where
  data_length : e.data.length = e.datalen
  offset_lt : e.offset < e.datalen
  header : e.data.take 2 = hdr
  pos : (bs = [] ∧ e.offset = 1 ∧ e.bit = 8) ∨
    (bs ≠ [] ∧ e.bit < 8 ∧ 8 * e.offset + e.bit = bs.length + 15)
  bits : streamBits ((e.data.take (e.offset + 1)).drop 2) =
    bs ++ List.replicate (padLen bs.length) true

/-- The bits written fit in the buffer. -/
theorem Encodes.length_le {e : GsetEncoder} {hdr : List UInt8} {bs : List Bool}
    (h : Encodes e hdr bs) : bs.length + 16 ≤ 8 * e.datalen := by
  have := h.offset_lt
  rcases h.pos with ⟨rfl, h1, -⟩ | ⟨-, h1, h2⟩ <;> simp <;> omega

/-- `gset_encode_bit` asks for a larger buffer exactly when every byte of it is written. -/
theorem Encodes.full_iff {e : GsetEncoder} {hdr : List UInt8} {bs : List Bool}
    (h : Encodes e hdr bs) :
    (8 ≤ e.bit + 1 ∧ e.datalen ≤ e.offset + 1) ↔ bs.length + 16 = 8 * e.datalen := by
  have := h.offset_lt
  rcases h.pos with ⟨rfl, h1, h2⟩ | ⟨hne, h1, h2⟩
  · simp; omega
  · have : bs.length ≠ 0 := by simpa using hne
    omega

/-! ## §3 — storing one bit -/

@[simp] theorem storeBit_data (e : GsetEncoder) (b : Bool) :
    (storeBit e b).data =
      if b then e.data else e.data.modify (· &&& ~~~(cbitMask.getD e.bit 0)) e.offset := by
  unfold storeBit; split <;> simp_all

@[simp] theorem storeBit_offset (e : GsetEncoder) (b : Bool) :
    (storeBit e b).offset = e.offset := by
  unfold storeBit; split <;> rfl

@[simp] theorem storeBit_bit (e : GsetEncoder) (b : Bool) : (storeBit e b).bit = e.bit := by
  unfold storeBit; split <;> rfl

@[simp] theorem storeBit_datalen (e : GsetEncoder) (b : Bool) :
    (storeBit e b).datalen = e.datalen := by
  unfold storeBit; split <;> rfl

@[simp] theorem storeBit_pool (e : GsetEncoder) (b : Bool) : (storeBit e b).pool = e.pool := by
  unfold storeBit; split <;> rfl

@[simp] theorem storeBit_fixedBits (e : GsetEncoder) (b : Bool) :
    (storeBit e b).fixedBits = e.fixedBits := by
  unfold storeBit; split <;> rfl

@[simp] theorem storeBit_last (e : GsetEncoder) (b : Bool) : (storeBit e b).last = e.last := by
  unfold storeBit; split <;> rfl

theorem take_succ_set {l : List UInt8} {k : Nat} (hk : k < l.length) (v : UInt8) :
    (l.set k v).take (k + 1) = l.take k ++ [v] := by
  rw [List.set_eq_take_append_cons_drop, if_pos hk, List.take_append_eq_append_take]
  simp [Nat.min_eq_left hk.le]

theorem take_succ_modify {l : List UInt8} {k : Nat} (hk : k < l.length) (f : UInt8 → UInt8) :
    (l.modify f k).take (k + 1) = l.take k ++ [f l[k]] := by
  rw [List.modify_eq_take_cons_drop hk, List.take_append_eq_append_take]
  simp [Nat.min_eq_left hk.le]

theorem take_two_set (l : List UInt8) (v : UInt8) {k : Nat} (hk : 2 ≤ k) :
    (l.set k v).take 2 = l.take 2 :=
  List.ext_getElem? fun i => by
    rw [List.getElem?_take, List.getElem?_take]
    split
    · rw [List.getElem?_set_ne (by omega)]
    · rfl

theorem take_two_modify (l : List UInt8) (f : UInt8 → UInt8) {k : Nat} (hk : 2 ≤ k) :
    (l.modify f k).take 2 = l.take 2 := by
  rw [List.take_modify, List.modify_eq_self (by simp; omega)]

/-- Storing bit `b` at position `j` of byte `o`: the stream read so far has `b` at
`8 (o - 2) + j`, provided that position held a `1`. -/
theorem streamBits_storeBit {D : List UInt8} {o j : Nat} (ho : 2 ≤ o) (hD : o < D.length)
    (hj : j < 8) (hone : (byteBits D[o])[j]? = some true) (b : Bool) :
    streamBits
        (((if b then D else D.modify (· &&& ~~~(cbitMask.getD j 0)) o).take (o + 1)).drop 2) =
      (streamBits ((D.take (o + 1)).drop 2)).set (8 * (o - 2) + j) b := by
  have hlen : (streamBits ((D.take o).drop 2)).length = 8 * (o - 2) := by simp; omega
  rw [streamBits_take_succ ho hD, List.set_append_right _ _ (by omega), hlen,
    show 8 * (o - 2) + j - 8 * (o - 2) = j by omega]
  cases b
  · rw [if_neg (by simp), take_succ_modify hD, List.drop_append_of_le_length (by simp; omega),
      streamBits_append, streamBits_singleton, byteBits_clear _ hj]
  · rw [if_pos rfl, streamBits_take_succ ho hD]
    congr 1
    refine List.ext_getElem? fun i => ?_
    rw [List.getElem?_set]
    split <;> simp_all

/-- Opening a new byte: `bit` passes `7`, the next byte is set to `0xff` and the bit stored at
its top. `D` is the buffer after any growth. -/
theorem encodes_openByte {e : GsetEncoder} {hdr : List UInt8} {bs : List Bool}
    (h : Encodes e hdr bs) (hbit : 8 ≤ e.bit + 1) {D : List UInt8} (hD : e.offset + 1 < D.length)
    (htake : D.take (e.offset + 1) = e.data.take (e.offset + 1)) (pool : List Bool)
    {datalen : Nat} (hdl : D.length = datalen) (b : Bool) :
    Encodes (storeBit { e with pool := pool, data := D.set (e.offset + 1) 0xff,
                               datalen := datalen, offset := e.offset + 1, bit := 0 } b)
      hdr (bs ++ [b]) := by
  subst hdl
  obtain ⟨hlen, hlt, hhdr, hpos, hbits⟩ := h
  have hn : 8 * (e.offset + 1 - 2) = bs.length ∧ bs.length % 8 = 0 ∧ 1 ≤ e.offset := by
    rcases hpos with ⟨rfl, h1, -⟩ | ⟨-, h1, h2⟩ <;> simp <;> omega
  have ho : 2 ≤ e.offset + 1 := by omega
  have hD' : e.offset + 1 < (D.set (e.offset + 1) 0xff).length := by simpa using hD
  have hstream : streamBits (((D.set (e.offset + 1) 0xff).take (e.offset + 1 + 1)).drop 2) =
      bs ++ List.replicate 8 true := by
    rw [take_succ_set hD, List.drop_append_of_le_length (by simp; omega), streamBits_append,
      streamBits_singleton, byteBits_ff, htake, hbits, padLen_of_mod_eq_zero hn.2.1,
      List.replicate_zero, List.append_nil]
  have hone : (byteBits (D.set (e.offset + 1) 0xff)[e.offset + 1])[0]? = some true := by
    simp [byteBits_ff]
  refine ⟨by simp only [storeBit_data]; split <;> simp, by simpa using hD, ?_,
    Or.inr ⟨by simp, by simp, by simp; omega⟩, ?_⟩
  · have h2 : D.take 2 = e.data.take 2 := by
      have := congrArg (List.take 2) htake
      simpa [List.take_take, Nat.min_eq_left ho] using this
    simp only [storeBit_data]
    split
    · rw [take_two_set _ _ ho, h2, hhdr]
    · rw [take_two_modify _ _ ho, take_two_set _ _ ho, h2, hhdr]
  · simp only [storeBit_data, storeBit_offset]
    rw [streamBits_storeBit ho hD' (by omega) hone b, hstream, Nat.add_zero, hn.1,
      show (8 : Nat) = 7 + 1 from rfl, set_length_append_replicate]
    congr 2
    simp [padLen, Nat.add_mod, hn.2.1]

/-- Filling the current byte: `bit` moves on by one and the bit is stored there. -/
theorem encodes_sameByte {e : GsetEncoder} {hdr : List UInt8} {bs : List Bool}
    (h : Encodes e hdr bs) (hbit : e.bit + 1 < 8) (b : Bool) :
    Encodes (storeBit { e with bit := e.bit + 1 } b) hdr (bs ++ [b]) := by
  obtain ⟨hlen, hlt, hhdr, hpos, hbits⟩ := h
  obtain ⟨-, -, hp⟩ := hpos.resolve_left (by omega)
  have ho : 2 ≤ e.offset := by omega
  have hD : e.offset < e.data.length := by omega
  have hpad : padLen bs.length = (6 - e.bit) + 1 := by simp only [padLen]; omega
  have hpos' : 8 * (e.offset - 2) + (e.bit + 1) = bs.length := by omega
  have hone : (byteBits e.data[e.offset])[e.bit + 1]? = some true := by
    have hlenA : (streamBits ((e.data.take e.offset).drop 2)).length = 8 * (e.offset - 2) := by
      simp; omega
    have := congrArg (fun l => l[bs.length]?) hbits
    simp only [streamBits_take_succ ho hD] at this
    rwa [List.getElem?_append_right (by omega), hlenA, List.getElem?_append_right (le_refl _),
      Nat.sub_self, hpad, List.getElem?_replicate_of_lt (by omega),
      show bs.length - 8 * (e.offset - 2) = e.bit + 1 by omega] at this
  refine ⟨by simp only [storeBit_data]; split <;> simp [hlen], by simpa using hlt, ?_,
    Or.inr ⟨by simp, by simp; omega, by simp; omega⟩, ?_⟩
  · simp only [storeBit_data]
    split
    · exact hhdr
    · rw [take_two_modify _ _ ho, hhdr]
  · simp only [storeBit_data, storeBit_offset]
    rw [streamBits_storeBit ho hD (by omega) hone b, hbits, hpos', hpad,
      set_length_append_replicate]
    congr 2
    simp only [padLen, List.length_append, List.length_singleton]
    omega

/-! ## §4 — one call of `gset_encode_bit` -/

section EncodeBit

variable {e : GsetEncoder} {hdr : List UInt8} {bs : List Bool}

@[simp] theorem gsetEncodeBit_fixedBits (e : GsetEncoder) (b : Bool) :
    (gsetEncodeBit e b).1.fixedBits = e.fixedBits := by
  unfold gsetEncodeBit; split <;> [split <;> [split <;> simp; simp]; simp]

@[simp] theorem gsetEncodeBit_last (e : GsetEncoder) (b : Bool) :
    (gsetEncodeBit e b).1.last = e.last := by
  unfold gsetEncodeBit; split <;> [split <;> [split <;> simp; simp]; simp]

/-- Short of a full buffer the bit is appended, and the pool and the buffer's length are
left alone. -/
theorem gsetEncodeBit_of_room (h : Encodes e hdr bs) (hroom : bs.length + 16 < 8 * e.datalen)
    (b : Bool) :
    (gsetEncodeBit e b).2 = .success ∧ (gsetEncodeBit e b).1.pool = e.pool ∧
      (gsetEncodeBit e b).1.datalen = e.datalen ∧
      Encodes (gsetEncodeBit e b).1 hdr (bs ++ [b]) := by
  have hno : ¬ (8 ≤ e.bit + 1 ∧ e.datalen ≤ e.offset + 1) := fun hg => by
    have := h.full_iff.mp hg; omega
  unfold gsetEncodeBit
  by_cases hbit : 8 ≤ e.bit + 1
  · rw [if_pos hbit, if_neg fun hd => hno ⟨hbit, hd⟩]
    have := h.data_length
    exact ⟨rfl, by simp, by simp,
      encodes_openByte h hbit (by omega) rfl _ h.data_length b⟩
  · rw [if_neg hbit]
    exact ⟨rfl, by simp, by simp, encodes_sameByte h (by omega) b⟩

/-- At a full buffer a granted growth doubles it and the bit is appended. -/
theorem gsetEncodeBit_of_grant (h : Encodes e hdr bs) (hfull : bs.length + 16 = 8 * e.datalen)
    (hp : e.pool.headD true = true) (b : Bool) :
    (gsetEncodeBit e b).2 = .success ∧ (gsetEncodeBit e b).1.pool = e.pool.tail ∧
      Encodes (gsetEncodeBit e b).1 hdr (bs ++ [b]) := by
  obtain ⟨hbit, hgrow⟩ := h.full_iff.mpr hfull
  have hlen := h.data_length
  have hlt := h.offset_lt
  unfold gsetEncodeBit
  rw [if_pos hbit, if_pos hgrow, if_pos hp]
  refine ⟨rfl, by simp, encodes_openByte h hbit (by simp; omega) ?_ _ (by simp; omega) b⟩
  rw [← hlen, List.take_length, List.take_append_of_le_length (by omega)]

/-- At a full buffer a refused growth makes the call fail. -/
theorem gsetEncodeBit_of_refusal (h : Encodes e hdr bs) (hfull : bs.length + 16 = 8 * e.datalen)
    (hp : e.pool.headD true = false) (b : Bool) : (gsetEncodeBit e b).2 = .enomem := by
  obtain ⟨hbit, hgrow⟩ := h.full_iff.mpr hfull
  unfold gsetEncodeBit
  rw [if_pos hbit, if_pos hgrow, hp]
  rfl

/-- **`gset_encode_bit` appends one bit.** With a pool that grants every block, the call
succeeds, and the encoder holds the header and the bits written so far plus `b`. -/
theorem gsetEncodeBit_encodes (h : Encodes e hdr bs) (hpool : e.pool = []) (b : Bool) :
    (gsetEncodeBit e b).2 = .success ∧ (gsetEncodeBit e b).1.pool = [] ∧
      Encodes (gsetEncodeBit e b).1 hdr (bs ++ [b]) := by
  rcases Nat.lt_or_eq_of_le h.length_le with hroom | hfull
  · obtain ⟨hs, hp, -, he⟩ := gsetEncodeBit_of_room h hroom b
    exact ⟨hs, hp.trans hpool, he⟩
  · obtain ⟨hs, hp, he⟩ := gsetEncodeBit_of_grant h hfull (by simp [hpool]) b
    exact ⟨hs, by simp [hp, hpool], he⟩

end EncodeBit

/-! ## §5 — runs of bits -/

section EncodeBits

variable {e : GsetEncoder} {hdr : List UInt8} {bs : List Bool}

theorem encodeBits_cons_of_success {b : Bool} (hs : (gsetEncodeBit e b).2 = .success)
    (cs : List Bool) : encodeBits e (b :: cs) = encodeBits (gsetEncodeBit e b).1 cs := by
  rcases hb : gsetEncodeBit e b with ⟨e', _ | _⟩ <;> simp_all [encodeBits]

theorem encodeBits_cons_of_enomem {b : Bool} (hs : (gsetEncodeBit e b).2 = .enomem)
    (cs : List Bool) : encodeBits e (b :: cs) = gsetEncodeBit e b := by
  rcases hb : gsetEncodeBit e b with ⟨e', _ | _⟩ <;> simp_all [encodeBits]

theorem encodeBits_append (e : GsetEncoder) (xs ys : List Bool) :
    encodeBits e (xs ++ ys) =
      match encodeBits e xs with
      | (e', .success) => encodeBits e' ys
      | r => r := by
  induction xs generalizing e with
  | nil => rfl
  | cons x xs ih =>
    rcases hb : gsetEncodeBit e x with ⟨e', _ | _⟩
    · simp [List.cons_append, encodeBits, hb, ih]
    · simp [List.cons_append, encodeBits, hb]

@[simp] theorem encodeBits_fixedBits (e : GsetEncoder) (cs : List Bool) :
    (encodeBits e cs).1.fixedBits = e.fixedBits := by
  induction cs generalizing e with
  | nil => rfl
  | cons c cs ih =>
    rcases hb : gsetEncodeBit e c with ⟨e', _ | _⟩
    · simp [encodeBits, hb, ih, ← gsetEncodeBit_fixedBits e c]
    · simp [encodeBits, hb, ← gsetEncodeBit_fixedBits e c]

@[simp] theorem encodeBits_last (e : GsetEncoder) (cs : List Bool) :
    (encodeBits e cs).1.last = e.last := by
  induction cs generalizing e with
  | nil => rfl
  | cons c cs ih =>
    rcases hb : gsetEncodeBit e c with ⟨e', _ | _⟩
    · simp [encodeBits, hb, ih, ← gsetEncodeBit_last e c]
    · simp [encodeBits, hb, ← gsetEncodeBit_last e c]

/-- `last` is no part of the invariant. -/
theorem Encodes.with_last (h : Encodes e hdr bs) (x : UInt64) :
    Encodes { e with last := x } hdr bs :=
  ⟨h.data_length, h.offset_lt, h.header, h.pos, h.bits⟩

/-- With a pool that grants every block, a run of bits succeeds and appends them all. -/
theorem encodeBits_encodes (h : Encodes e hdr bs) (hpool : e.pool = []) (cs : List Bool) :
    (encodeBits e cs).2 = .success ∧ (encodeBits e cs).1.pool = [] ∧
      Encodes (encodeBits e cs).1 hdr (bs ++ cs) := by
  induction cs generalizing e bs with
  | nil => exact ⟨rfl, hpool, by simpa using h⟩
  | cons c cs ih =>
    obtain ⟨hs, hp, he⟩ := gsetEncodeBit_encodes h hpool c
    rw [encodeBits_cons_of_success hs]
    simpa using ih he hp

/-- A run that fits in the buffer appends its bits without asking the pool. -/
theorem encodeBits_of_room (h : Encodes e hdr bs) (cs : List Bool)
    (hroom : bs.length + cs.length + 16 ≤ 8 * e.datalen) :
    (encodeBits e cs).2 = .success ∧ (encodeBits e cs).1.pool = e.pool ∧
      (encodeBits e cs).1.datalen = e.datalen ∧ Encodes (encodeBits e cs).1 hdr (bs ++ cs) := by
  induction cs generalizing e bs with
  | nil => exact ⟨rfl, rfl, rfl, by simpa using h⟩
  | cons c cs ih =>
    obtain ⟨hs, hp, hd, he⟩ := gsetEncodeBit_of_room h (by simp at hroom; omega) c
    rw [encodeBits_cons_of_success hs, ← hp, ← hd]
    simpa using ih he (by simp at hroom ⊢; omega)

/-- A run that overflows the buffer, when the next growth is refused, fails. -/
theorem encodeBits_of_refusal (h : Encodes e hdr bs) (hp : e.pool.headD true = false)
    (cs : List Bool) (hlong : 8 * e.datalen < bs.length + cs.length + 16) :
    (encodeBits e cs).2 = .enomem := by
  induction cs generalizing e bs with
  | nil => have := h.length_le; simp at hlong; omega
  | cons c cs ih =>
    rcases Nat.lt_or_eq_of_le h.length_le with hroom | hfull
    · obtain ⟨hs, hp', hd, he⟩ := gsetEncodeBit_of_room h hroom c
      rw [encodeBits_cons_of_success hs]
      exact ih he (by rw [hp', hp]) (by simp at hlong ⊢; omega)
    · have hs := gsetEncodeBit_of_refusal h hfull hp c
      rw [encodeBits_cons_of_enomem hs, hs]

end EncodeBits

/-! ## §6 — `gset_encode_next` writes the Golomb-Rice code of the gap -/

theorem toNat_toUInt64 {i : Nat} (h : i < 64) : i.toUInt64.toNat = i :=
  UInt64.toNat_ofNat_of_lt (show i < 2 ^ 64 by omega)

/-- `>>` on `apr_uint64_t` by a count below `64`. -/
theorem toNat_shiftRight_toUInt64 (a : UInt64) {i : Nat} (hi : i < 64) :
    (a >>> i.toUInt64).toNat = a.toNat >>> i := by
  show (a.toBitVec >>> (i.toUInt64 % 64).toBitVec).toNat = _
  have : (i.toUInt64 % 64).toBitVec.toNat = i := by
    show (i.toUInt64 % 64).toNat = i
    rw [UInt64.toNat_mod, toNat_toUInt64 hi, show (64 : UInt64).toNat = 64 from rfl,
      Nat.mod_eq_of_lt hi]
  rw [BitVec.ushiftRight_eq', BitVec.toNat_ushiftRight, this]
  rfl

/-- `(delta >> i) & 1` is bit `i` of `delta`. -/
theorem shiftRight_and_one_ne_zero (a : UInt64) {i : Nat} (hi : i < 64) :
    ((a >>> i.toUInt64) &&& 1 != 0) = a.toNat.testBit i := by
  have hz : ∀ x : UInt64, (x != 0) = (x.toNat != 0) := fun x => by
    have : x = 0 ↔ x.toNat = 0 := ⟨fun h => h ▸ rfl, fun h => UInt64.toNat.inj h⟩
    simp [bne, this]
  rw [hz, UInt64.and_toNat, toNat_shiftRight_toUInt64 a hi, Nat.testBit, Nat.and_comm 1]
  rfl

theorem encodeOnes_eq (e : GsetEncoder) (n : Nat) :
    encodeOnes e n = encodeBits e (List.replicate n true) := by
  induction n generalizing e with
  | zero => rfl
  | succ n ih => simp only [encodeOnes, List.replicate_succ, encodeBits, ih]

theorem encodeFixed_eq (e : GsetEncoder) (delta : UInt64) (i : Nat) :
    encodeFixed e delta i =
      encodeBits e ((List.range i).reverse.map fun j => (delta >>> j.toUInt64) &&& 1 != 0) := by
  induction i generalizing e with
  | zero => rfl
  | succ i ih => simp only [encodeFixed, List.range_succ, List.reverse_append, List.reverse_cons,
      List.reverse_nil, List.nil_append, List.singleton_append, List.map_cons, encodeBits, ih]

theorem fixedBits_eq_lowBits (delta : UInt64) {i : Nat} (hi : i ≤ 64) :
    ((List.range i).reverse.map fun j => (delta >>> j.toUInt64) &&& 1 != 0) =
      lowBits i delta.toNat :=
  List.map_congr_left fun j hj =>
    shiftRight_and_one_ne_zero delta (by simp at hj; omega)

/-- **`gset_encode_next` writes the Golomb-Rice code of the gap.** For a value not below
the previous one and fewer than `64` fixed bits, the call is the run of the code of
`pval - last` with parameter `fixed_bits`, after `last` is set to `pval`. -/
theorem gsetEncodeNext_eq (e : GsetEncoder) (pval : UInt64) (hle : e.last ≤ pval)
    (hfix : e.fixedBits < 64) :
    gsetEncodeNext e pval =
      encodeBits { e with last := pval } (riceCode e.fixedBits (pval.toNat - e.last.toNat)) := by
  have hdelta : (pval - e.last).toNat = pval.toNat - e.last.toNat := UInt64.toNat_sub_of_le _ _ hle
  rw [riceCode, ← hdelta, ← fixedBits_eq_lowBits _ hfix.le,
    ← toNat_shiftRight_toUInt64 _ hfix, encodeBits_append]
  unfold gsetEncodeNext
  simp only [encodeOnes_eq]
  rcases h1 : encodeBits { e with last := pval } (List.replicate _ true) with ⟨e1, _ | _⟩
  · rcases h2 : gsetEncodeBit e1 false with ⟨e2, _ | _⟩
    · have : e2.fixedBits = e.fixedBits := by
        rw [← congrArg (·.1.fixedBits) h2, gsetEncodeBit_fixedBits,
          ← congrArg (·.1.fixedBits) h1, encodeBits_fixedBits]
      simp [encodeBits, h2, encodeFixed_eq, this]
    · simp [encodeBits, h2]
  · rfl

/-! ## §7 — how the buffer grows -/

/-- The buffer over a run from the 512-byte start: its length is `512` doubled some times,
once grown it is at most twice the byte being filled (it grew when that byte passed the old
end), and the bytes past the one being filled are still zero. -/
structure BufferShape (e : GsetEncoder) : Prop where
  pow : ∃ k, e.datalen = 512 * 2 ^ k
  half : e.datalen = 512 ∨ e.datalen ≤ 2 * e.offset
  zero : ∀ j, e.offset < j → e.data.getD j 0 = 0

theorem getD_storeBit_data (e : GsetEncoder) (b : Bool) {j : Nat} (hj : e.offset < j) :
    (storeBit e b).data.getD j 0 = e.data.getD j 0 := by
  rw [storeBit_data]
  split
  · rfl
  · simp only [List.getD_eq_getElem?_getD, List.getElem?_modify, if_neg hj.ne]
    cases e.data[j]? <;> rfl

theorem getD_set_of_ne (l : List UInt8) {i j : Nat} (h : i ≠ j) (v : UInt8) :
    (l.set i v).getD j 0 = l.getD j 0 := by
  simp only [List.getD_eq_getElem?_getD, List.getElem?_set, if_neg h]

theorem getD_take_append_zeros (l : List UInt8) {D j : Nat} (hj : D ≤ j) :
    (l.take D ++ List.replicate D 0).getD j 0 = 0 := by
  have hlen : (l.take D).length ≤ j := (List.length_take_le D l).trans hj
  simp only [List.getD_eq_getElem?_getD, List.getElem?_append_right hlen, List.getElem?_replicate]
  split <;> rfl

/-- Every `gset_encode_bit` keeps the shape of the buffer. -/
theorem gsetEncodeBit_shape {e : GsetEncoder} (h : BufferShape e) (b : Bool) :
    BufferShape (gsetEncodeBit e b).1 := by
  obtain ⟨⟨k, hk⟩, hhalf, hzero⟩ := h
  unfold gsetEncodeBit
  split_ifs with hbit hgrow hp <;> dsimp only
  · -- a granted growth: the new block, twice as long, from the byte after the old end
    refine ⟨⟨k + 1, by simp [hk, Nat.pow_succ]; omega⟩, Or.inr (by simp; omega), fun j hj => ?_⟩
    simp only [storeBit_offset] at hj
    rw [getD_storeBit_data _ _ hj, getD_set_of_ne _ hj.ne, getD_take_append_zeros _ (by omega)]
  · exact ⟨⟨k, by simpa using hk⟩, by simp; omega, fun j hj => hzero j (by simp at hj; omega)⟩
  · refine ⟨⟨k, by simpa using hk⟩, by simp; omega, fun j hj => ?_⟩
    simp only [storeBit_offset] at hj
    rw [getD_storeBit_data _ _ hj, getD_set_of_ne _ hj.ne, hzero j (by omega)]
  · refine ⟨⟨k, by simpa using hk⟩, by simpa using hhalf, fun j hj => ?_⟩
    simp only [storeBit_offset] at hj
    exact (getD_storeBit_data { e with bit := e.bit + 1 } b hj).trans (hzero j hj)

theorem gsetEncodeBit_datalen_le (e : GsetEncoder) (b : Bool) :
    e.datalen ≤ (gsetEncodeBit e b).1.datalen := by
  unfold gsetEncodeBit; split_ifs <;> simp; omega

section Preserves

variable {P : GsetEncoder → Prop} (hP : ∀ e b, P e → P (gsetEncodeBit e b).1)
include hP

/-- What every `gset_encode_bit` keeps, a run of them keeps. -/
theorem encodeBits_preserves : ∀ (cs : List Bool) (e : GsetEncoder), P e → P (encodeBits e cs).1
  | [], _, h => h
  | c :: cs, e, h => by
    have h1 := hP e c h
    rcases hb : gsetEncodeBit e c with ⟨e', _ | _⟩ <;> rw [hb] at h1
    · simpa only [encodeBits, hb] using encodeBits_preserves cs e' h1
    · simpa only [encodeBits, hb] using h1

/-- What every `gset_encode_bit` keeps, and that does not see `last`, `gset_encode_next`
keeps. -/
theorem gsetEncodeNext_preserves (hlast : ∀ e x, P e → P { e with last := x })
    {e : GsetEncoder} (h : P e) (x : UInt64) : P (gsetEncodeNext e x).1 := by
  have h1 := encodeBits_preserves hP (List.replicate ((x - e.last) >>>
    e.fixedBits.toUInt64).toNat true) _ (hlast e x h)
  rw [← encodeOnes_eq] at h1
  unfold gsetEncodeNext
  rcases hr : encodeOnes { e with last := x } ((x - e.last) >>> e.fixedBits.toUInt64).toNat with
    ⟨e1, _ | _⟩ <;> rw [hr] at h1
  · have h2 := hP e1 false h1
    rcases hr2 : gsetEncodeBit e1 false with ⟨e2, _ | _⟩ <;> rw [hr2] at h2
    · simpa only [hr, hr2, encodeFixed_eq] using encodeBits_preserves hP _ _ h2
    · simpa only [hr, hr2] using h2
  · simpa only [hr] using h1

end Preserves

theorem gsetEncodeNext_shape {e : GsetEncoder} (h : BufferShape e) (x : UInt64) :
    BufferShape (gsetEncodeNext e x).1 :=
  gsetEncodeNext_preserves (P := BufferShape) (fun _ b h => gsetEncodeBit_shape h b)
    (fun _ _ h => ⟨h.pow, h.half, h.zero⟩) h x

theorem gsetEncodeNext_datalen_le (e : GsetEncoder) (x : UInt64) :
    e.datalen ≤ (gsetEncodeNext e x).1.datalen :=
  gsetEncodeNext_preserves (P := fun e' => e.datalen ≤ e'.datalen)
    (fun e' b h => h.trans (gsetEncodeBit_datalen_le e' b)) (fun _ _ h => h) (Nat.le_refl _) x

end H2
