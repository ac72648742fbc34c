import Mathlib.Data.List.Sort
import Mathlib.Tactic.Ring

/-!
# H2Push — the Golomb-Rice code of the cache digest

`h2_push_diary_digest_get` emits a Golomb-coded set: the sorted, distinct values, each
written as its gap to the value before it (to `0` for the first). A gap `d` with parameter
`p = log2p` is the quotient `d >>> p` in unary (that many `1`s closed by a `0`) and then the
remainder `d % 2^p` in `p` bits, most significant first (`riceCode`).

The repository only writes this code. The reader here (`gcsDecode`) is the format's: per
value it counts `1`s up to a `0`, reads `p` bits, and adds `q * 2^p + r` to the value
before; it stops when the input ends inside a unary run, which is how the `1`s padding the
last byte end the set. The round trip `gcsDecode_riceCodes` says that the written bits,
followed by any number of `1`s, read back as the values, for every non-decreasing list.
-/

namespace H2

/-- The `p` low bits of `d`, most significant first. -/
def lowBits (p d : Nat) : List Bool := (List.range p).reverse.map d.testBit

/-- The code of one gap `d`: `d >>> p` ones, a zero, and the low `p` bits of `d`. -/
def riceCode (p d : Nat) : List Bool := List.replicate (d >>> p) true ++ false :: lowBits p d

/-- The code of the values `vs`, each written as its gap to the value before it (`prev`
before the first). -/
def riceCodes (p : Nat) : Nat → List Nat → List Bool
  | _, [] => []
  | prev, v :: vs => riceCode p (v - prev) ++ riceCodes p v vs

/-- The `1`s before the first `0`: how many, and the bits after the `0`; `none` when the
input ends inside the run. -/
def readUnary : List Bool → Option (Nat × List Bool)
  | [] => none
  | false :: bs => some (0, bs)
  | true :: bs => (readUnary bs).map fun r => (r.1 + 1, r.2)

/-- `p` bits read as a number, most significant first. -/
def readFixed : Nat → List Bool → Option (Nat × List Bool)
  | 0, bs => some (0, bs)
  | _ + 1, [] => none
  | p + 1, b :: bs => (readFixed p bs).map fun r => (b.toNat * 2 ^ p + r.1, r.2)

/-- At most `fuel` values read after `prev`: a unary quotient `q`, a remainder `r`, and
the value `prev + q * 2^p + r`. -/
def gcsDecodeAux (p : Nat) : Nat → Nat → List Bool → List Nat
  | 0, _, _ => []
  | fuel + 1, prev, bs =>
    match readUnary bs with
    | none => []
    | some (q, bs) =>
      match readFixed p bs with
      | none => []
      | some (r, bs) => (prev + q * 2 ^ p + r) :: gcsDecodeAux p fuel (prev + q * 2 ^ p + r) bs

/-- The reader of a Golomb-coded set with parameter `p`. Each value takes at least one
bit, so `bs.length` rounds read them all. -/
def gcsDecode (p : Nat) (bs : List Bool) : List Nat := gcsDecodeAux p bs.length 0 bs

/-! ## §1 — one gap -/

@[simp] theorem length_lowBits (p d : Nat) : (lowBits p d).length = p := by simp [lowBits]

theorem lowBits_succ (p d : Nat) : lowBits (p + 1) d = d.testBit p :: lowBits p d := by
  simp [lowBits, List.range_succ]

@[simp] theorem length_riceCode (p d : Nat) : (riceCode p d).length = d >>> p + 1 + p := by
  simp [riceCode]; omega

theorem readUnary_replicate_append (q : Nat) (rest : List Bool) :
    readUnary (List.replicate q true ++ false :: rest) = some (q, rest) := by
  induction q with
  | zero => rfl
  | succ q ih => simp [List.replicate_succ, readUnary, ih]

/-- A run of `1`s with nothing after it reads as the end of the set. -/
theorem readUnary_replicate (k : Nat) : readUnary (List.replicate k true) = none := by
  induction k with
  | zero => rfl
  | succ k ih => simp [List.replicate_succ, readUnary, ih]

theorem readFixed_lowBits (p d : Nat) (rest : List Bool) :
    readFixed p (lowBits p d ++ rest) = some (d % 2 ^ p, rest) := by
  induction p with
  | zero => simp [lowBits, readFixed, Nat.mod_one]
  | succ p ih =>
    simp only [lowBits_succ, List.cons_append, readFixed, ih, Option.map_some',
      Nat.toNat_testBit, Nat.mod_pow_succ]
    congr 2
    ring

/-- Quotient and remainder put back together. -/
theorem shiftRight_mul_add_mod (p d : Nat) : d >>> p * 2 ^ p + d % 2 ^ p = d := by
  rw [Nat.shiftRight_eq_div_pow]; exact Nat.div_add_mod' d (2 ^ p)

/-! ## §2 — the round trip -/

@[simp] theorem riceCodes_nil (p prev : Nat) : riceCodes p prev [] = [] := rfl

theorem riceCodes_cons (p prev v : Nat) (vs : List Nat) :
    riceCodes p prev (v :: vs) = riceCode p (v - prev) ++ riceCodes p v vs := rfl

/-- Every value costs its `p + 1` bits at least. -/
theorem length_riceCodes_ge (p : Nat) :
    ∀ (prev : Nat) (vs : List Nat), vs.length * (p + 1) ≤ (riceCodes p prev vs).length
  | _, [] => by simp
  | prev, v :: vs => by
    have := length_riceCodes_ge p v vs
    simp only [riceCodes_cons, List.length_append, length_riceCode, List.length_cons]
    generalize (v - prev) >>> p = q
    rw [Nat.succ_mul]
    omega

/-- Values ascending from `prev` up to `B` cost `p + 1` bits each besides their unary parts,
and those add up to at most `(B - prev) >>> p`. -/
theorem length_riceCodes_le (p : Nat) :
    ∀ (prev : Nat) (vs : List Nat) (B : Nat), vs.Chain (· ≤ ·) prev → (∀ v ∈ vs, v ≤ B) →
      prev ≤ B → (riceCodes p prev vs).length ≤ vs.length * (p + 1) + (B - prev) >>> p
  | _, [], _, _, _, _ => by simp
  | prev, v :: vs, B, hc, hB, hp => by
    obtain ⟨hpv, hc⟩ := List.chain_cons.mp hc
    have hv := hB v (List.mem_cons_self _ _)
    have ih := length_riceCodes_le p v vs B hc (fun w hw => hB w (List.mem_cons_of_mem _ hw)) hv
    have hsum : (v - prev) >>> p + (B - v) >>> p ≤ (B - prev) >>> p := by
      simp only [Nat.shiftRight_eq_div_pow]
      calc (v - prev) / 2 ^ p + (B - v) / 2 ^ p
          ≤ (v - prev + (B - v)) / 2 ^ p := (Nat.le_div_iff_mul_le (Nat.two_pow_pos p)).2 (by
            rw [Nat.add_mul]
            exact Nat.add_le_add (Nat.div_mul_le_self _ _) (Nat.div_mul_le_self _ _))
        _ = (B - prev) / 2 ^ p := by congr 1; omega
    simp only [riceCodes_cons, List.length_append, length_riceCode, List.length_cons,
      Nat.succ_mul]
    omega

theorem gcsDecodeAux_riceCodes (p : Nat) :
    ∀ (vs : List Nat) (prev fuel k : Nat), vs.Chain (· ≤ ·) prev → vs.length ≤ fuel →
      gcsDecodeAux p fuel prev (riceCodes p prev vs ++ List.replicate k true) = vs
  | [], _, fuel, k, _, _ => by
    cases fuel <;> simp [gcsDecodeAux, readUnary_replicate]
  | v :: vs, prev, fuel, k, hc, hf => by
    obtain ⟨hle, hc⟩ := List.chain_cons.mp hc
    obtain ⟨fuel, rfl⟩ : ∃ f, fuel = f + 1 := ⟨fuel - 1, by simp at hf; omega⟩
    have hv : prev + (v - prev) >>> p * 2 ^ p + (v - prev) % 2 ^ p = v := by
      have := shiftRight_mul_add_mod p (v - prev); omega
    simp only [riceCodes_cons, riceCode, List.append_assoc, List.cons_append, gcsDecodeAux,
      readUnary_replicate_append, readFixed_lowBits, hv,
      gcsDecodeAux_riceCodes p vs v fuel k hc (by simpa using hf)]

/-- **Round trip.** The code of a non-decreasing list of values, padded with any number of
`1`s, reads back as the values. -/
theorem gcsDecode_riceCodes (p : Nat) {vs : List Nat} (hvs : vs.Chain (· ≤ ·) 0) (k : Nat) :
    gcsDecode p (riceCodes p 0 vs ++ List.replicate k true) = vs :=
  gcsDecodeAux_riceCodes p vs 0 _ k hvs <| by
    have := length_riceCodes_ge p 0 vs
    have := Nat.le_mul_of_pos_right vs.length (by omega : 0 < p + 1)
    simp only [List.length_append, List.length_replicate]
    omega

end H2
