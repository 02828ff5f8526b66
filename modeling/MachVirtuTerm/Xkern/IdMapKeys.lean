import Mathlib.Tactic
import MachVirtuTerm.Xkern.IdMap

/-!
# Keys of the x-kernel maps

Every inclusion of the template compares and copies all bytes of its keys, and
its hash is an index of the table that depends on these bytes alone. The generic
hash does the same for the length it is given, if that is not negative.
-/

namespace MachVirtuTerm.IdMap

open Template Bytes

variable {a b k k' : Bytes} {n i t p : Nat}

@[simp] theorem length_take : (k.take n).length = n := by
  induction n generalizing k with
  | zero => rfl
  | succ n ih => simp only [take, List.length_cons, ih]

/-- Two keys have the same bytes. -/
theorem take_eq_iff : a.take n = b.take n ↔ ∀ i < n, a i = b i := by
  induction n generalizing a b with
  | zero => simp [take]
  | succ n ih =>
    rw [take, take, List.cons.injEq, ih]
    constructor
    · rintro ⟨h0, h⟩ i hi
      cases i with
      | zero => exact h0
      | succ i =>
        have hat := h i (by omega)
        simpa only [Bytes.at, Nat.add_comm 1 i] using hat
    · intro h
      exact ⟨h 0 (by omega), fun i hi => h (1 + i) (by omega)⟩

/-- A buffer holds the bytes that were put there. -/
theorem toBytes_take (hi : i < n) : toBytes (k.take n) i = k i := by
  induction n generalizing k i with
  | zero => omega
  | succ n ih =>
    cases i with
    | zero => rfl
    | succ i =>
      have hat := @ih (k.at 1) i (by omega)
      simpa only [toBytes, take, List.getD_cons_succ, Bytes.at, Nat.add_comm 1 i] using hat

theorem take_toBytes_take : (toBytes (k.take n)).take n = k.take n :=
  take_eq_iff.mpr fun _ hi => toBytes_take hi

/-- `bcmp` finds no difference exactly between the same bytes. -/
theorem bcmp_eq_zero_iff : bcmp a b n = 0 ↔ a.take n = b.take n := by
  induction n generalizing a b with
  | zero => simp [bcmp, take]
  | succ n ih =>
    rw [bcmp, take, take, List.cons.injEq]
    by_cases h : a 0 = b 0
    · rw [if_neg (by simpa using h), ih]
      simp [h]
    · rw [if_pos h]
      simp [h]

/-! ## Hashes -/

theorem hash2_congr (h : ∀ i < 2, k' i = k i) : hash2 k' t = hash2 k t := by
  simp only [hash2, h 0 (by omega), h 1 (by omega)]

theorem hash4_congr (h : ∀ i < 4, k' i = k i) : hash4 k' t = hash4 k t := by
  simp only [hash4, h 0 (by omega), h 1 (by omega), h 2 (by omega), h 3 (by omega)]

theorem hash2_lt (k : Bytes) : hash2 k (2 ^ p) < 2 ^ p := Nat.mod_lt _ (by positivity)

theorem hash4_lt (k : Bytes) : hash4 k (2 ^ p) < 2 ^ p := Nat.mod_lt _ (by positivity)

theorem hashLongs_snd : (hashLongs t n k i).2 = k.at (4 * n) := by
  induction n generalizing k i with
  | zero =>
    funext j
    simp [hashLongs, Bytes.at]
  | succ n ih =>
    rw [hashLongs, ih]
    funext j
    simp only [Bytes.at]
    congr 1
    omega

theorem hashLongs_congr (h : ∀ i < 4 * n, k' i = k i) :
    (hashLongs t n k' i).1 = (hashLongs t n k i).1 := by
  induction n generalizing k k' i with
  | zero => rfl
  | succ n ih =>
    rw [hashLongs, hashLongs, hash4_congr fun j hj => h j (by omega)]
    exact ih fun j hj => h (4 + j) (by omega)

theorem getLsbD_length (i : Nat) (hi : i < 32) :
    (BitVec.ofInt 32 (n : ℤ)).getLsbD i = n.testBit i := by
  rw [BitVec.ofInt_natCast, BitVec.getLsbD_ofNat]
  simp [hi]

/-- The generic hash of a length that is not negative depends on that many
bytes. -/
theorem generichash_congr (h : ∀ i < n, k' i = k i) : generichash k' t n = generichash k t n := by
  have hlongs : ((n : ℤ).tdiv 4).toNat = n / 4 := by
    rw [show (4 : ℤ) = ((4 : Nat) : ℤ) from rfl, ← Int.ofNat_tdiv, Int.toNat_natCast]
  have hneg : ¬ (n : ℤ).tdiv 4 < 0 := by
    have := Int.tdiv_nonneg (a := (n : ℤ)) (b := 4) (by omega) (by omega)
    omega
  have hfst : (hashLongs t (n / 4) k' 0).1 = (hashLongs t (n / 4) k 0).1 :=
    hashLongs_congr fun i hi => h i (by omega)
  have hone : n.testBit 1 = decide (n / 2 % 2 = 1) := by
    rw [Nat.testBit_eq_decide_div_mod_eq]
  have hzero : n.testBit 0 = decide (n % 2 = 1) := by
    rw [Nat.testBit_eq_decide_div_mod_eq]
    simp
  simp only [generichash, if_neg hneg, hlongs, getLsbD_length 1 (by omega),
    getLsbD_length 0 (by omega), hashLongs_snd, hfst, hone, hzero]
  by_cases h1 : n / 2 % 2 = 1
  · have h2 : hash2 (k'.at (4 * (n / 4))) t = hash2 (k.at (4 * (n / 4))) t :=
      hash2_congr fun i hi => h (4 * (n / 4) + i) (by omega)
    simp only [h1, decide_true, if_true, h2]
    by_cases h0 : n % 2 = 1
    · have hb : ((k'.at (4 * (n / 4))).at 2) 0 = ((k.at (4 * (n / 4))).at 2) 0 :=
        h (4 * (n / 4) + 2) (by omega)
      simp only [h0, decide_true, if_true, hb]
    · simp only [h0, decide_false, Bool.false_eq_true, if_false]
  · simp only [h1, decide_false, Bool.false_eq_true, if_false]
    by_cases h0 : n % 2 = 1
    · have hb : (k'.at (4 * (n / 4))) 0 = (k.at (4 * (n / 4))) 0 := h (4 * (n / 4)) (by omega)
      simp only [h0, decide_true, if_true, hb]
    · simp only [h0, decide_false, Bool.false_eq_true, if_false]

/-- The generic hash of such a length is an index of the table. -/
theorem generichash_spec (k : Bytes) (n : Nat) (ht : 0 < t) :
    ∃ h < t, generichash k t n = some h := by
  have hneg : ¬ (n : ℤ).tdiv 4 < 0 := by
    have := Int.tdiv_nonneg (a := (n : ℤ)) (b := 4) (by omega) (by omega)
    omega
  unfold generichash
  rw [if_neg hneg]
  exact ⟨_, Nat.mod_lt _ ht, rfl⟩

/-- The key size that an inclusion of the template is for. -/
def Template.Serves (keySize : ℤ) : Template → Prop
  | .m2 => keySize = 2
  | .m4 => keySize = 4
  | .m6 => keySize = 6
  | .m8 => keySize = 8
  | .m10 => keySize = 10
  | .m12 => keySize = 12
  | .m16 => keySize = 16
  | .mgeneric => True

variable {T : Template} {keySize : ℤ}

/-- A map gets the functions of its key size. -/
theorem mapFunctions_serves (h : 0 < keySize) :
    ((mapFunctions keySize.toNat).getD .mgeneric).Serves keySize := by
  unfold mapFunctions
  split <;> simp only [Option.getD_some, Option.getD_none, Template.Serves] <;> omega

/-- The hash is an index of the table, and depends on the key alone. -/
theorem Template.hash_spec (hT : T.Serves keySize) (h0 : 0 < keySize) (k : Bytes) :
    ∃ h < 2 ^ p, ∀ k' : Bytes, (∀ i < keySize.toNat, k' i = k i) →
      T.hash k' (2 ^ p) keySize = some h := by
  have h4 {d : Nat} {k' : Bytes} (hd : d + 4 ≤ keySize.toNat)
      (h : ∀ i < keySize.toNat, k' i = k i) :
      hash4 (k'.at d) (2 ^ p) = hash4 (k.at d) (2 ^ p) :=
    hash4_congr fun i hi => h (d + i) (by omega)
  have h2 {d : Nat} {k' : Bytes} (hd : d + 2 ≤ keySize.toNat)
      (h : ∀ i < keySize.toNat, k' i = k i) :
      hash2 (k'.at d) (2 ^ p) = hash2 (k.at d) (2 ^ p) :=
    hash2_congr fun i hi => h (d + i) (by omega)
  cases T with
  | m2 =>
    refine ⟨_, hash2_lt k, fun k' h => ?_⟩
    simp only [Template.Serves] at hT
    rw [hash, hash2_congr fun i hi => h i (by omega)]
  | m4 =>
    refine ⟨_, hash4_lt k, fun k' h => ?_⟩
    simp only [Template.Serves] at hT
    rw [hash, hash4_congr fun i hi => h i (by omega)]
  | m6 =>
    refine ⟨_, Nat.xor_lt_two_pow (hash4_lt k) (hash2_lt (k.at 4)), fun k' h => ?_⟩
    simp only [Template.Serves] at hT
    rw [hash, hash6, hash4_congr fun i hi => h i (by omega), h2 (by omega) h]
  | m8 =>
    refine ⟨_, Nat.xor_lt_two_pow (hash4_lt k) (hash4_lt (k.at 4)), fun k' h => ?_⟩
    simp only [Template.Serves] at hT
    rw [hash, hash8, hash4_congr fun i hi => h i (by omega), h4 (by omega) h]
  | m10 =>
    refine ⟨_, Nat.xor_lt_two_pow (Nat.xor_lt_two_pow (hash4_lt k) (hash4_lt (k.at 4)))
      (hash2_lt (k.at 8)), fun k' h => ?_⟩
    simp only [Template.Serves] at hT
    rw [hash, hash10, hash4_congr fun i hi => h i (by omega), h4 (by omega) h, h2 (by omega) h]
  | m12 =>
    refine ⟨_, Nat.xor_lt_two_pow (Nat.xor_lt_two_pow (hash4_lt k) (hash4_lt (k.at 4)))
      (hash4_lt (k.at 8)), fun k' h => ?_⟩
    simp only [Template.Serves] at hT
    rw [hash, hash12, hash4_congr fun i hi => h i (by omega), h4 (by omega) h, h4 (by omega) h]
  | m16 =>
    refine ⟨_, Nat.xor_lt_two_pow (Nat.xor_lt_two_pow (Nat.xor_lt_two_pow (hash4_lt k)
      (hash4_lt (k.at 4))) (hash4_lt (k.at 8))) (hash4_lt (k.at 12)), fun k' h => ?_⟩
    simp only [Template.Serves] at hT
    rw [hash, hash16, hash4_congr fun i hi => h i (by omega), h4 (by omega) h,
      h4 (by omega) h, h4 (by omega) h]
  | mgeneric =>
    obtain ⟨h, hlt, heq⟩ := generichash_spec k keySize.toNat (show 0 < 2 ^ p by positivity)
    refine ⟨h, hlt, fun k' hk => ?_⟩
    rw [Int.toNat_of_nonneg h0.le] at heq
    have hcongr := @generichash_congr k k' keySize.toNat (2 ^ p) hk
    rw [Int.toNat_of_nonneg h0.le] at hcongr
    rw [hash, hcongr, heq]

/-! ## Comparisons and copies -/

/-- Words are the same where their four bytes are. -/
theorem intAt_eq_iff : intAt a i = intAt b i ↔ ∀ j < 4, a (4 * i + j) = b (4 * i + j) := by
  have hlt (k : Bytes) (j : Nat) : (k j).toNat < 256 := (k j).toNat_lt
  constructor
  · intro h j hj
    have ha0 := hlt a (4 * i)
    have ha1 := hlt a (4 * i + 1)
    have ha2 := hlt a (4 * i + 2)
    have ha3 := hlt a (4 * i + 3)
    have hb0 := hlt b (4 * i)
    have hb1 := hlt b (4 * i + 1)
    have hb2 := hlt b (4 * i + 2)
    have hb3 := hlt b (4 * i + 3)
    simp only [intAt] at h
    apply UInt8.toNat_inj.mp
    interval_cases j
    · rw [Nat.add_zero]
      omega
    · omega
    · omega
    · omega
  · intro h
    simp only [intAt, ← h 1 (by omega), ← h 2 (by omega), ← h 3 (by omega)]
    have h0 := h 0 (by omega)
    simp only [Nat.add_zero] at h0
    rw [h0]

theorem shortAt_eq_iff : shortAt a i = shortAt b i ↔ ∀ j < 2, a (2 * i + j) = b (2 * i + j) := by
  have hlt (k : Bytes) (j : Nat) : (k j).toNat < 256 := (k j).toNat_lt
  constructor
  · intro h j hj
    have ha0 := hlt a (2 * i)
    have ha1 := hlt a (2 * i + 1)
    have hb0 := hlt b (2 * i)
    have hb1 := hlt b (2 * i + 1)
    simp only [shortAt] at h
    apply UInt8.toNat_inj.mp
    interval_cases j
    · rw [Nat.add_zero]
      omega
    · omega
  · intro h
    have h0 := h 0 (by omega)
    simp only [Nat.add_zero] at h0
    simp only [shortAt, ← h 1 (by omega), h0]

theorem sizeArg_eq (h0 : 0 < keySize) (hsize : keySize ≤ maxMapKeySize) :
    sizeArg keySize = keySize.toNat := by
  simp only [sizeArg, maxMapKeySize] at *
  omega

/-- Comparing by words is comparing the bytes. -/
theorem compInts_iff {ints : Nat} {short aligned : Bool}
    (hkey : keySize = 4 * ints + if short then 2 else 0) (h0 : 0 < keySize)
    (hsize : keySize ≤ maxMapKeySize) :
    compInts ints short aligned a b keySize = true ↔
      a.take keySize.toNat = b.take keySize.toNat := by
  cases aligned with
  | false =>
    simp only [compInts, Bool.false_eq_true, if_false, beq_iff_eq, sizeArg_eq h0 hsize,
      bcmp_eq_zero_iff]
  | true =>
    simp only [compInts, if_true, Bool.and_eq_true, List.all_eq_true, List.mem_range, beq_iff_eq,
      intAt_eq_iff, Bool.or_eq_true, Bool.not_eq_true', shortAt_eq_iff]
    rw [take_eq_iff]
    constructor
    · rintro ⟨hints, hshort⟩ j hj
      by_cases hlt : j < 4 * ints
      · have hj4 := hints (j / 4) (by omega) (j % 4) (by omega)
        rwa [Nat.div_add_mod] at hj4
      · cases short with
        | false => simp only [Bool.false_eq_true, if_false] at hkey; omega
        | true =>
          simp only [if_true] at hkey
          have hj2 := hshort.resolve_left (by simp) (j - 4 * ints) (by omega)
          rwa [show 2 * (2 * ints) + (j - 4 * ints) = j by omega] at hj2
    · intro h
      refine ⟨fun i hi j hj => h _ ?_, ?_⟩
      · split at hkey <;> omega
      · cases short with
        | false => exact .inl rfl
        | true =>
          simp only [if_true] at hkey
          exact .inr fun j hj => h _ (by omega)

/-- Two keys compare equal exactly where all their bytes are. -/
theorem Template.compBytes_iff {aligned : Bool} (hT : T.Serves keySize) (h0 : 0 < keySize)
    (hsize : keySize ≤ maxMapKeySize) :
    T.compBytes aligned a b keySize = true ↔ a.take keySize.toNat = b.take keySize.toNat := by
  cases T with
  | m2 =>
    simp only [Template.Serves] at hT
    subst hT
    simp [compBytes, take, Bytes.at]
  | m4 | m6 | m8 | m10 | m12 | m16 =>
    simp only [Template.Serves] at hT
    exact compInts_iff hT h0 hsize
  | mgeneric =>
    simp only [compBytes, beq_iff_eq, sizeArg_eq h0 hsize, bcmp_eq_zero_iff]

theorem take_bcopy : (bcopy a b n).take n = a.take n :=
  take_eq_iff.mpr fun _ hi => if_pos hi

theorem take_copyInts {ints : Nat} {short aligned : Bool}
    (hkey : keySize = 4 * ints + if short then 2 else 0) (h0 : 0 < keySize)
    (hsize : keySize ≤ maxMapKeySize) :
    (copyInts ints short aligned a b keySize).take keySize.toNat = b.take keySize.toNat := by
  cases aligned with
  | false =>
    simp only [copyInts, Bool.false_eq_true, if_false, sizeArg_eq h0 hsize, take_bcopy]
  | true =>
    refine take_eq_iff.mpr fun i hi => ?_
    simp only [copyInts, if_true]
    apply if_pos
    cases short <;> simp only [if_true, Bool.false_eq_true, if_false] at hkey ⊢ <;> omega

/-- All bytes of a key are copied. -/
theorem Template.take_copyBytes {aligned : Bool} (hT : T.Serves keySize) (h0 : 0 < keySize)
    (hsize : keySize ≤ maxMapKeySize) :
    (T.copyBytes aligned a b keySize).take keySize.toNat = b.take keySize.toNat := by
  cases T with
  | m2 =>
    simp only [Template.Serves] at hT
    subst hT
    exact take_eq_iff.mpr fun i hi => if_pos hi
  | m4 | m6 | m8 | m10 | m12 | m16 =>
    simp only [Template.Serves] at hT
    exact take_copyInts hT h0 hsize
  | mgeneric =>
    simp only [copyBytes, sizeArg_eq h0 hsize, take_bcopy]

end MachVirtuTerm.IdMap
