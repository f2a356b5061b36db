import Mathlib.Algebra.Order.Ring.Int
import TermMining.Weight.Double

/-! Doubles that are numbers. A whole number other than zero is a finite double other than zero, and
its product with a number is a number. -/
namespace TermMining.Number
open Float.Model

/-- Sign, mantissa and exponent of a double, or what it is instead of a finite number. -/
def parts (x : Float) : UnpackedFloat := x.toModel.unpack

private theorem toNat_unpackMantissa (b : BitVec 64) :
    (@UnpackedFloat.unpackMantissa .binary64 b).toNat = b.toNat % 2 ^ 52 := by
  simp [UnpackedFloat.unpackMantissa]

private theorem toNat_unpackExponent (b : BitVec 64) :
    (@UnpackedFloat.unpackExponent .binary64 b).toNat = b.toNat / 2 ^ 52 % 2 ^ 11 := by
  simp [UnpackedFloat.unpackExponent, Nat.shiftRight_eq_div_pow]

private theorem unpackExponent_eq_top_iff (b : BitVec 64) :
    @UnpackedFloat.unpackExponent .binary64 b = -1#_ ↔
      b.toNat / 2 ^ 52 % 2 ^ 11 = 2047 := by
  rw [← BitVec.toNat_inj, toNat_unpackExponent]
  simp

private theorem unpackExponent_eq_zero_iff (b : BitVec 64) :
    @UnpackedFloat.unpackExponent .binary64 b = 0#_ ↔
      b.toNat / 2 ^ 52 % 2 ^ 11 = 0 := by
  rw [← BitVec.toNat_inj, toNat_unpackExponent]
  simp

private theorem unpackMantissa_eq_zero_iff (b : BitVec 64) :
    @UnpackedFloat.unpackMantissa .binary64 b = 0#_ ↔ b.toNat % 2 ^ 52 = 0 := by
  rw [← BitVec.toNat_inj, toNat_unpackMantissa]
  simp

private theorem dite_zero_ne_notANumber {p : Prop} [Decidable p] {s : UnpackedFloat.Sign}
    {u : ¬p → UnpackedFloat} (hu : ∀ h, u h ≠ .notANumber) :
    (if h : p then .zero s else u h) ≠ .notANumber := by
  by_cases h : p
  · rw [dif_pos h]
    intro hz
    cases hz
  · rw [dif_neg h]
    exact hu h

private theorem unpack_eq_notANumber_iff (b : BitVec 64) :
    UnpackedFloat.unpack .binary64 b = .notANumber ↔
      @UnpackedFloat.unpackExponent .binary64 b = -1#_ ∧
        @UnpackedFloat.unpackMantissa .binary64 b ≠ 0#_ := by
  by_cases htop : @UnpackedFloat.unpackExponent .binary64 b = -1#_
  · by_cases hm : @UnpackedFloat.unpackMantissa .binary64 b = 0#_
    · have hu : UnpackedFloat.unpack .binary64 b = .infinity _ := (if_pos htop).trans (if_pos hm)
      rw [hu]
      exact iff_of_false (fun h => by cases h) fun h => h.2 hm
    · have hu : UnpackedFloat.unpack .binary64 b = .notANumber := (if_pos htop).trans (if_neg hm)
      exact iff_of_true hu ⟨htop, hm⟩
  · apply iff_of_false _ fun h => htop h.1
    intro hu
    have hu := (if_neg htop).symm.trans hu
    by_cases hzero : @UnpackedFloat.unpackExponent .binary64 b = 0#_
    · exact dite_zero_ne_notANumber (fun _ hf => by cases hf) ((if_pos hzero).symm.trans hu)
    · have hu := (if_neg hzero).symm.trans hu
      cases hu

private theorem unpack_eq_notANumber_iff_lt (b : BitVec 64) :
    UnpackedFloat.unpack .binary64 b = .notANumber ↔ infinityBits < b.toNat % 2 ^ 63 := by
  rw [unpack_eq_notANumber_iff, unpackExponent_eq_top_iff, Ne, unpackMantissa_eq_zero_iff]
  unfold infinityBits
  omega

theorem isNaN_iff_parts (x : Float) : x.isNaN = true ↔ parts x = .notANumber := by
  change (parts x).isNaN = true ↔ _
  unfold UnpackedFloat.isNaN
  cases parts x with
  | notANumber => exact iff_of_true rfl rfl
  | _ => exact iff_of_false Bool.false_ne_true fun hu => by cases hu

theorem place?_eq_none_iff (x : Float) : place? x = none ↔ x.isNaN = true := by
  have hp : x.isNaN = true ↔ infinityBits < magnitude x :=
    (isNaN_iff_parts x).trans (unpack_eq_notANumber_iff_lt _)
  rw [hp]
  unfold place?
  split <;> simp_all

private theorem unpack_packComponents_ne_notANumber {sign : UnpackedFloat.Sign}
    {e : BitVec 11} {m : BitVec 52} (h : e = -1#_ → m = 0#_) :
    UnpackedFloat.unpack .binary64 (UnpackedFloat.packComponents .binary64 sign e m) ≠
      .notANumber := by
  rw [Ne, unpack_eq_notANumber_iff, UnpackedFloat.unpackExponent_packComponents,
    UnpackedFloat.unpackMantissa_packComponents]
  exact fun hu => hu.2 (h hu.1)

/-- Packing makes nothing of what is a number that is none. -/
theorem unpack_pack_ne_notANumber {u : UnpackedFloat} (h : u ≠ .notANumber) :
    UnpackedFloat.unpack .binary64 (UnpackedFloat.pack .binary64 u) ≠ .notANumber := by
  cases u with
  | notANumber => exact absurd rfl h
  | infinity s => exact unpack_packComponents_ne_notANumber fun _ => rfl
  | zero s => exact unpack_packComponents_ne_notANumber fun _ => rfl
  | finite s m e hm =>
    unfold UnpackedFloat.pack
    dsimp only
    split
    · exact unpack_packComponents_ne_notANumber fun _ => rfl
    · next hb =>
      split
      · apply unpack_packComponents_ne_notANumber
        intro he
        have he := congrArg BitVec.toNat he
        rw [BitVec.toNat_ofNat, Nat.mod_eq_of_lt (by omega)] at he
        simp at he
        omega
      · apply unpack_packComponents_ne_notANumber
        intro he
        exact absurd he (by decide)

theorem isNaN_mul_eq_false {x y : Float}
    (h : UnpackedFloat.mul .binary64 (parts x) (parts y) ≠ .notANumber) :
    (x * y).isNaN = false := by
  rw [Bool.eq_false_iff, Ne, isNaN_iff_parts]
  exact unpack_pack_ne_notANumber h

def IsProper : UnpackedFloat → Prop
  | .finite _ _ _ _ => True
  | _ => False

theorem isNaN_mul_of_isProper {x y : Float} (hx : IsProper (parts x)) (hy : y.isNaN = false) :
    (x * y).isNaN = false := by
  have hy' : parts y ≠ .notANumber := by
    rw [Ne, ← isNaN_iff_parts, hy]
    simp
  apply isNaN_mul_eq_false
  generalize parts x = u at hx
  cases u with
  | notANumber => exact False.elim hx
  | infinity => exact False.elim hx
  | zero => exact False.elim hx
  | finite =>
    cases hq : parts y with
    | notANumber => exact absurd hq hy'
    | infinity => exact fun hu => by cases hu
    | zero => exact fun hu => by cases hu
    | finite => exact dite_zero_ne_notANumber fun _ hu => by cases hu

private theorem isProper_unpack_packComponents {sign : UnpackedFloat.Sign}
    {e : BitVec 11} {m : BitVec 52} (h0 : e ≠ 0#_) (h1 : e ≠ -1#_) :
    IsProper (UnpackedFloat.unpack .binary64
      (UnpackedFloat.packComponents .binary64 sign e m)) := by
  have he : UnpackedFloat.unpackExponent (UnpackedFloat.packComponents .binary64 sign e m) = e :=
    UnpackedFloat.unpackExponent_packComponents
  unfold UnpackedFloat.unpack
  dsimp only
  rw [if_neg (by rwa [he]), if_neg (by rwa [he])]
  trivial

private theorem log2_append_one (m : BitVec 52) : (1#1 ++ m).toNat.log2 = 52 := by
  have hm := m.isLt
  have ha : (1#1 ++ m).toNat = 2 ^ 52 + m.toNat := by
    rw [BitVec.toNat_append, ← Nat.shiftLeft_add_eq_or_of_lt hm]
    simp [Nat.shiftLeft_eq]
  rw [ha, Nat.log2_eq_iff (by omega)]
  omega

private theorem unpack_of_normal {b : BitVec 64}
    (h0 : @UnpackedFloat.unpackExponent .binary64 b ≠ 0#_)
    (h1 : @UnpackedFloat.unpackExponent .binary64 b ≠ -1#_) :
    ∃ s hm, UnpackedFloat.unpack .binary64 b =
      .finite s (1#1 ++ @UnpackedFloat.unpackMantissa .binary64 b).toNat
        ((@UnpackedFloat.unpackExponent .binary64 b).toNat - 1075) hm := by
  have hm : 0 < (1#1 ++ @UnpackedFloat.unpackMantissa .binary64 b).toNat := by
    apply Nat.pos_of_ne_zero
    intro hzero
    have hlog := log2_append_one (@UnpackedFloat.unpackMantissa .binary64 b)
    rw [hzero] at hlog
    cases hlog
  unfold UnpackedFloat.unpack
  dsimp only
  rw [if_neg h1, if_neg h0]
  exact ⟨UnpackedFloat.Sign.ofBitVec (@UnpackedFloat.unpackSign .binary64 b), hm, rfl⟩

theorem isProper_unpack_pack {b : BitVec 64}
    (h0 : @UnpackedFloat.unpackExponent .binary64 b ≠ 0#_)
    (h1 : @UnpackedFloat.unpackExponent .binary64 b ≠ -1#_) :
    IsProper (UnpackedFloat.unpack .binary64
      (UnpackedFloat.pack .binary64 (UnpackedFloat.unpack .binary64 b))) := by
  have hlt := (@UnpackedFloat.unpackExponent .binary64 b).isLt
  have htop := mt (unpackExponent_eq_top_iff b).2 h1
  have hexp := toNat_unpackExponent b
  obtain ⟨s, hm, hu⟩ := unpack_of_normal h0 h1
  have hbias : (Format.binary64.exponentBias : Int) = 1023 := rfl
  have hb : (((@UnpackedFloat.unpackExponent .binary64 b).toNat - 1075 : Int) +
      Format.binary64.exponentBias + (52 : Nat)).toNat =
        (@UnpackedFloat.unpackExponent .binary64 b).toNat := by
    omega
  rw [hu]
  unfold UnpackedFloat.pack
  dsimp only
  rw [hb, if_neg (by omega), if_pos (by rw [log2_append_one]; rfl)]
  apply isProper_unpack_packComponents
  · rw [BitVec.ofNat_toNat]
    exact h0
  · rw [BitVec.ofNat_toNat]
    exact h1

theorem isProper_ofMagnitude (negative : Bool) {bits : Nat} (hlo : 2 ^ 52 ≤ bits)
    (hhi : bits < infinityBits) : IsProper (parts (ofMagnitude negative bits)) := by
  unfold infinityBits at hhi
  let b : BitVec 64 := BitVec.ofNat 64 (if negative then 2 ^ 63 + bits else bits)
  have hb : b.toNat / 2 ^ 52 % 2 ^ 11 = bits / 2 ^ 52 := by
    simp only [b, BitVec.toNat_ofNat]
    split <;> omega
  apply isProper_unpack_pack (b := b)
  · rw [Ne, unpackExponent_eq_zero_iff]
    omega
  · rw [Ne, unpackExponent_eq_top_iff]
    omega

private theorem lastPlace_one {n : Nat} (hn : 0 < n) : lastPlace n 1 = (n.log2 : Int) - 52 := by
  have h := Nat.log2_self_le (Nat.ne_of_gt hn)
  have hlead : ¬ n <<< (-(n.log2 : Int)).toNat < 1 <<< (n.log2 : Int).toNat := by
    simpa [Nat.shiftLeft_eq] using h
  have h1 : Nat.log2 1 = 0 := rfl
  unfold lastPlace
  simp only [h1, Int.natCast_zero, Int.sub_zero, if_neg hlead]
  omega

theorem normal_of_nearest? {n bits : Nat} (hn : 0 < n) (h : nearest? n 1 = some bits) :
    2 ^ 52 ≤ bits ∧ bits < infinityBits := by
  unfold nearest? at h
  rw [if_neg (Nat.ne_of_gt hn), lastPlace_one hn] at h
  dsimp only at h
  split at h
  · next hb =>
    obtain rfl := Option.some.inj h
    exact ⟨by omega, hb⟩
  · cases h

/-- Every whole number other than zero that a double stands for is finite there. -/
theorem isProper_of_ofInt? {n : Int} {x : Float} (hn : n ≠ 0) (h : ofInt? n = some x) :
    IsProper (parts x) := by
  obtain ⟨bits, hb, rfl⟩ := Option.map_eq_some_iff.1 h
  obtain ⟨hlo, hhi⟩ := normal_of_nearest? (by omega) hb
  exact isProper_ofMagnitude _ hlo hhi

theorem roundHalfEven_le {num den bound : Nat} (h : num < bound * den) :
    roundHalfEven num den ≤ bound := by
  have hden : 0 < den := Nat.pos_of_ne_zero fun hzero => by
    rw [hzero, Nat.mul_zero] at h
    omega
  have hlt : 2 * roundHalfEven num den * den < (2 * bound + 1) * den := by
    calc 2 * roundHalfEven num den * den ≤ 2 * num + den := (roundHalfEven_error num hden).2
      _ < 2 * (bound * den) + den := by omega
      _ = (2 * bound + 1) * den := by rw [Nat.add_mul, Nat.one_mul, Nat.mul_assoc]
  have hdouble := Nat.lt_of_mul_lt_mul_right hlt
  omega

theorem exists_nearest?_one {n : Nat} (hlo : 0 < n) (hhi : n < 2 ^ 1023) :
    ∃ bits, nearest? n 1 = some bits := by
  have hne := Nat.ne_of_gt hlo
  have hlt : ∀ k, n < 2 ^ k → n.log2 < k := fun k hk => (Nat.log2_lt hne).2 hk
  have hlog : n.log2 < 1023 := hlt 1023 hhi
  have hself : n < 2 ^ (n.log2 + 1) := Nat.lt_log2_self
  have hm : roundHalfEven (n <<< (-((n.log2 : Int) - 52)).toNat)
      (1 <<< ((n.log2 : Int) - 52).toNat) ≤ 2 ^ 53 := by
    rw [Nat.shiftLeft_eq, Nat.shiftLeft_eq]
    apply roundHalfEven_le
    have hpow : 2 ^ (n.log2 + 1) * 2 ^ (-((n.log2 : Int) - 52)).toNat =
        2 ^ 53 * (1 * 2 ^ ((n.log2 : Int) - 52).toNat) := by
      rw [Nat.one_mul, ← Nat.pow_add, ← Nat.pow_add]
      congr 1
      omega
    rw [← hpow]
    exact Nat.mul_lt_mul_of_pos_right hself (Nat.two_pow_pos _)
  unfold nearest?
  rw [if_neg hne, lastPlace_one hlo]
  dsimp only
  rw [if_pos (by unfold infinityBits; omega)]
  exact ⟨_, rfl⟩

/-- Doubles reach beyond all whole numbers below `2 ^ 1023`. -/
theorem exists_ofInt? {n : Int} (hlo : 0 < n) (hhi : n < 2 ^ 1023) : ∃ x, ofInt? n = some x := by
  obtain ⟨bits, hb⟩ := exists_nearest?_one (n := n.natAbs) (by omega) (by omega)
  exact ⟨_, Option.map_eq_some_iff.2 ⟨bits, hb, rfl⟩⟩

end TermMining.Number
