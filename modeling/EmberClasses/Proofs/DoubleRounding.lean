import EmberClasses.Json.Double
import Mathlib.Algebra.Order.Field.Basic
import Mathlib.Algebra.Order.Field.Power
import Mathlib.Algebra.Order.Ring.Rat
import Mathlib.Tactic.FieldSimp
import Mathlib.Tactic.Linarith
import Mathlib.Tactic.NormNum
import Mathlib.Tactic.Positivity
import Mathlib.Tactic.Ring

/-! Doubles and decimals as rational numbers. Rounding to a double gives the one whose interval a
number lies in, and the decimal that is written for a double lies in its interval, so that reading
it gives the double back. -/

namespace EmberClasses.Json

namespace Double

def value (x : Double) : ℚ := x.units * 2 ^ x.scale

/-- Each number has one such form: the units use all their bits, unless the scale is the lowest. -/
structure Canonical (x : Double) : Prop where
  units_lt : x.units < significandLimit
  le_scale : -1074 ≤ x.scale
  scale_le : x.scale ≤ 971
  full : significandLimit / 2 ≤ x.units ∨ x.scale = -1074

instance (x : Double) : Decidable x.Canonical :=
  decidable_of_iff (x.units < significandLimit ∧ -1074 ≤ x.scale ∧ x.scale ≤ 971 ∧
      (significandLimit / 2 ≤ x.units ∨ x.scale = -1074))
    ⟨fun ⟨h₁, h₂, h₃, h₄⟩ => ⟨h₁, h₂, h₃, h₄⟩, fun ⟨h₁, h₂, h₃, h₄⟩ => ⟨h₁, h₂, h₃, h₄⟩⟩

def Decimal.value (t : Decimal) : ℚ := t.digits * 10 ^ t.exponent

theorem significandLimit_eq : significandLimit = 2 ^ 53 := rfl

/-! Powers with whole exponents, and the quotients that stand for them. -/

theorem twoTo_pos (k : Nat) : 0 < twoTo k := Nat.pow_pos (by decide)

theorem tenTo_pos (k : Nat) : 0 < tenTo k := Nat.pow_pos (by decide)

section Powers

variable {k : Int}

theorem cast_twoTo (h : 0 ≤ k) : (twoTo k.toNat : ℚ) = 2 ^ k := by
  lift k to ℕ using h
  simp [twoTo]

theorem cast_twoTo_neg (h : ¬ 0 ≤ k) : (twoTo (-k).toNat : ℚ) = (2 ^ k)⁻¹ := by
  rw [cast_twoTo (by omega), zpow_neg]

theorem cast_tenTo (h : 0 ≤ k) : (tenTo k.toNat : ℚ) = 10 ^ k := by
  lift k to ℕ using h
  simp [tenTo]

theorem cast_tenTo_neg (h : ¬ 0 ≤ k) : (tenTo (-k).toNat : ℚ) = (10 ^ k)⁻¹ := by
  rw [cast_tenTo (by omega), zpow_neg]

end Powers

theorem scaled_snd_pos (n : Nat) {d : Nat} (hd : 0 < d) (scale : Int) :
    0 < (scaled n d scale).2 := by
  unfold scaled
  split
  · exact Nat.mul_pos hd (twoTo_pos _)
  · exact hd

theorem scaled_value (n d : Nat) (scale : Int) :
    ((scaled n d scale).1 / (scaled n d scale).2 : ℚ) = n / d / 2 ^ scale := by
  unfold scaled
  split
  · rename_i hscale
    rw [Nat.cast_mul, cast_twoTo hscale, div_div]
  · rename_i hscale
    rw [Nat.cast_mul, cast_twoTo_neg hscale, ← div_eq_mul_inv, div_right_comm]

theorem ratio_snd_pos (x : Double) : 0 < x.ratio.2 := by
  unfold ratio
  split
  · exact Nat.one_pos
  · exact twoTo_pos _

theorem ratio_value (x : Double) : (x.ratio.1 / x.ratio.2 : ℚ) = x.value := by
  unfold ratio value
  split
  · rename_i hscale
    rw [Nat.cast_mul, cast_twoTo hscale, Nat.cast_one, div_one]
  · rename_i hscale
    rw [cast_twoTo_neg hscale, div_inv_eq_mul]

/-! Rounding to a whole number. -/

theorem roundDiv_eq {a b units : Nat} (hb : 0 < b) (hlow : (units - 1 / 2 : ℚ) ≤ a / b)
    (hhigh : (a / b : ℚ) ≤ units + 1 / 2)
    (hodd : units % 2 = 1 → (units - 1 / 2 : ℚ) < a / b ∧ (a / b : ℚ) < units + 1 / 2) :
    roundDiv a b = units := by
  have hbq : (0 : ℚ) < b := by exact_mod_cast hb
  have hlow' : 2 * (units * b) ≤ 2 * a + b := by
    rw [le_div_iff₀ hbq] at hlow
    have : (2 * (units * b) : ℚ) ≤ 2 * a + b := by linarith
    exact_mod_cast this
  have hhigh' : 2 * a ≤ 2 * (units * b) + b := by
    rw [div_le_iff₀ hbq] at hhigh
    have : (2 * a : ℚ) ≤ 2 * (units * b) + b := by linarith
    exact_mod_cast this
  have hodd' : units % 2 = 1 → 2 * (units * b) < 2 * a + b ∧ 2 * a < 2 * (units * b) + b := by
    intro h
    obtain ⟨h₁, h₂⟩ := hodd h
    rw [lt_div_iff₀ hbq] at h₁
    rw [div_lt_iff₀ hbq] at h₂
    have h₁' : (2 * (units * b) : ℚ) < 2 * a + b := by linarith
    have h₂' : (2 * a : ℚ) < 2 * (units * b) + b := by linarith
    exact ⟨by exact_mod_cast h₁', by exact_mod_cast h₂'⟩
  have hmod := Nat.mod_lt a hb
  have hdiv := Nat.div_add_mod a b
  rw [Nat.mul_comm] at hdiv
  have hle : a / b ≤ units := by
    by_contra hlt
    have := Nat.mul_le_mul_right b (Nat.lt_of_not_le hlt)
    rw [Nat.succ_mul] at this
    omega
  have hge : units ≤ a / b + 1 := by
    by_contra hlt
    have := Nat.mul_le_mul_right b (Nat.lt_of_not_le hlt)
    rw [Nat.succ_mul, Nat.succ_mul] at this
    omega
  unfold roundDiv
  dsimp only
  generalize a / b = k at *
  rcases Nat.lt_or_ge k units with hlt | hge'
  · obtain rfl : units = k + 1 := by omega
    rw [Nat.add_one_mul k b] at hlow' hhigh' hodd'
    split
    · omega
    · split
      · rfl
      · omega
  · obtain rfl : units = k := by omega
    split
    · rfl
    · split
      · omega
      · omega

/-! The scale of a number. -/

/-- Numbers with the scale have their leading bit among the units, or the scale is the lowest. -/
structure IsScale (q : ℚ) (scale : Int) : Prop where
  lt : q < 2 ^ (53 + scale)
  le_scale : -1074 ≤ scale
  full : 2 ^ (52 + scale) ≤ q ∨ scale = -1074

theorem IsScale.le {q : ℚ} {s t : Int} (hs : IsScale q s) (ht : IsScale q t) : s ≤ t := by
  rcases hs.full with hfull | rfl
  · have hlt : (2 : ℚ) ^ (52 + s) < 2 ^ (53 + t) := hfull.trans_lt ht.lt
    have := (zpow_lt_zpow_iff_right₀ (by norm_num : (1 : ℚ) < 2)).mp hlt
    omega
  · exact ht.le_scale

theorem IsScale.unique {q : ℚ} {s t : Int} (hs : IsScale q s) (ht : IsScale q t) : s = t :=
  le_antisymm (hs.le ht) (ht.le hs)

theorem log2_bounds {n : Nat} (hn : 0 < n) :
    (2 : ℚ) ^ (n.log2 : Int) ≤ n ∧ (n : ℚ) < 2 ^ ((n.log2 : Int) + 1) := by
  have hle := Nat.log2_self_le hn.ne'
  have hlt := Nat.lt_log2_self (n := n)
  constructor
  · rw [zpow_natCast]
    exact_mod_cast hle
  · have : ((n.log2 : Int) + 1) = ((n.log2 + 1 : ℕ) : Int) := by simp
    rw [this, zpow_natCast]
    exact_mod_cast hlt

def pickScale (n d : Nat) : Int :=
  let low := max (Int.ofNat n.log2 - Int.ofNat d.log2 - 53) (-1074)
  let (a, b) := scaled n d low
  if a / b < significandLimit then low else low + 1

theorem isScale_pickScale {n d : Nat} (hn : 0 < n) (hd : 0 < d) :
    IsScale (n / d) (pickScale n d) := by
  have hdq : (0 : ℚ) < d := by exact_mod_cast hd
  obtain ⟨hnle, hnlt⟩ := log2_bounds hn
  obtain ⟨hdle, hdlt⟩ := log2_bounds hd
  have hlower : (2 : ℚ) ^ ((n.log2 : Int) - d.log2 - 1) ≤ n / d := by
    rw [le_div_iff₀ hdq]
    calc (2 : ℚ) ^ ((n.log2 : Int) - d.log2 - 1) * d
        ≤ 2 ^ ((n.log2 : Int) - d.log2 - 1) * 2 ^ ((d.log2 : Int) + 1) := by gcongr
      _ = 2 ^ (n.log2 : Int) := by rw [← zpow_add₀ two_ne_zero]; congr 1; ring
      _ ≤ n := hnle
  have hupper : (n / d : ℚ) < 2 ^ ((n.log2 : Int) - d.log2 + 1) := by
    rw [div_lt_iff₀ hdq]
    calc (n : ℚ) < 2 ^ ((n.log2 : Int) + 1) := hnlt
      _ = 2 ^ ((n.log2 : Int) - d.log2 + 1) * 2 ^ (d.log2 : Int) := by
        rw [← zpow_add₀ two_ne_zero]; congr 1; ring
      _ ≤ 2 ^ ((n.log2 : Int) - d.log2 + 1) * d := by gcongr
  unfold pickScale
  dsimp only
  generalize hlow : max (Int.ofNat n.log2 - Int.ofNat d.log2 - 53) (-1074) = low
  have hge : (n.log2 : Int) - d.log2 - 53 ≤ low := hlow ▸ le_max_left _ _
  have hmin : -1074 ≤ low := hlow ▸ le_max_right _ _
  have hpos := scaled_snd_pos n hd low
  have hposq : (0 : ℚ) < (scaled n d low).2 := by exact_mod_cast hpos
  have hfits : (scaled n d low).1 / (scaled n d low).2 < significandLimit ↔
      (n / d : ℚ) < 2 ^ (53 + low) := by
    rw [Nat.div_lt_iff_lt_mul hpos, zpow_add₀ two_ne_zero, ← div_lt_iff₀ (by positivity),
      ← scaled_value, div_lt_iff₀ hposq, significandLimit_eq]
    norm_cast
  split
  · rename_i hlt
    refine ⟨hfits.mp hlt, hmin, ?_⟩
    rcases max_choice (Int.ofNat n.log2 - Int.ofNat d.log2 - 53) (-1074) with h | h
    · rw [hlow, Int.ofNat_eq_natCast, Int.ofNat_eq_natCast] at h
      left
      rw [h]
      convert hlower using 2
      ring
    · exact .inr (hlow.symm.trans h)
  · rename_i hlt
    rw [hfits, not_lt] at hlt
    refine ⟨hupper.trans_le ?_, by omega, .inl ?_⟩
    · exact zpow_le_zpow_right₀ (by norm_num) (by omega)
    · rw [show 52 + (low + 1) = 53 + low by ring]
      exact hlt

/-- The double with a number of units, which may be one too many for the scale. -/
def carried (units : Nat) (scale : Int) : Option Double :=
  let x : Double :=
    if units = significandLimit then ⟨significandLimit / 2, scale + 1⟩ else ⟨units, scale⟩
  if x.scale ≤ 971 then some x else none

/-- A quotient is rounded to whole units of its scale. -/
theorem ofRatio_eq {n d : Nat} (hn : 0 < n) (hd : 0 < d) {scale : Int}
    (hscale : IsScale (n / d) scale) :
    ofRatio n d = carried (roundDiv (scaled n d scale).1 (scaled n d scale).2) scale := by
  obtain rfl : pickScale n d = scale := (isScale_pickScale hn hd).unique hscale
  unfold ofRatio
  rw [if_neg hn.ne']
  rfl

/-! The interval of a double. -/

def lowEnd (x : Double) : ℚ :=
  (x.units - if x.units = significandLimit / 2 ∧ -1074 < x.scale then 1 / 4 else 1 / 2) *
    2 ^ x.scale

def highEnd (x : Double) : ℚ := (x.units + 1 / 2) * 2 ^ x.scale

/-- The number rounds to the double: it lies between the ends of the double's interval, which belong
to it if the units are even. -/
structure Nearest (x : Double) (q : ℚ) : Prop where
  low : x.lowEnd ≤ q
  high : q ≤ x.highEnd
  odd : x.units % 2 = 1 → x.lowEnd < q ∧ q < x.highEnd

theorem two_zpow_pos (k : Int) : (0 : ℚ) < 2 ^ k := zpow_pos two_pos k

theorem Nearest.pos {x : Double} {q : ℚ} (h : x.Nearest q) (h0 : 0 < x.units) : 0 < q := by
  refine lt_of_lt_of_le (mul_pos ?_ (two_zpow_pos _)) h.low
  have : (1 : ℚ) ≤ x.units := by exact_mod_cast h0
  split <;> linarith

theorem carried_of_lt {x : Double} (hx : x.Canonical) : carried x.units x.scale = some x := by
  unfold carried
  rw [if_neg hx.units_lt.ne]
  exact if_pos hx.scale_le

/-- In units of the double, the interval goes half a unit to both sides at most. -/
theorem Nearest.half_unit {x : Double} {q : ℚ} (h : x.Nearest q) :
    (x.units - 1 / 2 : ℚ) ≤ q / 2 ^ x.scale ∧ q / 2 ^ x.scale ≤ x.units + 1 / 2 ∧
      (x.units % 2 = 1 →
        (x.units - 1 / 2 : ℚ) < q / 2 ^ x.scale ∧ q / 2 ^ x.scale < x.units + 1 / 2) := by
  have hp := two_zpow_pos x.scale
  obtain ⟨hlow, hhigh, hodd⟩ := h
  unfold lowEnd at hlow hodd
  unfold highEnd at hhigh hodd
  rw [← le_div_iff₀ hp] at hlow
  rw [← div_le_iff₀ hp] at hhigh
  rw [← lt_div_iff₀ hp, ← div_lt_iff₀ hp] at hodd
  refine ⟨le_trans (by split <;> linarith) hlow, hhigh, ?_⟩
  intro hunits
  obtain ⟨hlow, hhigh⟩ := hodd hunits
  exact ⟨lt_of_le_of_lt (by split <;> linarith) hlow, hhigh⟩

theorem Nearest.quarter_unit {x : Double} {q : ℚ} (h : x.Nearest q)
    (hunits : x.units = significandLimit / 2) (hscale : -1074 < x.scale) :
    (x.units - 1 / 4 : ℚ) ≤ q / 2 ^ x.scale := by
  have hlow := h.low
  rwa [lowEnd, ← le_div_iff₀ (two_zpow_pos x.scale), if_pos ⟨hunits, hscale⟩] at hlow

theorem Nearest.lt {x : Double} (hx : x.Canonical) {q : ℚ} (h : x.Nearest q) :
    q < 2 ^ (53 + x.scale) := by
  have hunits : (x.units : ℚ) + 1 ≤ 2 ^ 53 := by
    have := hx.units_lt
    rw [significandLimit_eq] at this
    exact_mod_cast this
  rw [zpow_add₀ two_ne_zero, ← div_lt_iff₀ (two_zpow_pos x.scale)]
  refine h.half_unit.2.1.trans_lt ?_
  norm_num at hunits ⊢
  linarith

/-- Only the smallest double of a scale has numbers of the scale below in its interval. -/
theorem Nearest.units_of_lt {x : Double} (hx : x.Canonical) {q : ℚ} (h : x.Nearest q)
    (hq : q < 2 ^ (52 + x.scale)) (hscale : x.scale ≠ -1074) :
    x.units = significandLimit / 2 := by
  have hge : significandLimit / 2 ≤ x.units := hx.full.resolve_right hscale
  rw [zpow_add₀ two_ne_zero, ← div_lt_iff₀ (two_zpow_pos x.scale)] at hq
  have hlt : x.units < 2 ^ 52 + 1 := by
    have hless := h.half_unit.1.trans_lt hq
    have : (x.units : ℚ) < 2 ^ (52 : Int) + 1 := by linarith
    norm_num at this
    exact_mod_cast this
  rw [significandLimit_eq] at hge ⊢
  omega

section Nearest

variable {x : Double} (hx : x.Canonical) {n d : Nat} (hn : 0 < n) (hd : 0 < d)
  (hq : x.Nearest (n / d))

include hx hn hd hq

theorem ofRatio_of_isScale (hscale : IsScale (n / d) x.scale) : ofRatio n d = some x := by
  obtain ⟨hlow, hhigh, hodd⟩ := hq.half_unit
  rw [← scaled_value] at hlow hhigh hodd
  rw [ofRatio_eq hn hd hscale, roundDiv_eq (scaled_snd_pos n hd _) hlow hhigh hodd]
  exact carried_of_lt hx

/-- A quotient just below the smallest double of a scale is rounded up to one unit too many for the
scale below, which is carried. -/
theorem ofRatio_of_lt (hless : (n / d : ℚ) < 2 ^ (52 + x.scale)) (hscale : x.scale ≠ -1074) :
    ofRatio n d = some x := by
  have hp := two_zpow_pos x.scale
  have hleast := hq.units_of_lt hx hless hscale
  have hlowest : -1074 < x.scale := lt_of_le_of_ne hx.le_scale (Ne.symm hscale)
  have hlow := hq.quarter_unit hleast hlowest
  have hcast : (x.units : ℚ) = 2 ^ 52 := by
    rw [hleast, significandLimit_eq]
    norm_num
  rw [hcast] at hlow
  rw [zpow_add₀ two_ne_zero, ← div_lt_iff₀ hp] at hless
  have hbelow : IsScale (n / d) (x.scale - 1) := by
    refine ⟨?_, by omega, .inl ?_⟩
    · rw [show 53 + (x.scale - 1) = 52 + x.scale by ring, zpow_add₀ two_ne_zero, ← div_lt_iff₀ hp]
      exact hless
    · rw [show 52 + (x.scale - 1) = 51 + x.scale by ring, zpow_add₀ two_ne_zero, ← le_div_iff₀ hp]
      exact le_trans (by norm_num) hlow
  have hhalf : (n / d / 2 ^ (x.scale - 1) : ℚ) = 2 * (n / d / 2 ^ x.scale) := by
    rw [zpow_sub_one₀ two_ne_zero]
    field_simp
  have hround : roundDiv (scaled n d (x.scale - 1)).1 (scaled n d (x.scale - 1)).2 =
      significandLimit := by
    apply roundDiv_eq (scaled_snd_pos n hd _)
    all_goals rw [scaled_value, hhalf, significandLimit_eq]
    · push_cast
      linarith
    · push_cast
      norm_num at hless ⊢
      linarith
    · intro h
      cases h
  rw [ofRatio_eq hn hd hbelow, hround]
  unfold carried
  rw [if_pos rfl, ← hleast, sub_add_cancel]
  exact if_pos hx.scale_le

end Nearest

/-- A quotient that lies in the interval of a double is rounded to it. -/
theorem ofRatio_of_nearest {x : Double} (hx : x.Canonical) (h0 : 0 < x.units) {n d : Nat}
    (hd : 0 < d) (hq : x.Nearest (n / d)) : ofRatio n d = some x := by
  have hn : 0 < n := by
    have hdq : (0 : ℚ) < d := by exact_mod_cast hd
    have := hq.pos h0
    rw [div_pos_iff_of_pos_right hdq] at this
    exact_mod_cast this
  by_cases hfull : (2 : ℚ) ^ (52 + x.scale) ≤ n / d ∨ x.scale = -1074
  · exact ofRatio_of_isScale hx hn hd hq ⟨hq.lt hx, hx.le_scale, hfull⟩
  · rw [not_or, not_le] at hfull
    exact ofRatio_of_lt hx hn hd hq hfull.1 hfull.2

/-! The results of rounding. -/

theorem roundDiv_bounds (n d : Nat) : n / d ≤ roundDiv n d ∧ roundDiv n d ≤ n / d + 1 := by
  unfold roundDiv
  dsimp only
  split
  · omega
  · split <;> omega

/-- The units that a quotient is rounded to, before they are carried. -/
theorem exists_units_of_ofRatio {n d : Nat} (hn : 0 < n) (hd : 0 < d) {x : Double}
    (h : ofRatio n d = some x) :
    ∃ units scale, carried units scale = some x ∧ IsScale (n / d) scale ∧
      units ≤ significandLimit ∧ (significandLimit / 2 ≤ units ∨ scale = -1074) := by
  have hscale := isScale_pickScale hn hd
  rw [ofRatio_eq hn hd hscale] at h
  generalize pickScale n d = scale at *
  have hpos := scaled_snd_pos n hd scale
  have hposq : (0 : ℚ) < (scaled n d scale).2 := by exact_mod_cast hpos
  have hvalue := scaled_value n d scale
  have hp := two_zpow_pos scale
  obtain ⟨hdown, hup⟩ := roundDiv_bounds (scaled n d scale).1 (scaled n d scale).2
  have hlt : (scaled n d scale).1 / (scaled n d scale).2 < significandLimit := by
    have hless := hscale.lt
    rw [zpow_add₀ two_ne_zero, ← div_lt_iff₀ hp, ← hvalue, div_lt_iff₀ hposq] at hless
    rw [Nat.div_lt_iff_lt_mul hpos, significandLimit_eq]
    exact_mod_cast hless
  refine ⟨_, _, h, hscale, by omega, hscale.full.imp_left fun hfull => ?_⟩
  rw [zpow_add₀ two_ne_zero, ← le_div_iff₀ hp, ← hvalue, le_div_iff₀ hposq] at hfull
  refine le_trans ?_ hdown
  rw [Nat.le_div_iff_mul_le hpos, significandLimit_eq]
  exact_mod_cast hfull

theorem carried_eq_some {units : Nat} {scale : Int} {x : Double}
    (h : carried units scale = some x) :
    x.scale ≤ 971 ∧ (units = significandLimit ∧ x = ⟨significandLimit / 2, scale + 1⟩ ∨
      units ≠ significandLimit ∧ x = ⟨units, scale⟩) := by
  unfold carried at h
  by_cases hlimit : units = significandLimit
  · simp only [if_pos hlimit, Option.ite_none_right_eq_some, Option.some.injEq] at h
    obtain ⟨hle, rfl⟩ := h
    exact ⟨hle, .inl ⟨hlimit, rfl⟩⟩
  · simp only [if_neg hlimit, Option.ite_none_right_eq_some, Option.some.injEq] at h
    obtain ⟨hle, rfl⟩ := h
    exact ⟨hle, .inr ⟨hlimit, rfl⟩⟩

theorem canonical_ofRatio {n d : Nat} (hd : 0 < d) {x : Double} (h : ofRatio n d = some x) :
    x.Canonical := by
  rcases Nat.eq_zero_or_pos n with rfl | hn
  · cases h
    decide
  · obtain ⟨units, scale, hcarried, hscale, hle, hfull⟩ := exists_units_of_ofRatio hn hd h
    have hlow := hscale.le_scale
    obtain ⟨hhigh, ⟨-, rfl⟩ | ⟨hne, rfl⟩⟩ := carried_eq_some hcarried
    · exact ⟨(by decide : significandLimit / 2 < significandLimit), by dsimp only; omega, hhigh,
        .inl le_rfl⟩
    · exact ⟨lt_of_le_of_ne hle hne, hlow, hhigh, hfull⟩

theorem units_pos_of_ofRatio {n : Nat} (hn : 0 < n) {x : Double} (h : ofRatio n 1 = some x) :
    0 < x.units := by
  obtain ⟨units, scale, hcarried, hscale, -, hfull⟩ := exists_units_of_ofRatio hn Nat.one_pos h
  have hlimit : 0 < significandLimit / 2 := by decide
  have hunits : significandLimit / 2 ≤ units := by
    refine hfull.resolve_right ?_
    rintro rfl
    have hlt := hscale.lt
    have hsmall : (2 : ℚ) ^ (53 + -1074 : Int) ≤ 2 ^ (0 : Int) :=
      zpow_le_zpow_right₀ one_le_two (by decide)
    have hone : (1 : ℚ) ≤ n := by exact_mod_cast hn
    rw [Nat.cast_one, div_one] at hlt
    rw [zpow_zero] at hsmall
    linarith
  obtain ⟨-, ⟨-, rfl⟩ | ⟨-, rfl⟩⟩ := carried_eq_some hcarried
  · exact hlimit
  · exact hlimit.trans_le hunits

theorem canonical_scaleByTen {fuel : Nat} {exponent : Int} {x y : Double} (hx : x.Canonical)
    (h : scaleByTen fuel x exponent = some y) : y.Canonical := by
  have hpower {k : Nat} {power : Double} (hp : powerOfTen k = some power) : 0 < power.ratio.1 := by
    have hunits := units_pos_of_ofRatio (tenTo_pos _) hp
    unfold ratio
    split
    · exact Nat.mul_pos hunits (twoTo_pos _)
    · exact hunits
  have hdiv {x y power : Double} {k : Nat} (hp : powerOfTen k = some power)
      (h : x.div power = some y) :
      y.Canonical :=
    canonical_ofRatio (Nat.mul_pos x.ratio_snd_pos (hpower hp)) h
  induction fuel generalizing x exponent with
  | zero =>
    cases h
    exact hx
  | succ fuel ih =>
    rw [scaleByTen] at h
    split at h
    · obtain ⟨power, hp, h⟩ := Option.bind_eq_some_iff.mp h
      split at h
      · exact canonical_ofRatio (Nat.mul_pos x.ratio_snd_pos power.ratio_snd_pos) h
      · exact hdiv hp h
    · split at h
      · cases h
        exact hx
      · split at h
        · cases h
        · obtain ⟨power, hp, h⟩ := Option.bind_eq_some_iff.mp h
          obtain ⟨quotient, hq, h⟩ := Option.bind_eq_some_iff.mp h
          exact ih (hdiv hp hq) h

theorem canonical_ofDecimal {significand : Nat} {exponent : Int} {x : Double}
    (h : ofDecimal significand exponent = some x) : x.Canonical := by
  obtain ⟨whole, hwhole, h⟩ := Option.bind_eq_some_iff.mp h
  exact canonical_scaleByTen (canonical_ofRatio Nat.one_pos hwhole) h

/-! The decimal that is written for a double. -/

def Decimal.ratio (t : Decimal) : Nat × Nat :=
  if 0 ≤ t.exponent then (t.digits * tenTo t.exponent.toNat, 1)
  else (t.digits, tenTo (-t.exponent).toNat)

theorem Decimal.ratio_snd_pos (t : Decimal) : 0 < t.ratio.2 := by
  unfold ratio
  split
  · exact Nat.one_pos
  · exact tenTo_pos _

theorem Decimal.ratio_value (t : Decimal) : (t.ratio.1 / t.ratio.2 : ℚ) = t.value := by
  unfold ratio value
  split
  · rename_i h
    rw [Nat.cast_mul, cast_tenTo h, Nat.cast_one, div_one]
  · rename_i h
    rw [cast_tenTo_neg h, div_inv_eq_mul]

def quarter (x : Double) : Nat × Nat :=
  if 0 ≤ x.scale then (twoTo x.scale.toNat, 4) else (1, 4 * twoTo (-x.scale).toNat)

theorem quarter_snd_pos (x : Double) : 0 < x.quarter.2 := by
  unfold quarter
  split
  · exact Nat.succ_pos 3
  · exact Nat.mul_pos (by decide) (twoTo_pos _)

theorem quarter_value (x : Double) : (x.quarter.1 / x.quarter.2 : ℚ) = 2 ^ x.scale / 4 := by
  unfold quarter
  split
  · rename_i h
    rw [cast_twoTo h, Nat.cast_ofNat]
  · rename_i h
    rw [Nat.cast_mul, cast_twoTo_neg h, Nat.cast_one, Nat.cast_ofNat]
    field_simp

def lowQuarters (x : Double) : Nat :=
  if x.units == significandLimit / 2 && -1074 < x.scale then 4 * x.units - 1 else 4 * x.units - 2

def highQuarters (x : Double) : Nat := 4 * x.units + 2

theorem lowQuarters_value {x : Double} (h0 : 0 < x.units) :
    (x.lowQuarters * (2 ^ x.scale / 4) : ℚ) = x.lowEnd := by
  unfold lowQuarters lowEnd
  simp only [Bool.and_eq_true, beq_iff_eq, decide_eq_true_eq]
  split
  · rw [Nat.cast_sub (by omega)]
    push_cast
    ring
  · rw [Nat.cast_sub (by omega)]
    push_cast
    ring

theorem highQuarters_value (x : Double) :
    (x.highQuarters * (2 ^ x.scale / 4) : ℚ) = x.highEnd := by
  unfold highQuarters highEnd
  push_cast
  ring

theorem quarters_le_iff (x : Double) (t : Decimal) (k : Nat) :
    k * x.quarter.1 * t.ratio.2 ≤ t.ratio.1 * x.quarter.2 ↔ k * (2 ^ x.scale / 4) ≤ t.value := by
  have hquarter : (0 : ℚ) < x.quarter.2 := by exact_mod_cast x.quarter_snd_pos
  have ht : (0 : ℚ) < t.ratio.2 := by exact_mod_cast t.ratio_snd_pos
  rw [← x.quarter_value, ← t.ratio_value, ← mul_div_assoc, div_le_div_iff₀ hquarter ht]
  norm_cast

theorem le_quarters_iff (x : Double) (t : Decimal) (k : Nat) :
    t.ratio.1 * x.quarter.2 ≤ k * x.quarter.1 * t.ratio.2 ↔ t.value ≤ k * (2 ^ x.scale / 4) := by
  have hquarter : (0 : ℚ) < x.quarter.2 := by exact_mod_cast x.quarter_snd_pos
  have ht : (0 : ℚ) < t.ratio.2 := by exact_mod_cast t.ratio_snd_pos
  rw [← x.quarter_value, ← t.ratio_value, ← mul_div_assoc, div_le_div_iff₀ ht hquarter]
  norm_cast

theorem roundsTo_eq (x : Double) (t : Decimal) :
    roundsTo x t =
      if x.units % 2 == 0 then
        decide (x.lowQuarters * x.quarter.1 * t.ratio.2 ≤ t.ratio.1 * x.quarter.2) &&
          decide (t.ratio.1 * x.quarter.2 ≤ x.highQuarters * x.quarter.1 * t.ratio.2)
      else
        decide (x.lowQuarters * x.quarter.1 * t.ratio.2 < t.ratio.1 * x.quarter.2) &&
          decide (t.ratio.1 * x.quarter.2 < x.highQuarters * x.quarter.1 * t.ratio.2) :=
  rfl

theorem roundsTo_iff {x : Double} (h0 : 0 < x.units) (t : Decimal) :
    roundsTo x t = true ↔ x.Nearest t.value := by
  rw [roundsTo_eq]
  split
  · rename_i heven
    rw [beq_iff_eq] at heven
    rw [Bool.and_eq_true, decide_eq_true_eq, decide_eq_true_eq, quarters_le_iff, le_quarters_iff,
      lowQuarters_value h0, highQuarters_value]
    exact ⟨fun ⟨hlow, hhigh⟩ => ⟨hlow, hhigh, fun hodd => by omega⟩, fun h => ⟨h.low, h.high⟩⟩
  · rename_i heven
    rw [beq_iff_eq] at heven
    rw [Bool.and_eq_true, decide_eq_true_eq, decide_eq_true_eq, ← not_le, ← not_le, quarters_le_iff,
      le_quarters_iff, lowQuarters_value h0, highQuarters_value, not_le, not_le]
    exact ⟨fun ⟨hlow, hhigh⟩ => ⟨hlow.le, hhigh.le, fun _ => ⟨hlow, hhigh⟩⟩,
      fun h => h.odd (by omega)⟩

/-- The value of a double in units of a power of ten, as a quotient. -/
def gridRatio (x : Double) (exponent : Int) : Nat × Nat :=
  if 0 ≤ exponent then (x.ratio.1, x.ratio.2 * tenTo exponent.toNat)
  else (x.ratio.1 * tenTo (-exponent).toNat, x.ratio.2)

theorem gridRatio_snd_pos (x : Double) (exponent : Int) : 0 < (x.gridRatio exponent).2 := by
  unfold gridRatio
  split
  · exact Nat.mul_pos x.ratio_snd_pos (tenTo_pos _)
  · exact x.ratio_snd_pos

theorem gridRatio_value (x : Double) (exponent : Int) :
    ((x.gridRatio exponent).1 / (x.gridRatio exponent).2 : ℚ) = x.value / 10 ^ exponent := by
  rw [← x.ratio_value]
  unfold gridRatio
  split
  · rename_i h
    rw [Nat.cast_mul, cast_tenTo h, div_div]
  · rename_i h
    rw [Nat.cast_mul, cast_tenTo_neg h, ← div_eq_mul_inv, div_right_comm]

/-- The multiples of a power of ten on both sides of a double. -/
def below (x : Double) (exponent : Int) : Decimal :=
  ⟨(x.gridRatio exponent).1 / (x.gridRatio exponent).2, exponent⟩

def above (x : Double) (exponent : Int) : Decimal :=
  ⟨(x.gridRatio exponent).1 / (x.gridRatio exponent).2 + 1, exponent⟩

/-- The one of them that is taken, if any of them rounds to the double. -/
def neighbour? (x : Double) (exponent : Int) : Option Decimal :=
  let twice := 2 * ((x.gridRatio exponent).1 % (x.gridRatio exponent).2)
  match roundsTo x (x.below exponent), roundsTo x (x.above exponent) with
  | true, true =>
    if twice < (x.gridRatio exponent).2 then some (x.below exponent)
    else if (x.gridRatio exponent).2 < twice then some (x.above exponent)
    else if (x.below exponent).digits % 2 == 0 then some (x.below exponent)
    else some (x.above exponent)
  | true, false => some (x.below exponent)
  | false, true => some (x.above exponent)
  | false, false => none

theorem onGrid_eq (x : Double) (exponent : Int) : onGrid x exponent = x.neighbour? exponent := rfl

/-- A grid gives a neighbour that rounds to the double, if there is one. -/
theorem onGrid_cases (x : Double) (exponent : Int) :
    (∃ t, onGrid x exponent = some t ∧ roundsTo x t = true) ∨
      onGrid x exponent = none ∧ roundsTo x (x.above exponent) = false := by
  rw [onGrid_eq, neighbour?]
  cases hbelow : roundsTo x (x.below exponent) with
  | true =>
    left
    cases habove : roundsTo x (x.above exponent) with
    | true =>
      dsimp only
      split
      · exact ⟨_, rfl, hbelow⟩
      · split
        · exact ⟨_, rfl, habove⟩
        · split
          · exact ⟨_, rfl, hbelow⟩
          · exact ⟨_, rfl, habove⟩
    | false => exact ⟨_, rfl, hbelow⟩
  | false =>
    cases habove : roundsTo x (x.above exponent) with
    | true => exact .inl ⟨_, rfl, habove⟩
    | false => exact .inr ⟨rfl, rfl⟩

/-- The grid of a seventeenth digit, or a finer one, is closer than the double's neighbours. -/
theorem roundsTo_above {x : Double} (hx : x.Canonical) (h0 : 0 < x.units) {exponent : Int}
    (hgrid : (10 : ℚ) ^ (exponent + 17) ≤ x.value) : roundsTo x (x.above exponent) = true := by
  have hten : (0 : ℚ) < 10 ^ exponent := zpow_pos (by norm_num) _
  have hp := two_zpow_pos x.scale
  have hpos : (0 : ℚ) < (x.gridRatio exponent).2 := by exact_mod_cast x.gridRatio_snd_pos exponent
  have hunits : (x.units : ℚ) < 2 ^ 53 := by
    have := hx.units_lt
    rw [significandLimit_eq] at this
    exact_mod_cast this
  -- `above` is greater than the double, by one step of the grid at most
  have hdigits : x.value < (x.above exponent).value ∧
      (x.above exponent).value ≤ x.value + 10 ^ exponent := by
    have hquotient := x.gridRatio_value exponent
    unfold above Decimal.value
    generalize (x.gridRatio exponent).1 = n at *
    have hd := x.gridRatio_snd_pos exponent
    generalize (x.gridRatio exponent).2 = d at *
    have hlt : (n : ℚ) / d < (n / d + 1 : ℕ) := by
      rw [div_lt_iff₀ hpos]
      exact_mod_cast Nat.lt_mul_of_div_lt (Nat.lt_succ_self _) hd
    have hle : ((n / d + 1 : ℕ) : ℚ) ≤ n / d + 1 := by
      have hmul : ((n / d : ℕ) : ℚ) * d ≤ n := by exact_mod_cast Nat.div_mul_le_self n d
      rw [Nat.cast_succ, add_le_add_iff_right, le_div_iff₀ hpos]
      exact hmul
    rw [hquotient] at hlt hle
    rw [div_lt_iff₀ hten] at hlt
    refine ⟨hlt, ?_⟩
    calc ((n / d + 1 : ℕ) : ℚ) * 10 ^ exponent
        ≤ (x.value / 10 ^ exponent + 1) * 10 ^ exponent := by gcongr
      _ = x.value + 10 ^ exponent := by field_simp
  obtain ⟨hgreater, hstep⟩ := hdigits
  have hsmall : (10 : ℚ) ^ exponent < 2 ^ x.scale / 2 := by
    rw [zpow_add₀ (by norm_num)] at hgrid
    have : x.value < 2 ^ 53 * 2 ^ x.scale := by
      unfold value
      gcongr
    norm_num at hgrid this
    linarith
  have hhigh : (x.above exponent).value < x.highEnd := by
    unfold highEnd
    unfold value at hstep
    linarith
  have hlow : x.lowEnd < (x.above exponent).value := by
    refine lt_trans ?_ hgreater
    unfold lowEnd value
    gcongr
    split <;> linarith
  exact (roundsTo_iff h0 _).mpr ⟨hlow.le, hhigh.le, fun _ => ⟨hlow, hhigh⟩⟩

theorem firstGrid_cases {x : Double} {k : Nat} (fuel : Nat) (exponent : Int) (hk : k < fuel)
    (h : roundsTo x (x.above (exponent - k)) = true) :
    ∃ t, firstGrid x fuel exponent = some t ∧ roundsTo x t = true := by
  induction fuel generalizing k exponent with
  | zero => omega
  | succ fuel ih =>
    unfold firstGrid
    rcases onGrid_cases x exponent with ⟨t, ht, hrounds⟩ | ⟨hnone, hrounds⟩
    · rw [ht]
      exact ⟨t, rfl, hrounds⟩
    · rw [hnone]
      cases k with
      | zero =>
        rw [Nat.cast_zero, sub_zero, hrounds] at h
        cases h
      | succ k =>
        refine ih (k := k) _ (by omega) ?_
        rw [show exponent - 1 - (k : Int) = exponent - ((k + 1 : ℕ) : Int) by push_cast; ring]
        exact h

def Fits (n d : Nat) (exponent : Int) : Prop :=
  if 0 ≤ exponent then d * tenTo exponent.toNat ≤ n else d ≤ n * tenTo (-exponent).toNat

theorem fits_iff {n d : Nat} (hd : 0 < d) (exponent : Int) :
    Fits n d exponent ↔ (10 : ℚ) ^ exponent ≤ n / d := by
  have hdq : (0 : ℚ) < d := by exact_mod_cast hd
  unfold Fits
  split
  · rename_i h
    rw [le_div_iff₀ hdq, ← cast_tenTo h, mul_comm]
    exact_mod_cast Iff.rfl
  · rename_i h
    have hten : (0 : ℚ) < (10 ^ exponent)⁻¹ := inv_pos.mpr (zpow_pos (by norm_num) _)
    rw [le_div_iff₀ hdq, ← inv_inv ((10 : ℚ) ^ exponent), inv_mul_le_iff₀ hten, ← cast_tenTo_neg h,
      mul_comm]
    exact_mod_cast Iff.rfl

theorem leadingExponent_le {n d : Nat} (hd : 0 < d) (fuel : Nat) {k : Int}
    (hk : (10 : ℚ) ^ k ≤ n / d) : (10 : ℚ) ^ leadingExponent n d fuel k ≤ n / d := by
  induction fuel generalizing k with
  | zero => exact hk
  | succ fuel ih =>
    by_cases hfits : Fits n d (k + 1)
    · rw [show leadingExponent n d (fuel + 1) k = leadingExponent n d fuel (k + 1) from
        if_pos hfits]
      exact ih ((fits_iff hd _).mp hfits)
    · rw [show leadingExponent n d (fuel + 1) k = k from if_neg hfits]
      exact hk

theorem two_pow_le_ten_pow : 2 ^ 1074 ≤ 10 ^ 330 := by decide +kernel

/-- The decimal that is written for a double rounds to it. -/
theorem nearest_shortest {x : Double} (hx : x.Canonical) (h0 : 0 < x.units) :
    x.Nearest x.shortest.value := by
  have hleast : (10 : ℚ) ^ (-330 : Int) ≤ x.ratio.1 / x.ratio.2 := by
    rw [x.ratio_value]
    calc (10 : ℚ) ^ (-330 : Int) ≤ 1 * 2 ^ (-1074 : Int) := by
          rw [one_mul, zpow_neg, zpow_neg]
          refine inv_anti₀ (by positivity) ?_
          exact_mod_cast two_pow_le_ten_pow
      _ ≤ x.units * 2 ^ x.scale := by
        gcongr
        · exact_mod_cast h0
        · norm_num
        · exact hx.le_scale
  have hlead := leadingExponent_le x.ratio_snd_pos 700 hleast
  rw [x.ratio_value] at hlead
  obtain ⟨t, ht, hrounds⟩ := firstGrid_cases (k := 17) 18
    (leadingExponent x.ratio.1 x.ratio.2 700 (-330)) (by omega)
    (roundsTo_above hx h0 (by simpa using hlead))
  have hshortest : x.shortest = t := by
    unfold shortest
    rw [if_neg h0.ne']
    dsimp only
    rw [ht]
    rfl
  rw [hshortest]
  exact (roundsTo_iff h0 t).mp hrounds

end Double

end EmberClasses.Json
