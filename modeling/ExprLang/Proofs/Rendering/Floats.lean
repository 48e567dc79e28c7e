import ExprLang.Numeral.Layout
import ExprLang.Proofs.Rendering.Texts
import ExprLang.Proofs.WellFormed
import Mathlib.Tactic.Ring

set_option autoImplicit false

/-! # Floating point numbers read back

The text of a floating point number tells the number (`Binary64.text_inj`). Rounding is exact on the
numbers that have a rank (`Binary64.nearest_units`), so all decimals that are taken for the shortest
one round to the number that is written (`Binary64.rank_ofDecimal_shortest`). A text in which a
decimal is written has the value of the decimal, which may have come by some zeros at its end; as
rounding depends on the value only, decimals that are written alike round alike
(`Decimal.ofDecimal_eq_of_write_eq`).
-/

namespace ExprLang.Numeral

open CharClass

/-! ## Rounding -/

namespace Binary64

theorem roundHalfEven_mul {c : Nat} (hc : 0 < c) (n d : Nat) :
    roundHalfEven (n * c) (d * c) = roundHalfEven n d := by
  have htwice : 2 * (n % d * c) = 2 * (n % d) * c := (Nat.mul_assoc ..).symm
  have hbelow : 2 * (n % d) * c < d * c ↔ 2 * (n % d) < d := Nat.mul_lt_mul_right hc
  have habove : d * c < 2 * (n % d) * c ↔ d < 2 * (n % d) := Nat.mul_lt_mul_right hc
  unfold roundHalfEven
  simp only [Nat.mul_div_mul_right n d hc, Nat.mul_mod_mul_right, htwice, hbelow, habove]

/-- A fraction rounds alike in all its terms. -/
theorem nearest_mul {c : Nat} (hc : 0 < c) (n d : Nat) :
    nearest (n * c) (d * c) = nearest n d := by
  unfold nearest
  simp only [Nat.mul_div_mul_right n d hc, Nat.mul_right_comm d c, roundHalfEven_mul hc]

theorem nearest_congr {n d n' d' : Nat} (hd : 0 < d) (hd' : 0 < d') (h : n * d' = n' * d) :
    nearest n d = nearest n' d' :=
  calc nearest n d
      = nearest (n * d') (d * d') := (nearest_mul hd' n d).symm
    _ = nearest (n' * d) (d' * d) := by rw [h, Nat.mul_comm d d']
    _ = nearest n' d' := nearest_mul hd n' d'

theorem roundHalfEven_of_multiple {d : Nat} (hd : 0 < d) (n : Nat) :
    roundHalfEven (n * d) d = n := by
  unfold roundHalfEven
  simp only [Nat.mul_mod_left, Nat.mul_div_cancel n hd, Nat.mul_zero, hd, if_true]

/-- Numbers with a rank are their own nearest numbers. -/
theorem nearest_units {k : Nat} (hk : k ≤ infinityRank) : nearest (units k) 1 = k := by
  have hbinade : binade = 2 ^ 52 := rfl
  have hpos : 0 < binade := by decide
  unfold units
  split
  · -- the first two binades are spaced by one unit
    rename_i hsmall
    have hlog : k.log2 - 52 = 0 := by
      rcases Nat.eq_zero_or_pos k with rfl | hk
      · rfl
      · have hlt : k.log2 < 53 := (Nat.log2_lt (Nat.ne_of_gt hk)).mpr hsmall
        omega
    have hround : roundHalfEven k (1 * Nat.pow 2 0) = k := by
      have hmultiple := roundHalfEven_of_multiple Nat.one_pos k
      rwa [Nat.mul_one] at hmultiple
    simp only [nearest, Nat.div_one, hlog, hround, Nat.zero_mul, Nat.zero_add]
    exact Nat.min_eq_right hk
  · rename_i hlarge
    have hquotient : 2 ≤ k / binade := by
      rw [Nat.le_div_iff_mul_le hpos]
      omega
    have hk' := Nat.div_add_mod k binade
    have hremainder : k % binade < binade := Nat.mod_lt k hpos
    obtain ⟨s, hs⟩ : ∃ s, k / binade = s + 2 := ⟨k / binade - 2, by omega⟩
    generalize k % binade = r at hk' hremainder
    rw [hs, show s + 2 - 1 = s + 1 from rfl, Nat.pow_eq]
    -- the significand has 53 bits, so its binade is the one that its factor says
    have hlog : ((binade + r) * 2 ^ (s + 1)).log2 = 52 + (s + 1) := by
      have hfactor : 0 < 2 ^ (s + 1) := Nat.two_pow_pos _
      have hne : (binade + r) * 2 ^ (s + 1) ≠ 0 :=
        Nat.ne_of_gt (Nat.mul_pos (by omega) hfactor)
      rw [Nat.log2_eq_iff hne]
      constructor
      · rw [Nat.pow_add 2 52 (s + 1)]
        exact Nat.mul_le_mul_right _ (by omega)
      · rw [show 52 + (s + 1) + 1 = 53 + (s + 1) by omega, Nat.pow_add 2 53 (s + 1)]
        exact Nat.mul_lt_mul_of_pos_right (by omega) hfactor
    have hround : roundHalfEven ((binade + r) * 2 ^ (s + 1)) (1 * Nat.pow 2 (s + 1)) =
        binade + r := by
      rw [Nat.one_mul, Nat.pow_eq]
      exact roundHalfEven_of_multiple (Nat.two_pow_pos _) _
    have hshift : 52 + (s + 1) - 52 = s + 1 := by omega
    have hwhole : (s + 1) * binade + (binade + r) = k := by
      rw [← hk', hs]
      ring
    simp only [nearest, Nat.div_one, hlog, hshift, hround, hwhole]
    exact Nat.min_eq_right hk

/-! ## Rounding decimals -/

theorem ofDecimal_eq (x : Decimal) :
    ofDecimal x = ofRank (nearest (x.digits * Nat.pow 10 x.exponent.toNat * Nat.pow 2 1074)
      (Nat.pow 10 (-x.exponent).toNat)) := by
  obtain ⟨digits, exponent⟩ := x
  cases exponent with
  | ofNat e =>
      have hdenominator : (-Int.ofNat e).toNat = 0 := by
        rw [Int.toNat_eq_zero]
        exact Int.neg_nonpos_of_nonneg (Int.natCast_nonneg e)
      rw [hdenominator]
      rfl
  | negSucc e =>
      have hnumerator : digits * Nat.pow 10 (Int.negSucc e).toNat = digits := Nat.mul_one digits
      rw [hnumerator]
      rfl

/-- Zeros behind the digits do not count. -/
theorem ofDecimal_zeros (n j : Nat) (e : Int) :
    ofDecimal ⟨n * 10 ^ j, e - j⟩ = ofDecimal ⟨n, e⟩ := by
  rw [ofDecimal_eq, ofDecimal_eq]
  generalize Nat.pow 2 1074 = unit
  have hpow : ∀ k, 0 < Nat.pow 10 k := fun k => Nat.pow_pos (by decide)
  refine congrArg ofRank (nearest_congr (hpow _) (hpow _) ?_)
  simp only [Nat.pow_eq]
  have hexponents : 10 ^ j * 10 ^ (e - j).toNat * 10 ^ (-e).toNat =
      10 ^ e.toNat * 10 ^ (-(e - j)).toNat := by
    rw [← Nat.pow_add, ← Nat.pow_add, ← Nat.pow_add]
    congr 1
    omega
  calc n * 10 ^ j * 10 ^ (e - j).toNat * unit * 10 ^ (-e).toNat
      = n * unit * (10 ^ j * 10 ^ (e - j).toNat * 10 ^ (-e).toNat) := by ring
    _ = n * unit * (10 ^ e.toNat * 10 ^ (-(e - j)).toNat) := by rw [hexponents]
    _ = n * 10 ^ e.toNat * unit * 10 ^ (-(e - j)).toNat := by ring

/-- A number written out in full rounds to itself. -/
theorem rank_ofDecimal_exact {x : Binary64} (h : x.rank ≤ infinityRank) :
    (ofDecimal x.exact).rank = x.rank := by
  have hpow : ∀ n, 0 < Nat.pow 10 n := fun n => Nat.pow_pos (by decide)
  -- one unit is a power of five times a power of ten
  have hunits : ∀ n, nearest (units x.rank * Nat.pow 5 n * Nat.pow 10 0 * Nat.pow 2 n)
      (Nat.pow 10 n) = x.rank := by
    intro n
    have hproduct : units x.rank * Nat.pow 5 n * Nat.pow 10 0 * Nat.pow 2 n * 1 =
        units x.rank * Nat.pow 10 n := by
      simp only [Nat.pow_eq, Nat.pow_zero, Nat.mul_one]
      rw [Nat.mul_assoc, ← Nat.mul_pow]
    rw [nearest_congr (hpow n) Nat.one_pos hproduct, nearest_units h]
  have hdigits : x.exact.digits = units x.rank * Nat.pow 5 1074 := rfl
  have hexponent : x.exact.exponent.toNat = 0 ∧ (-x.exact.exponent).toNat = 1074 := ⟨rfl, rfl⟩
  rw [ofDecimal_eq, hdigits, hexponent.1, hexponent.2]
  generalize 1074 = n
  rw [hunits n, rank_ofRank h]

/-- What is found on a grid was tried. -/
theorem rank_of_onGrid {x : Binary64} {n : Nat} {d : Decimal} (h : x.onGrid? n = some d) :
    (ofDecimal d).rank = x.rank := by
  unfold onGrid? at h
  simp only at h
  split at h
  · rename_i hbelow habove
    cases h
    split
    · exact beq_iff_eq.mp hbelow
    · exact beq_iff_eq.mp habove
  · rename_i hbelow _
    cases h
    exact beq_iff_eq.mp hbelow
  · rename_i _ habove
    cases h
    exact beq_iff_eq.mp habove
  · cases h

theorem rank_of_shortestFrom {x : Binary64} (h : x.rank ≤ infinityRank) (n : Nat) :
    (ofDecimal (x.shortestFrom n)).rank = x.rank := by
  induction n with
  | zero => exact rank_ofDecimal_exact h
  | succ n ih =>
      rw [shortestFrom]
      cases hgrid : x.onGrid? (n + 1) with
      | some d => exact rank_of_onGrid hgrid
      | none => exact ih

/-- The shortest decimal of a number rounds to the number. -/
theorem rank_ofDecimal_shortest {x : Binary64} (h : x.rank ≤ infinityRank) :
    (ofDecimal x.shortest).rank = x.rank := by
  unfold shortest
  split
  · rename_i hzero
    rw [hzero]
    decide +kernel
  · exact rank_of_shortestFrom h _

end Binary64

/-! ## Decimals as they are written -/

theorem ofDigits_eq (cs : List Char) : ofDigits cs = Nat.ofDigitChars 10 cs 0 :=
  Nat.ofDigitChars_eq_foldl.symm

theorem ofDigits_toDigits (n : Nat) : ofDigits (Nat.toDigits 10 n) = n := by
  rw [ofDigits_eq, Nat.ofDigitChars_ten_toDigits]

theorem ofDigits_zeros_append (k : Nat) (cs : List Char) :
    ofDigits (List.replicate k '0' ++ cs) = ofDigits cs := by
  rw [ofDigits_eq, ofDigits_eq, Nat.ofDigitChars_append, Nat.ofDigitChars_replicate_zero,
    Nat.mul_zero]

theorem ofDigits_append_zeros (cs : List Char) (k : Nat) :
    ofDigits (cs ++ List.replicate k '0') = ofDigits cs * 10 ^ k := by
  rw [ofDigits_eq, ofDigits_eq, Nat.ofDigitChars_append, Nat.ofDigitChars_replicate_zero,
    Nat.mul_comm]

/-- The digits in front of a point and behind it are those of the number. -/
theorem Decimal.ofText_point {whole : List Char} (h : ∀ c ∈ whole, isDigit c = true)
    (fraction : List Char) :
    Decimal.ofText (whole ++ '.' :: fraction) =
      ⟨ofDigits (whole ++ fraction), -(fraction.length : Int)⟩ := by
  have hwhole : ∀ c ∈ whole, (c != '.') = true :=
    forall_bne_of_not_mem (not_mem_of_forall h (by decide))
  have hpoint : StopsAt (· != '.') ('.' :: fraction) := stopsAt_cons.mpr (by decide)
  rw [Decimal.ofText, takeWhile_append_of_stopsAt hwhole hpoint,
    dropWhile_append_of_stopsAt hwhole hpoint]
  rfl

/-- What is written plainly has the value of the digits with a point behind the first `whole` of
them. -/
theorem ofText_plain {digits : List Char} (h : ∀ c ∈ digits, isDigit c = true) (whole : Nat) :
    ∃ j : Nat, Decimal.ofText (plain digits whole) =
      ⟨ofDigits digits * 10 ^ j, (whole : Int) - digits.length - j⟩ := by
  have hfront : ∀ c ∈ (digits ++ List.replicate (whole - digits.length) '0').take whole,
      isDigit c = true := by
    intro c hc
    rcases List.mem_append.mp (List.mem_of_mem_take hc) with hc | hc
    · exact h c hc
    · rw [List.eq_of_mem_replicate hc]
      decide
  unfold plain
  simp only
  rw [Decimal.ofText_point hfront]
  by_cases hlength : digits.length ≤ whole
  · -- zeros stand in for missing digits, and one more zero behind the point
    refine ⟨whole - digits.length + 1, ?_⟩
    have hwhole : (digits ++ List.replicate (whole - digits.length) '0').take whole =
        digits ++ List.replicate (whole - digits.length) '0' := by
      apply List.take_of_length_le
      rw [List.length_append, List.length_replicate]
      omega
    have hzeros : digits ++ List.replicate (whole - digits.length) '0' ++ ['0'] =
        digits ++ List.replicate (whole - digits.length + 1) '0' := by
      rw [List.replicate_succ', List.append_assoc]
    rw [hwhole, List.drop_of_length_le hlength, List.isEmpty_nil, if_pos rfl, hzeros,
      ofDigits_append_zeros]
    refine congrArg (Decimal.mk _) ?_
    rw [List.length_singleton]
    omega
  · refine ⟨0, ?_⟩
    have hback : (digits.drop whole).isEmpty = false := by
      rw [List.isEmpty_eq_false_iff, ← List.length_pos_iff, List.length_drop]
      omega
    have hpadding : whole - digits.length = 0 := by omega
    rw [hback, hpadding, List.replicate_zero, List.append_nil, if_neg Bool.false_ne_true,
      List.take_append_drop, Nat.pow_zero, Nat.mul_one]
    refine congrArg (Decimal.mk _) ?_
    rw [List.length_drop]
    omega

theorem mem_plain {digits : List Char} (h : ∀ c ∈ digits, isDigit c = true) {whole : Nat}
    {c : Char} (hc : c ∈ plain digits whole) : isDigit c = true ∨ c = '.' := by
  have hzero : isDigit '0' = true := by decide
  unfold plain at hc
  rw [List.mem_append, List.mem_cons] at hc
  rcases hc with hc | rfl | hc
  · rcases List.mem_append.mp (List.mem_of_mem_take hc) with hc | hc
    · exact .inl (h c hc)
    · rw [List.eq_of_mem_replicate hc]
      exact .inl hzero
  · exact .inr rfl
  · split at hc
    · rw [List.mem_singleton.mp hc]
      exact .inl hzero
    · exact .inl (h c (List.mem_of_mem_drop hc))

/-- The digits of a decimal number that is written scientifically, with the point behind the first
of them. -/
def mantissa (digits : List Char) : List Char :=
  digits.take 1 ++ if (digits.drop 1).isEmpty then [] else '.' :: digits.drop 1

theorem scientific_eq (digits : List Char) (exponent : Int) :
    scientific digits exponent = mantissa digits ++ 'e' :: (toString exponent).toList := rfl

theorem mem_mantissa {digits : List Char} (h : ∀ c ∈ digits, isDigit c = true) {c : Char}
    (hc : c ∈ mantissa digits) : isDigit c = true ∨ c = '.' := by
  rcases List.mem_append.mp hc with hc | hc
  · exact .inl (h c (List.mem_of_mem_take hc))
  · split at hc
    · cases hc
    · rcases List.mem_cons.mp hc with rfl | hc
      · exact .inr rfl
      · exact .inl (h c (List.mem_of_mem_drop hc))

/-- Without the point the digits are left. -/
theorem filter_mantissa {digits : List Char} (h : ∀ c ∈ digits, isDigit c = true) :
    (mantissa digits).filter (· != '.') = digits := by
  have hdigits : ∀ {cs : List Char}, cs ⊆ digits → cs.filter (· != '.') = cs := by
    intro cs hcs
    rw [List.filter_eq_self]
    exact forall_bne_of_not_mem (not_mem_of_forall (fun c hc => h c (hcs hc)) (by decide))
  have hpoint : (if (digits.drop 1).isEmpty then [] else '.' :: digits.drop 1).filter (· != '.') =
      digits.drop 1 := by
    split
    · rename_i hempty
      rw [List.isEmpty_iff.mp hempty]
      rfl
    · rw [List.filter_cons_of_neg (by decide), hdigits (List.drop_subset 1 digits)]
  rw [mantissa, List.filter_append, hdigits (List.take_subset 1 digits), hpoint,
    List.take_append_drop]

namespace Decimal

/-- A decimal is written scientifically, or plainly with its value. -/
theorem write_cases (layout : Layout) (d : Decimal) :
    d.write layout = scientific (Nat.toDigits 10 d.digits)
      (d.exponent + (Nat.toDigits 10 d.digits).length - 1) ∨
    (∀ c ∈ d.write layout, isDigit c = true ∨ c = '.') ∧
      ∃ j : Nat, Decimal.ofText (d.write layout) = ⟨d.digits * 10 ^ j, d.exponent - j⟩ := by
  have hdigits : ∀ c ∈ Nat.toDigits 10 d.digits, isDigit c = true :=
    fun c => isDigit_of_mem_toDigits
  unfold write
  simp only
  split
  · exact .inl rfl
  · right
    split
    · rename_i e he
      obtain ⟨j, hj⟩ := ofText_plain hdigits (e + 1)
      refine ⟨fun c => mem_plain hdigits, j, ?_⟩
      have hexponent : ((e + 1 : Nat) : Int) - (Nat.toDigits 10 d.digits).length =
          d.exponent := by
        have he' : d.exponent + (Nat.toDigits 10 d.digits).length - 1 = (e : Int) := he
        omega
      rw [hj, hexponent, ofDigits_toDigits]
    · rename_i e he
      have hpadded : ∀ c ∈ List.replicate (e + 1) '0' ++ Nat.toDigits 10 d.digits,
          isDigit c = true := by
        rw [List.forall_mem_append]
        refine ⟨fun c hc => ?_, hdigits⟩
        rw [List.eq_of_mem_replicate hc]
        decide
      obtain ⟨j, hj⟩ := ofText_plain hpadded 1
      refine ⟨fun c => mem_plain hpadded, j, ?_⟩
      have hexponent : ((1 : Nat) : Int) -
          (List.replicate (e + 1) '0' ++ Nat.toDigits 10 d.digits).length = d.exponent := by
        rw [List.length_append, List.length_replicate]
        have he' : d.exponent + (Nat.toDigits 10 d.digits).length - 1 = -((e : Int) + 1) := he
        omega
      rw [hj, hexponent, ofDigits_zeros_append, ofDigits_toDigits]

/-- What is written scientifically tells the digits and the exponent. -/
theorem scientific_inj {digits digits' : List Char} {e e' : Int}
    (h : ∀ c ∈ digits, isDigit c = true) (h' : ∀ c ∈ digits', isDigit c = true)
    (hsame : scientific digits e = scientific digits' e') : digits = digits' ∧ e = e' := by
  have hmantissa : ∀ {ds : List Char}, (∀ c ∈ ds, isDigit c = true) → 'e' ∉ mantissa ds := by
    intro ds hds hmem
    rcases mem_mantissa hds hmem with hdigit | hpoint
    · revert hdigit
      decide
    · revert hpoint
      decide
  rw [scientific_eq, scientific_eq] at hsame
  obtain ⟨hfront, hback⟩ := append_cons_inj_first (hmantissa h) (hmantissa h') hsame
  refine ⟨?_, toString_int_inj (String.toList_injective hback)⟩
  rw [← filter_mantissa h, hfront, filter_mantissa h']

theorem mem_scientific (digits : List Char) (e : Int) : 'e' ∈ scientific digits e := by
  rw [scientific_eq, List.mem_append]
  exact .inr (List.mem_cons_self ..)

/-- Decimals that are written alike round alike. -/
theorem ofDecimal_eq_of_write_eq {layout : Layout} {d d' : Decimal}
    (h : d.write layout = d'.write layout) : Binary64.ofDecimal d = Binary64.ofDecimal d' := by
  have hplain : ¬ (isDigit 'e' = true ∨ 'e' = '.') := by decide
  rcases d.write_cases layout with hd | ⟨hd, j, hj⟩ <;>
    rcases d'.write_cases layout with hd' | ⟨hd', j', hj'⟩
  · rw [hd, hd'] at h
    obtain ⟨hdigits, hexponent⟩ := scientific_inj (fun c => isDigit_of_mem_toDigits)
      (fun c => isDigit_of_mem_toDigits) h
    rw [hdigits] at hexponent
    have hsame : d = d' := by
      obtain ⟨digits, exponent⟩ := d
      obtain ⟨digits', exponent'⟩ := d'
      rw [Decimal.mk.injEq]
      exact ⟨toDigits_inj (by decide) (by decide) hdigits, by simp only at hexponent; omega⟩
    rw [hsame]
  · have hmem := mem_scientific (Nat.toDigits 10 d.digits)
      (d.exponent + (Nat.toDigits 10 d.digits).length - 1)
    rw [← hd, h] at hmem
    exact absurd (hd' _ hmem) hplain
  · have hmem := mem_scientific (Nat.toDigits 10 d'.digits)
      (d'.exponent + (Nat.toDigits 10 d'.digits).length - 1)
    rw [← hd', ← h] at hmem
    exact absurd (hd _ hmem) hplain
  · -- one text has one value
    rw [h, hj'] at hj
    rw [← Binary64.ofDecimal_zeros d.digits j, ← hj, Binary64.ofDecimal_zeros]

/-- A decimal is written with digits and with a few other characters. -/
theorem mem_write {layout : Layout} {d : Decimal} {c : Char} (h : c ∈ d.write layout) :
    isDigit c = true ∨ c ∈ ['.', 'e', '-'] := by
  rcases d.write_cases layout with hd | ⟨hd, -⟩
  · rw [hd, scientific_eq, List.mem_append, List.mem_cons, toList_toString_int] at h
    rcases h with h | rfl | h
    · rcases mem_mantissa (fun c => isDigit_of_mem_toDigits) h with hdigit | rfl
      · exact .inl hdigit
      · exact .inr (by decide)
    · exact .inr (by decide)
    · split at h
      · exact .inl (isDigit_of_mem_toDigits h)
      · rcases List.mem_cons.mp h with rfl | h
        · exact .inr (by decide)
        · exact .inl (isDigit_of_mem_toDigits h)
  · rcases hd c h with hdigit | rfl
    · exact .inl hdigit
    · exact .inr (by decide)

end Decimal

/-! ## Numbers and their texts -/

namespace Binary64

variable {x y : Binary64}

theorem eq_of_bits (h : x.bits = y.bits) : x = y := by
  cases x
  cases y
  exact congrArg mk h

/-- Without a sign, the rank is the number. -/
theorem eq_of_rank (hx : x.isNegative = false) (hy : y.isNegative = false)
    (h : x.rank = y.rank) : x = y := by
  have hbits : ∀ {z : Binary64}, z.isNegative = false → z.rank = z.bits.toNat := by
    intro z hz
    exact Nat.mod_eq_of_lt (Nat.not_le.mp (of_decide_eq_false hz))
  rw [hbits hx, hbits hy, UInt64.toNat_inj] at h
  exact eq_of_bits h

theorem rank_le_of_isNaN (h : x.isNaN = false) : x.rank ≤ infinityRank :=
  Nat.not_lt.mp (of_decide_eq_false h)

/-- Numbers without a sign agree only with themselves. -/
theorem same_iff_eq (hx : x.isNaN = false ∧ x.isNegative = false)
    (hy : y.isNaN = false ∧ y.isNegative = false) : x.same y = true ↔ x = y := by
  rw [same, hx.1, hy.1]
  simp only [Bool.not_false, Bool.true_and, Bool.or_eq_true, Bool.and_eq_true, beq_iff_eq]
  constructor
  · rintro (hbits | ⟨hzero, hzero'⟩)
    · exact eq_of_bits hbits
    · exact eq_of_rank hx.2 hy.2 (hzero.trans hzero'.symm)
  · rintro rfl
    exact .inl rfl

theorem toList_text (hx : x.isNaN = false ∧ x.isNegative = false) :
    x.text.toList = if x.isInfinite then ['i', 'n', 'f'] else x.shortest.write .standard := by
  rw [text, String.toList_ofList, write, hx.1, hx.2]
  rfl

/-- Numbers without a sign are told apart by their texts. -/
theorem text_inj (hx : x.isNaN = false ∧ x.isNegative = false)
    (hy : y.isNaN = false ∧ y.isNegative = false) (h : x.text = y.text) : x = y := by
  have hinfinity : ∀ d : Decimal, ['i', 'n', 'f'] ≠ d.write .standard := by
    intro d hd
    have hmem : 'i' ∈ d.write .standard := hd ▸ List.mem_cons_self ..
    have hdigit := Decimal.mem_write hmem
    revert hdigit
    decide
  have hchars := congrArg String.toList h
  rw [toList_text hx, toList_text hy] at hchars
  apply eq_of_rank hx.2 hy.2
  split at hchars <;> split at hchars
  · rename_i hrank hrank'
    exact (beq_iff_eq.mp hrank).trans (beq_iff_eq.mp hrank').symm
  · exact absurd hchars (hinfinity _)
  · exact absurd hchars.symm (hinfinity _)
  · rw [← rank_ofDecimal_shortest (rank_le_of_isNaN hx.1),
      ← rank_ofDecimal_shortest (rank_le_of_isNaN hy.1),
      Decimal.ofDecimal_eq_of_write_eq hchars]

/-- The text of a number without a sign is printable. -/
theorem allPrintable_text (hx : x.isNaN = false ∧ x.isNegative = false) :
    Text.AllPrintable x.text := by
  have hinfinity : ['i', 'n', 'f'].all Text.isPrintable = true := rfl
  have hother : ['.', 'e', '-'].all Text.isPrintable = true := rfl
  intro c h
  rw [toList_text hx] at h
  split at h
  · exact List.all_eq_true.mp hinfinity c h
  · rcases Decimal.mem_write h with hdigit | hc
    · exact Text.isPrintable_of_isNameChar (isNameChar_of_isDigit hdigit)
    · exact List.all_eq_true.mp hother c hc

end Binary64

end ExprLang.Numeral
