/-
The text of a number.

A number is written with digits, perhaps a point among them and perhaps a power of ten after
them.  `Numeral` is any such text with the number that it stands for.  The lexer takes a
numeral as one token, and if the number is near a float, it is read as that float.  The two
layouts of a number are numerals for the decimal that was chosen, which is near.  So every
finite number reads back from its text.
-/
import FormulaPlot.Decimal.Layout
import FormulaPlot.Proofs.Decimal.Shortest
import FormulaPlot.Proofs.Expr.Printer

namespace FormulaPlot.Decimal

/-! ### Numerals -/

/-- A point and what stands after it, or nothing. -/
def pointed (fraction : List Char) : List Char := if fraction = [] then [] else '.' :: fraction

/-- The power of ten after the digits, or nothing. -/
inductive Scaled : List Char → ℤ → Prop
  | plain : Scaled [] 0
  | power (n : ℤ) : Scaled ('e' :: n.repr.toList) n

/-- Digits, perhaps with a point among them and a power of ten after them, and the number that
they stand for. -/
inductive Numeral : List Char → ℚ → Prop
  | mk {whole fraction tail : List Char} {n : ℤ} (hne : whole ≠ [])
      (hwhole : ∀ c ∈ whole, c.isDigit = true) (hfraction : ∀ c ∈ fraction, c.isDigit = true)
      (htail : Scaled tail n) : Numeral (whole ++ (pointed fraction ++ tail))
        (digitsValue (whole ++ fraction) * 10 ^ (n - fraction.length))

variable {cs whole fraction tail : List Char} {n : ℤ} {v : ℚ}

theorem toList_repr_int (n : ℤ) : n.repr.toList =
    if 0 ≤ n then Nat.toDigits 10 n.toNat else '-' :: Nat.toDigits 10 (-n).toNat := by
  rw [Int.repr_eq_if]
  split
  · exact Nat.toList_repr
  · rw [String.toList_append, Nat.toList_repr]
    rfl

theorem isDigit_toDigits (n : ℕ) : ∀ c ∈ Nat.toDigits 10 n, c.isDigit = true := fun c hc =>
  Nat.isDigit_of_mem_toDigits (by decide) (by decide) hc

theorem digitsValue_toDigits (n : ℕ) : digitsValue (Nat.toDigits 10 n) = n :=
  Nat.ofDigitChars_ten_toDigits

/-- The power does not go on with digits or a point. -/
theorem Scaled.head (h : Scaled tail n) : ∀ c ∈ tail.head?, c.isDigit = false ∧ c ≠ '.' := by
  intro c hc
  cases h with
  | plain => cases hc
  | power n =>
      cases hc
      decide

theorem readExponent?_digits (hne : cs ≠ []) (hcs : ∀ c ∈ cs, c.isDigit = true) :
    readExponent? ('e' :: cs) = some (digitsValue cs : ℤ) ∧
      readExponent? ('e' :: '-' :: cs) = some (-(digitsValue cs : ℤ)) := by
  obtain ⟨c, rest, rfl⟩ := List.exists_cons_of_ne_nil hne
  have hc := hcs c List.mem_cons_self
  have hall : (c :: rest).all Char.isDigit = true := List.all_eq_true.mpr hcs
  have hplus : c ≠ '+' := Token.ne_of_class hc (by decide)
  have hminus : c ≠ '-' := Token.ne_of_class hc (by decide)
  unfold readExponent?
  constructor
  · simp [hplus, hminus, hall]
  · simp [hall]

theorem exponent_digits (hne : cs ≠ []) (hcs : ∀ c ∈ cs, c.isDigit = true) :
    Token.exponent ('e' :: cs) = 'e' :: cs ∧
      Token.exponent ('e' :: '-' :: cs) = 'e' :: '-' :: cs := by
  obtain ⟨c, rest, rfl⟩ := List.exists_cons_of_ne_nil hne
  have hc := hcs c List.mem_cons_self
  have hdigits : Token.digits (c :: rest) = c :: rest := List.takeWhile_eq_self_iff.mpr hcs
  have hplus : c ≠ '+' := Token.ne_of_class hc (by decide)
  have hminus : c ≠ '-' := Token.ne_of_class hc (by decide)
  have hsign : Token.sign (c :: rest) = [] := by simp [Token.sign, hplus, hminus]
  unfold Token.exponent
  constructor
  · simp [hsign, hdigits]
  · simp [Token.sign, hdigits]

theorem Scaled.readExponent? (h : Scaled tail n) : readExponent? tail = some n := by
  cases h with
  | plain => rfl
  | power n =>
      rw [toList_repr_int]
      by_cases hn : 0 ≤ n
      · rw [if_pos hn, (readExponent?_digits Nat.toDigits_ne_nil (isDigit_toDigits _)).1,
          digitsValue_toDigits, Int.toNat_of_nonneg hn]
      · rw [if_neg hn, (readExponent?_digits Nat.toDigits_ne_nil (isDigit_toDigits _)).2,
          digitsValue_toDigits, Int.toNat_of_nonneg (by omega), neg_neg]

theorem Scaled.exponent (h : Scaled tail n) : Token.exponent tail = tail := by
  cases h with
  | plain => rfl
  | power n =>
      rw [toList_repr_int]
      by_cases hn : 0 ≤ n
      · rw [if_pos hn]
        exact (exponent_digits Nat.toDigits_ne_nil (isDigit_toDigits _)).1
      · rw [if_neg hn]
        exact (exponent_digits Nat.toDigits_ne_nil (isDigit_toDigits _)).2

/-! ### Reading a numeral -/

/-- A run of digits ends where the text after it has none. -/
theorem digits_append (hcs : ∀ c ∈ cs, c.isDigit = true)
    (htail : ∀ c ∈ tail.head?, c.isDigit = false) :
    (cs ++ tail).takeWhile Char.isDigit = cs ∧ (cs ++ tail).dropWhile Char.isDigit = tail := by
  have htake : (cs ++ tail).takeWhile Char.isDigit = cs :=
    (Token.takeWhile_append_of_head htail).trans (List.takeWhile_eq_self_iff.mpr hcs)
  have hsplit : (cs ++ tail).takeWhile Char.isDigit ++ (cs ++ tail).dropWhile Char.isDigit =
      cs ++ tail := List.takeWhile_append_dropWhile
  rw [htake] at hsplit
  exact ⟨htake, List.append_cancel_left hsplit⟩

theorem Scaled.pointed_head (h : Scaled tail n) :
    ∀ c ∈ (pointed fraction ++ tail).head?, c.isDigit = false := by
  intro c hc
  unfold pointed at hc
  by_cases hempty : fraction = []
  · rw [if_pos hempty] at hc
    exact (h.head c hc).1
  · rw [if_neg hempty] at hc
    cases hc
    decide

/-- The lexer takes a numeral as one token. -/
theorem Numeral.number (h : Numeral cs v) : Token.number cs = cs := by
  cases h with
  | @mk whole fraction tail n hne hwhole hfraction htail =>
      have hdigits : Token.digits (whole ++ (pointed fraction ++ tail)) = whole :=
        (digits_append hwhole htail.pointed_head).1
      have hpart : Token.fraction (pointed fraction ++ tail) = pointed fraction := by
        have hmore := (digits_append hfraction fun c hc => (htail.head c hc).1).1
        unfold pointed
        by_cases hempty : fraction = []
        · rw [if_pos hempty, List.nil_append]
          cases htail <;> rfl
        · rw [if_neg hempty, List.cons_append, Token.fraction, Token.digits, hmore, if_neg]
          simpa using hempty
      unfold Token.number
      dsimp only
      rw [hdigits, List.drop_left, hpart, if_neg (fun hno => hne hno.1), ← List.append_assoc,
        ← List.length_append, List.drop_left, htail.exponent]

/-- A numeral starts with a digit. -/
theorem Numeral.head (h : Numeral cs v) : ∃ c rest, cs = c :: rest ∧ c.isDigit = true := by
  cases h with
  | @mk whole fraction tail n hne hwhole _ _ =>
      obtain ⟨c, rest, rfl⟩ := List.exists_cons_of_ne_nil hne
      exact ⟨c, _, rfl, hwhole c List.mem_cons_self⟩

theorem Numeral.readUnsigned? (h : Numeral cs v) : ∃ (digits : ℕ) (exponent : ℤ),
    readUnsigned? cs = some (nearest digits exponent) ∧ v = digits * 10 ^ exponent := by
  cases h with
  | @mk whole fraction tail n hne hwhole hfraction htail =>
      refine ⟨_, _, ?_, rfl⟩
      obtain ⟨htake, hdrop⟩ := digits_append hwhole (@Scaled.pointed_head fraction tail n htail)
      obtain ⟨htake', hdrop'⟩ := digits_append hfraction fun c hc => (htail.head c hc).1
      have hread : Decimal.readUnsigned? (whole ++ (pointed fraction ++ tail)) =
          if whole.isEmpty ∧ fraction.isEmpty then none
          else do
            let power ← readExponent? tail
            return nearest (digitsValue (whole ++ fraction)) (power - fraction.length) := by
        unfold Decimal.readUnsigned?
        rw [htake, hdrop]
        by_cases hempty : fraction = []
        · subst hempty
          cases htail <;> rfl
        · have hpoint : pointed fraction ++ tail = '.' :: (fraction ++ tail) := by
            rw [pointed, if_neg hempty, List.cons_append]
          rw [hpoint]
          simp only [htake', hdrop']
      rw [hread, htail.readExponent?, if_neg]
      · rfl
      · rw [List.isEmpty_iff]
        exact fun hno => hne hno.1

theorem toLower_of_isDigit {c : Char} (h : c.isDigit = true) : c.toLower = c := by
  unfold Char.isDigit at h
  unfold Char.toLower
  rw [Bool.and_eq_true, decide_eq_true_iff, decide_eq_true_iff] at h
  exact dif_neg fun hupper => absurd (UInt32.le_trans hupper.1 h.2) (by decide)

/-- A numeral is no word. -/
theorem Numeral.readMagnitude? (h : Numeral cs v) :
    readMagnitude? cs = Decimal.readUnsigned? cs := by
  obtain ⟨c, rest, rfl, hc⟩ := h.head
  have hi : c ≠ 'i' := Token.ne_of_class hc (by decide)
  have hn : c ≠ 'n' := Token.ne_of_class hc (by decide)
  unfold Decimal.readMagnitude?
  simp [toLower_of_isDigit hc, hi, hn]

/-- A numeral that is near a float is read as that float. -/
theorem Numeral.read {x : Binary} (hx : x.Canonical) (h : Numeral cs v) (hv : x.Near v) :
    Decimal.readMagnitude? cs = some (x.toFloat .positive hx.pos) := by
  obtain ⟨digits, exponent, hread, rfl⟩ := h.readUnsigned?
  have hpos : 0 < digits := by
    by_contra hzero
    obtain rfl : digits = 0 := by omega
    have hlow := (hv.bounds hx).1
    rw [Nat.cast_zero, zero_mul] at hlow
    have hten : (0 : ℚ) < 10 ^ (-400 : ℤ) := by positivity
    exact absurd (hlow.trans hten) (lt_irrefl _)
  rw [h.readMagnitude?, hread, Binary.nearest_eq hx hpos hv]

/-! ### Writing a numeral -/

variable {d : Scientific}

theorem digitsValue_zeros (cs : List Char) (n : ℕ) :
    digitsValue (cs ++ List.replicate n '0') = 10 ^ n * digitsValue cs := by
  show Nat.ofDigitChars 10 (cs ++ List.replicate n '0') 0 = 10 ^ n * Nat.ofDigitChars 10 cs 0
  rw [Nat.ofDigitChars_append, Nat.ofDigitChars_replicate_zero]

theorem digitsValue_zeros_append (n : ℕ) (cs : List Char) :
    digitsValue (List.replicate n '0' ++ cs) = digitsValue cs := by
  show Nat.ofDigitChars 10 (List.replicate n '0' ++ cs) 0 = Nat.ofDigitChars 10 cs 0
  rw [Nat.ofDigitChars_append, Nat.ofDigitChars_replicate_zero, mul_zero]

theorem isDigit_zeros (n : ℕ) : ∀ c ∈ List.replicate n '0', c.isDigit = true := by
  intro c hc
  rw [List.eq_of_mem_replicate hc]
  rfl

theorem Numeral.of_eq {w : ℚ} (h : Numeral cs v) (heq : v = w) : Numeral cs w := heq ▸ h

/-- The digits are padded with zeros.  What is put behind a whole number is a point with zeros,
or nothing. -/
theorem numeral_padded {layout : Layout} {count : ℕ}
    (hending : layout.wholeEnding.toList = pointed (List.replicate count '0'))
    (hwhole : 0 ≤ d.exponent) : Numeral
    (d.digits.repr ++ zeros d.exponent.toNat ++ layout.wholeEnding).toList d.value := by
  obtain ⟨k, hk⟩ := Int.eq_ofNat_of_zero_le hwhole
  have hne : Nat.toDigits 10 d.digits ++ List.replicate k '0' ≠ [] := by simp [Nat.toDigits_ne_nil]
  have hpadded : ∀ c ∈ Nat.toDigits 10 d.digits ++ List.replicate k '0', c.isDigit = true :=
    List.forall_mem_append.mpr ⟨isDigit_toDigits _, isDigit_zeros k⟩
  have hnumeral := Numeral.mk hne hpadded (isDigit_zeros count) .plain
  have hchars : (d.digits.repr ++ zeros d.exponent.toNat ++ layout.wholeEnding).toList =
      Nat.toDigits 10 d.digits ++ List.replicate k '0' ++
        (pointed (List.replicate count '0') ++ []) := by
    rw [hk, Int.toNat_natCast, String.toList_append, hending]
    simp [zeros]
  rw [hchars]
  refine hnumeral.of_eq ?_
  rw [digitsValue_zeros, digitsValue_zeros, digitsValue_toDigits, Scientific.value, hk,
    zpow_natCast, List.length_replicate, zero_sub, zpow_neg, zpow_natCast]
  push_cast
  field_simp

/-- The point is put among the digits. -/
theorem numeral_split {before : ℕ} (hexponent : d.exponent < 0) (hpos : 0 < before)
    (hbefore : (before : ℤ) = d.exponent + (Nat.toDigits 10 d.digits).length) :
    Numeral (String.ofList (d.digits.repr.toList.take before) ++ "." ++
      String.ofList (d.digits.repr.toList.drop before)).toList d.value := by
  have hdigits := isDigit_toDigits d.digits
  have hvalue := digitsValue_toDigits d.digits
  rw [Nat.toList_repr]
  generalize Nat.toDigits 10 d.digits = ds at hdigits hvalue hbefore ⊢
  have hfraction : ds.drop before ≠ [] := by
    rw [ne_eq, List.drop_eq_nil_iff]
    omega
  have hsome : ds.take before ≠ [] := by
    rw [ne_eq, List.take_eq_nil_iff]
    rintro (hnone | rfl)
    · omega
    · rw [List.length_nil] at hbefore
      omega
  have hafter : ∀ c ∈ ds.drop before, c.isDigit = true :=
    fun c hc => hdigits c (List.mem_of_mem_drop hc)
  have hnumeral := Numeral.mk hsome (fun c hc => hdigits c (List.mem_of_mem_take hc)) hafter .plain
  have hchars : (String.ofList (ds.take before) ++ "." ++ String.ofList (ds.drop before)).toList =
      ds.take before ++ (pointed (ds.drop before) ++ []) := by
    rw [pointed, if_neg hfraction]
    simp
  rw [hchars]
  refine hnumeral.of_eq ?_
  have hshift : 0 - ((ds.drop before).length : ℤ) = d.exponent := by
    rw [List.length_drop]
    omega
  rw [List.take_append_drop, hvalue, hshift, Scientific.value]

/-- Zeros are put between the point and the digits. -/
theorem numeral_small {count : ℕ}
    (hcount : (count : ℤ) = -(d.exponent + (Nat.toDigits 10 d.digits).length)) :
    Numeral ("0." ++ zeros count ++ d.digits.repr).toList d.value := by
  have hne : List.replicate count '0' ++ Nat.toDigits 10 d.digits ≠ [] := by
    simp [Nat.toDigits_ne_nil]
  have hpadded : ∀ c ∈ List.replicate count '0' ++ Nat.toDigits 10 d.digits, c.isDigit = true :=
    List.forall_mem_append.mpr ⟨isDigit_zeros count, isDigit_toDigits _⟩
  have hnumeral := Numeral.mk (by simp) (isDigit_zeros 1) hpadded .plain
  have hchars : ("0." ++ zeros count ++ d.digits.repr).toList = List.replicate 1 '0' ++
      (pointed (List.replicate count '0' ++ Nat.toDigits 10 d.digits) ++ []) := by
    rw [pointed, if_neg hne]
    simp [zeros]
  rw [hchars]
  refine hnumeral.of_eq ?_
  have hshift : 0 - ((List.replicate count '0' ++ Nat.toDigits 10 d.digits).length : ℤ) =
      d.exponent := by
    rw [List.length_append, List.length_replicate]
    omega
  rw [digitsValue_zeros_append, digitsValue_zeros_append, digitsValue_toDigits, hshift,
    Scientific.value]

/-- Where the point goes does not change the number. -/
theorem numeral_point {layout : Layout} {count : ℕ}
    (hending : layout.wholeEnding.toList = pointed (List.replicate count '0')) (d : Scientific) :
    Numeral (layout.point d).toList d.value := by
  have hlength : d.digits.repr.length = (Nat.toDigits 10 d.digits).length := by
    rw [← Nat.toList_repr, String.length_toList]
  unfold Layout.point
  dsimp only
  rw [hlength]
  by_cases hwhole : 0 ≤ d.exponent
  · rw [if_pos hwhole]
    exact numeral_padded hending hwhole
  · rw [if_neg hwhole]
    by_cases hinside : 0 < d.exponent + (Nat.toDigits 10 d.digits).length
    · rw [if_pos hinside]
      exact numeral_split (by omega) (by omega) (Int.toNat_of_nonneg hinside.le)
    · rw [if_neg hinside]
      exact numeral_small (Int.toNat_of_nonneg (by omega))

theorem numeral_exponential (d : Scientific) : Numeral (exponential d).toList d.value := by
  have hdigits := isDigit_toDigits d.digits
  have hvalue := digitsValue_toDigits d.digits
  have htext : d.digits.repr.toList = Nat.toDigits 10 d.digits := Nat.toList_repr
  obtain ⟨lead, others, hds⟩ := List.exists_cons_of_ne_nil
    (Nat.toDigits_ne_nil (n := d.digits) (b := 10))
  rw [hds] at hdigits hvalue htext
  have hlead : ∀ c ∈ [lead], c.isDigit = true :=
    fun c hc => hdigits c (List.mem_cons.mpr (.inl (List.mem_singleton.mp hc)))
  have hothers : ∀ c ∈ others, c.isDigit = true :=
    fun c hc => hdigits c (List.mem_cons_of_mem _ hc)
  have hnumeral := Numeral.mk (List.cons_ne_nil _ _) hlead hothers
    (.power (d.exponent + others.length))
  have hchars : (exponential d).toList =
      [lead] ++ (pointed others ++ 'e' :: (d.exponent + others.length).repr.toList) := by
    unfold exponential
    rw [htext]
    dsimp only
    unfold pointed
    by_cases hempty : others = []
    · simp [hempty]
    · simp [hempty]
  rw [hchars]
  refine hnumeral.of_eq ?_
  rw [List.singleton_append, hvalue, Scientific.value]
  congr 2
  omega

/-- The text of a magnitude stands for the decimal that was chosen. -/
theorem numeral_writeMagnitude (x : Binary) :
    Numeral (Layout.literal.writeMagnitude x).toList x.shortest.value := by
  let leading := x.shortest.exponent + x.shortest.digits.repr.length - 1
  have hchoice : Layout.literal.writeMagnitude x =
      if -4 ≤ leading ∧ leading < 16 then Layout.literal.point x.shortest
      else exponential x.shortest := rfl
  rw [hchoice]
  by_cases hplain : -4 ≤ leading ∧ leading < 16
  · have hending : Layout.literal.wholeEnding.toList = pointed (List.replicate 1 '0') := by decide
    rw [if_pos hplain]
    exact numeral_point hending _
  · rw [if_neg hplain]
    exact numeral_exponential _

/-! ### Numbers that read back -/

theorem read?_minus (cs : List Char) :
    Decimal.read? ('-' :: cs) = (Decimal.readMagnitude? cs).map (- ·) := rfl

/-- A numeral has no sign. -/
theorem Numeral.read? (h : Numeral cs v) : Decimal.read? cs = Decimal.readMagnitude? cs := by
  obtain ⟨c, rest, rfl, hc⟩ := h.head
  have hminus : c ≠ '-' := Token.ne_of_class hc (by decide)
  have hplus : c ≠ '+' := Token.ne_of_class hc (by decide)
  unfold Decimal.read?
  simp [hminus, hplus]

variable {f : Float}

/-- Only the two zeros have no magnitude. -/
theorem eq_zero_of_mantissa (h : (Binary.ofFloat f).mantissa = 0) : f = 0 ∨ f = -0 := by
  have hlt := f.toBits.toNat_lt
  have hzero : (0 : Float).toBits.toNat = 0 := by decide
  have hzero' : (-0 : Float).toBits.toNat = 2 ^ 63 := by decide
  rw [Binary.ofFloat_eq] at h
  have hbits : f.toBits.toNat = 0 ∨ f.toBits.toNat = 2 ^ 63 := by
    by_cases hbiased : f.toBits.toNat / 2 ^ 52 % 2 ^ 11 = 0
    · rw [if_pos hbiased] at h
      dsimp only at h
      omega
    · rw [if_neg hbiased] at h
      dsimp only at h
      omega
  rcases hbits with hbits | hbits
  · exact .inl (toBits_injective (UInt64.toNat_inj.mp (hbits.trans hzero.symm)))
  · exact .inr (toBits_injective (UInt64.toNat_inj.mp (hbits.trans hzero'.symm)))

theorem readsBack_zero : Expr.ReadsBack 0 ∧ Expr.ReadsBack (-0) :=
  ⟨⟨"0.0".toList, by decide +kernel, by decide, by decide, by decide +kernel⟩,
    ⟨"0.0".toList, by decide +kernel, by decide, by decide, by decide +kernel⟩⟩

/-- A layout that writes numerals writes every finite number, save zero, so that it is read as the
same number. -/
theorem write_finite {layout : Layout}
    (hlayout : ∀ x, Numeral (layout.writeMagnitude x).toList x.shortest.value)
    (hfinite : f.isFinite = true) (hmantissa : (Binary.ofFloat f).mantissa ≠ 0) :
    (layout.write f).toList = (if isNegative f then ['-'] else []) ++
        (layout.writeMagnitude (Binary.ofFloat f)).toList ∧
      Decimal.read? (layout.write f).toList = some f := by
  have hpos := Nat.pos_of_ne_zero hmantissa
  have hx := Binary.canonical_ofFloat hfinite hpos
  have hsame := Binary.toFloat_ofFloat hfinite hpos
  have hread := (hlayout _).read hx (near_shortest hpos)
  have htext : (layout.write f).toList = (if isNegative f then ['-'] else []) ++
      (layout.writeMagnitude (Binary.ofFloat f)).toList := by
    rw [isFinite_eq, Bool.and_eq_true, Bool.not_eq_true', Bool.not_eq_true'] at hfinite
    have hnonzero : ¬ (f == 0) = true := by
      rw [Float.beq_iff_ne_nan_and_eq]
      rintro ⟨-, -, rfl | ⟨rfl, -⟩ | ⟨rfl, -⟩⟩ <;> exact hmantissa (by decide +kernel)
    unfold Layout.write
    rw [hfinite.1, hfinite.2, if_neg Bool.false_ne_true, if_neg Bool.false_ne_true,
      if_neg hnonzero, String.toList_append]
    split <;> rfl
  refine ⟨htext, ?_⟩
  rw [htext]
  unfold signOf at hsame
  by_cases hneg : isNegative f = true
  · rw [if_pos hneg] at hsame ⊢
    rw [List.singleton_append, read?_minus, hread, Option.map_some, Binary.neg_toFloat hx, hsame]
  · rw [if_neg hneg] at hsame ⊢
    rw [List.nil_append, (hlayout _).read?, hread, hsame]

/-- The text of every finite number reads as the same number. -/
theorem readsBack (hfinite : f.isFinite = true) : Expr.ReadsBack f := by
  by_cases hmantissa : (Binary.ofFloat f).mantissa = 0
  · rcases eq_zero_of_mantissa hmantissa with rfl | rfl
    · exact readsBack_zero.1
    · exact readsBack_zero.2
  · obtain ⟨htext, hread⟩ := write_finite numeral_writeMagnitude hfinite hmantissa
    have hnumeral := numeral_writeMagnitude (Binary.ofFloat f)
    obtain ⟨c, rest, hlexeme, -⟩ := hnumeral.head
    refine ⟨_, htext, hnumeral.number, ?_, hread⟩
    rw [hlexeme]
    exact List.cons_ne_nil c rest

end FormulaPlot.Decimal
