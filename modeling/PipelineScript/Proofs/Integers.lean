import PipelineScript.Proofs.LiteralValues
import PipelineScript.Proofs.Quoting

/-!
Integers as literals.

An integer is written as its sign and its digits, octal ones behind a zero. No literal has a sign: a
minus is an operator, and behind it the digits are read as a literal of their own. So an integer
that is not negative is read back in its base, and of a negative one the opposite, negated. The
least integer has no opposite, and its text is rejected at the digits (`integers_invertible`).
-/
namespace PipelineScript

section

variable {engine : PatternEngine}

/-- The text of an integer in a base. -/
def integerText [PatternEngine] (value : Int64) (base : UInt32) : String :=
  (Node.number .built (.int value base)).render

/-! ## Signs and digits -/

section

variable {value : Int64} {base : UInt32}

theorem integerText_of_nonneg (h : 0 ≤ value) :
    integerText value base = String.ofList (Number.digits base value.toInt.natAbs) := by
  have hnonneg : ¬value.toInt < 0 := Int.not_lt.2 (Int64.le_iff_toInt_le.1 h)
  rw [integerText, Node.render_of_literalSign? rfl rfl, Number.render_int, if_neg hnonneg]
  rfl

theorem integerText_of_neg (h : value < 0) :
    integerText value base = String.ofList ('-' :: Number.digits base value.toInt.natAbs) := by
  have hneg : value.toInt < 0 := Int64.lt_iff_toInt_lt.1 h
  rw [integerText, Node.render_of_literalSign? rfl rfl, Number.render_int, if_pos hneg]
  rfl

/-- What stands behind the minus of a negative integer is its opposite, if it has one. -/
theorem int64OfInt?_natAbs (hmin : Int64.minValue < value) (hneg : value < 0) :
    int64OfInt? value.toInt.natAbs = some (-value) := by
  have hmin : Int64.minValue.toInt < value.toInt := Int64.lt_iff_toInt_lt.1 hmin
  have hneg : value.toInt < 0 := Int64.lt_iff_toInt_lt.1 hneg
  have habs : (value.toInt.natAbs : Int) = -value.toInt := by omega
  rw [Int64.toInt_minValue] at hmin
  rw [habs, int64OfInt?, if_pos (by omega), Int64.ofInt_neg, Int64.ofInt_toInt]

end

/-! ## Reading -/

section

variable {ds : List Char}

/-- Digits alone are read as their number. -/
theorem exists_parseLambda_digits {v : Number} (hw : Sign.isWhole ds = true)
    (hv : Number.ofText? ds = some v) :
    ∃ info info', parseLambda (String.ofList ds) = .ok (.lambda info (.number info' v)) := by
  have hfit : Fitting .operand [.sign ⟨.number, ds⟩] :=
    ⟨Sign.ne_nil_of_isWhole hw, Sign.fits_whole hw clear_nil, trivial⟩
  obtain ⟨t, f, hin, ht, hf⟩ : ∃ t f, slotsIn ds = [t, f] ∧
      t.sign = ⟨.number, ds⟩ ∧ f.sign = ⟨.eof, []⟩ := by
    simpa [signsOf, List.map_eq_cons_iff] using slotsIn_fitting hfit
  have hfk := Slot.kind_of_sign hf
  have hnumber : Number.ofText t.token.text = .ok v := by
    rw [Number.ofText, Slot.text_of_sign ht, String.toList_ofList, hv]
  have hreads : Reads (Text.bytes ds) (.operation (.number (t.info _) v)) [t, f] [f] none :=
    .operation (.number (Slot.kind_of_sign ht) hnumber) (.stop (by rw [hfk]; rfl))
  exact ⟨_, _, parseLambda_of_reads hfk (hin ▸ hreads)⟩

/-- The slots of digits behind a minus. -/
theorem exists_slotsIn_minus (hw : Sign.isWhole ds = true) :
    ∃ m t f, slotsIn ('-' :: ds) = [m, t, f] ∧ m.token.kind = .binary .subtract ∧
      t.sign = ⟨.number, ds⟩ ∧ f.token.kind = .eof := by
  have hfit : Fitting .operand [.sign ⟨.binary .subtract, ['-']⟩, .sign ⟨.number, ds⟩] :=
    ⟨by decide, Sign.fits_minus, Sign.ne_nil_of_isWhole hw, Sign.fits_whole hw clear_nil, trivial⟩
  obtain ⟨m, t, f, hin, hm, ht, hf⟩ : ∃ m t f, slotsIn ('-' :: ds) = [m, t, f] ∧
      m.sign = ⟨.binary .subtract, ['-']⟩ ∧ t.sign = ⟨.number, ds⟩ ∧ f.sign = ⟨.eof, []⟩ := by
    simpa [signsOf, List.map_eq_cons_iff] using slotsIn_fitting hfit
  exact ⟨m, t, f, hin, Slot.kind_of_sign hm, ht, Slot.kind_of_sign hf⟩

/-- Digits behind a minus are read as their number, negated. -/
theorem exists_parseLambda_minus {v : Number} (hw : Sign.isWhole ds = true)
    (hv : Number.ofText? ds = some v) :
    ∃ info info' info'', parseLambda (String.ofList ('-' :: ds)) =
      .ok (.lambda info (.unary info' .negate (.number info'' v))) := by
  obtain ⟨m, t, f, hin, hm, ht, hf⟩ := exists_slotsIn_minus hw
  have hnumber : Number.ofText t.token.text = .ok v := by
    rw [Number.ofText, Slot.text_of_sign ht, String.toList_ofList, hv]
  have hminus : m.token.kind = UnaryOp.negate.tokenKind := hm
  have hreads : Reads (Text.bytes ('-' :: ds))
      (.operation (.unary ⟨_, none⟩ .negate (.number (t.info _) v))) [m, t, f] [f] none :=
    .operation (.unary hminus (.number (Slot.kind_of_sign ht) hnumber)) (.stop (by rw [hf]; rfl))
  exact ⟨_, _, _, parseLambda_of_reads hf (hin ▸ hreads)⟩

end

/-! ## Rejections -/

namespace Parser

variable {s s' : Lookahead} {bytes : List UInt8} {ending : StreamEnd}
  {last a m : Slot} {as : List Slot} {failure : ParseFailure} {fuel : Nat}

/-- A number without a value is rejected where it stands. -/
theorem operand_number_error {e : NodeError} (hk : a.token.kind = .number)
    (hv : Number.ofText a.token.text = .error e) (h : s.At bytes ending last (a :: as)) :
    ∃ s', operand (fuel + 1) s = .error (rejection bytes a.token (.literal e)) s' := by
  obtain ⟨s₁, hp, hs₁, -⟩ := peek_at h
  obtain ⟨s₂, s₃, he, hi, hs₃, -⟩ := expect_info_at hs₁ hk
  refine ⟨s₃, ?_⟩
  rw [operand, bind_ok hp]
  simp only [hk]
  rw [bind_ok he, bind_ok hi, hv]
  exact bind_error (reject_at hs₃ a.token _)

/-- What no operand can be read of is rejected behind a minus too. -/
theorem operand_minus_error (hm : m.token.kind = .binary .subtract)
    (ho : ∀ {s : Lookahead}, s.At bytes ending m as → ∃ s', operand fuel s = .error failure s')
    (h : s.At bytes ending last (m :: as)) : ∃ s', operand (fuel + 1) s = .error failure s' := by
  obtain ⟨s₁, hp, hs₁, -⟩ := peek_at h
  obtain ⟨s₂, hn, hs₂, -⟩ := next_at hs₁
  obtain ⟨s₃, hfail⟩ := ho hs₂
  refine ⟨s₃, ?_⟩
  rw [operand, bind_ok hp]
  simp only [hm]
  rw [bind_ok hn, bind_error hfail]

/-- The body of a lambda is rejected with its first operand. -/
theorem lambdaBody_error (hfuel : s.fuel = fuel + 1) (ho : operand fuel s = .error failure s') :
    lambdaBody s = .error failure s' := by
  have hoperation : operation s.fuel s = .error failure s' := by
    rw [hfuel, operation]
    exact bind_error ho
  rw [lambdaBody, depth_bind]
  exact bind_error hoperation

end Parser

/-- Digits without a value are rejected behind a minus. -/
theorem exists_parseLambda_error {ds : List Char} (hw : Sign.isWhole ds = true)
    (hv : Number.ofText? ds = none) :
    ∃ e, parseLambda (String.ofList ('-' :: ds)) = .error (.rejected e) ∧
      e.cause = .literal (.number (String.ofList ds)) := by
  obtain ⟨m, t, f, hin, hm, ht, -⟩ := exists_slotsIn_minus hw
  have hnumber : Number.ofText t.token.text = .error (.number (String.ofList ds)) := by
    rw [Slot.text_of_sign ht, Number.ofText_eq_error_iff, String.toList_ofList, hv]
  have hs := Lookahead.ofSource_at ('-' :: ds)
  have hfuel := Lookahead.length_slotsIn_le ('-' :: ds)
  rw [hin] at hs hfuel
  obtain ⟨fuel, hfuel⟩ : ∃ fuel, (Lookahead.ofSource ('-' :: ds)).fuel = fuel + 3 :=
    ⟨(Lookahead.ofSource ('-' :: ds)).fuel - 3, by omega⟩
  obtain ⟨s', ho⟩ : ∃ s', Parser.operand (fuel + 2) (Lookahead.ofSource ('-' :: ds)) = .error _ s' :=
    Parser.operand_minus_error hm (Parser.operand_number_error (Slot.kind_of_sign ht) hnumber) hs
  have hparse : parseLambda (String.ofList ('-' :: ds)) =
      .error (Parser.rejection (Text.bytes ('-' :: ds)) t.token
        (.literal (.number (String.ofList ds)))) := by
    rw [parseLambda, String.toList_ofList, Parser.runOn, Parser.lambdaBody_error hfuel ho]
  exact ⟨_, hparse, rfl⟩

/-! ## Integers -/

/-- **Integers are invertible.** In either base an integer that is not negative is read back as it
is, and a negative one as the negation of its opposite. The least integer is rejected: its digits
are a number that does not fit. -/
theorem integers_invertible {base : UInt32} (hb : base = Node.octalBase ∨ base = Node.decimalBase)
    (value : Int64) :
    (0 ≤ value → ∃ info info', parseLambda (integerText value base) =
      .ok (.lambda info (.number info' (.int value base)))) ∧
    (Int64.minValue < value → value < 0 →
      ∃ info info' info'', parseLambda (integerText value base) =
        .ok (.lambda info (.unary info' .negate (.number info'' (.int (-value) base))))) ∧
    (value = Int64.minValue → ∃ digits e, integerText value base = "-" ++ digits ∧
      parseLambda (integerText value base) = .error (.rejected e) ∧
      e.cause = .literal (.number digits)) := by
  have hwhole := Number.isWhole_digits base value.toInt.natAbs
  have hread := Number.ofText?_digits hb value.toInt.natAbs
  refine ⟨fun h => ?_, fun hmin hneg => ?_, fun h => ?_⟩
  · have hnonneg : 0 ≤ value.toInt := Int64.le_iff_toInt_le.1 h
    have habs : (value.toInt.natAbs : Int) = value.toInt := Int.natAbs_of_nonneg hnonneg
    rw [habs, int64OfInt?_toInt] at hread
    rw [integerText_of_nonneg h]
    exact exists_parseLambda_digits hwhole hread
  · rw [int64OfInt?_natAbs hmin hneg] at hread
    rw [integerText_of_neg hneg]
    exact exists_parseLambda_minus hwhole hread
  · have hneg : value < 0 := by
      rw [h]
      decide
    have hnone : int64OfInt? value.toInt.natAbs = none := by
      rw [h]
      decide
    rw [hnone] at hread
    obtain ⟨e, hparse, hcause⟩ := exists_parseLambda_error hwhole hread
    rw [integerText_of_neg hneg]
    refine ⟨_, e, ?_, hparse, hcause⟩
    rw [← String.toList_inj]
    simp

end

open scoped PatternEngine

/-- Octal zero keeps a zero of its own in front, and the ends of the range differ. -/
theorem integers_invertible_octal :
    (0 ≤ (0 : Int64) ∧ integerText 0 Node.octalBase = "00" ∧
      ∃ info info', parseLambda (integerText 0 Node.octalBase) =
        .ok (.lambda info (.number info' (.int 0 Node.octalBase)))) ∧
    (Int64.minValue < -8 ∧ (-8 : Int64) < 0 ∧
      ∃ info info' info'', parseLambda (integerText (-8) Node.octalBase) =
        .ok (.lambda info (.unary info' .negate (.number info'' (.int 8 Node.octalBase))))) ∧
    ∃ digits e, integerText Int64.minValue Node.octalBase = "-" ++ digits ∧
      parseLambda (integerText Int64.minValue Node.octalBase) = .error (.rejected e) ∧
      e.cause = .literal (.number digits) := by
  have hzero : 0 ≤ (0 : Int64) := by decide
  have hmin : Int64.minValue < (-8 : Int64) := by decide
  have hneg : (-8 : Int64) < 0 := by decide
  have hopposite : -(-8 : Int64) = 8 := by decide
  obtain ⟨info, info', info'', hparse⟩ := (integers_invertible (.inl rfl) (-8)).2.1 hmin hneg
  rw [hopposite] at hparse
  exact ⟨⟨hzero, by rw [integerText_of_nonneg hzero]; rfl,
      (integers_invertible (.inl rfl) 0).1 hzero⟩,
    ⟨hmin, hneg, info, info', info'', hparse⟩, (integers_invertible (.inl rfl) _).2.2 rfl⟩

end PipelineScript
