import PipelineScript.Proofs.Quoting
import PipelineScript.Proofs.Statements
import PipelineScript.Proofs.Words

/-!
The canonical text of spans.

A span is written as a whole number of the largest unit that divides it. That text is read back as a
literal of its own, unless the span is longer than any literal (`render_exact`). In a script the
scanner reads it first, and the scanner does not know nanoseconds: a span of whole microseconds is
declared as it is written, and any other one becomes a number with the name `ns` for a second
statement (`declaration_iff_whole`).
-/
namespace PipelineScript

namespace Duration

/-! ## Literals -/

/-- A span has one pair of parts. -/
theorem Parts.span_injective : Function.Injective Parts.span := by
  rintro ⟨secs, nanos, hlt⟩ ⟨secs', nanos', hlt'⟩ h
  simp only [span, Duration.mk.injEq] at h
  have hsecond : second = 1000000000 := rfl
  rw [hsecond] at h hlt hlt'
  obtain rfl : secs = secs' := UInt64.toNat_inj.1 (by omega)
  obtain rfl : nanos = nanos' := UInt32.toNat_inj.1 (by omega)
  rfl

/-- The parts of a span are read back from its canonical text if a literal may spell it. -/
theorem Parts.parse_render (p : Parts) :
    Parts.parse p.span.render =
      if p.span.nanos ≤ limit then .ok (some p) else .error (.overflow p.span.render) := by
  have hmap := Parts.map_span_parse p.span.render
  rw [Duration.parse_render] at hmap
  by_cases hle : p.span.nanos ≤ limit
  · rw [if_pos hle] at hmap ⊢
    cases hread : Parts.parse p.span.render with
    | error e =>
      rw [hread] at hmap
      cases hmap
    | ok found =>
      rw [hread] at hmap
      have hspan : found.map span = (some p).map span := Except.ok.inj hmap
      rw [Option.map_injective span_injective hspan]
  · rw [if_neg hle] at hmap ⊢
    cases hread : Parts.parse p.span.render with
    | error e =>
      rw [hread] at hmap
      rw [Except.error.inj hmap]
    | ok found =>
      rw [hread] at hmap
      cases hmap

/-- **The canonical text is exact.** Every span is read back from its text if a literal may spell
it, and overflows if not; the text is `0s` for no time at all, and otherwise a number of the largest
unit that divides the span. Every pair of parts is read back as well. -/
theorem render_exact :
    (∀ d : Duration,
      Duration.parse d.render =
          (if d.nanos ≤ limit then .ok d else .error (.overflow d.render)) ∧
        if d.nanos = 0 then d.render = "0s"
        else ∃ scale unit, d.Largest scale unit ∧ d.render = toString (d.nanos / scale) ++ unit) ∧
    ∀ p : Parts, Parts.parse p.span.render =
      if p.span.nanos ≤ limit then .ok (some p) else .error (.overflow p.span.render) := by
  refine ⟨fun d => ⟨d.parse_render, ?_⟩, Parts.parse_render⟩
  split
  · rename_i hzero
    rw [Duration.render, if_pos hzero]
  · rename_i hne
    obtain ⟨scale, unit, hlargest, hrender⟩ := d.exists_largest
    exact ⟨scale, unit, hlargest, hrender hne⟩

end Duration

/-! ## Declarations -/

section

variable {engine : PatternEngine}

/-- The text of a declaration of the name `x` with what a node is written as. -/
def declarationText (n : Node) : String := "var x = " ++ n.render

/-- A declaration of the name `x`, and the pieces of its value. -/
def declaring (ps : List Piece) : List Piece :=
  .sign ⟨.var, "var".toList⟩ :: .blank [' '] :: .sign ⟨.ident, ['x']⟩ :: .blank [' '] ::
    .sign ⟨.assign, ['=']⟩ :: .blank [' '] :: ps

section

variable {ps : List Piece} {d : Duration}

theorem declarationText_ofDuration (h : String.ofList (spelled ps) = d.render) :
    declarationText (.ofDuration d) = String.ofList (spelled (declaring ps)) := by
  have hrender : (Node.ofDuration d).render = d.render := by
    rw [Node.render_of_literalSign? (n := .ofDuration d) rfl rfl]
    exact String.ofList_toList
  rw [declarationText, hrender, ← h, ← String.toList_inj]
  simp [declaring]

theorem fitting_declaring (h : Fitting .pattern ps) : Fitting .operand (declaring ps) := by
  have hclear : ∀ cs, Clear (' ' :: cs) := fun cs => clear_cons cs (by simp)
  exact ⟨by decide, Sign.fits_keyword (by decide) rfl (by decide) (hclear _),
    Text.isSpace_blank, by decide, Sign.fits_ident (by decide) (hclear _), Text.isSpace_blank,
    by decide, Sign.fits_assign rfl, Text.isSpace_blank, h⟩

/-- A declaration is parsed as the value and the further statements that stand behind `=`. -/
theorem exists_parse_declaring {P : Node → List Node → Prop} (h : Fitting .pattern ps)
    (hq : quiet false false ps = true)
    (hreads : ∀ (bytes : List UInt8) (ts : List Slot) (f : Slot), ts.map Slot.sign = signsOf ps →
      f.token.kind = .eof → f.comment = none → ∃ v ns mid after left left', P v ns ∧
        Reads bytes (.expression v) (ts ++ [f]) mid left ∧
        Reads bytes (.statements left ns) mid after left') :
    ∃ position info ident v ns, ident.name = "x" ∧ P v ns ∧
      parse (String.ofList (spelled (declaring ps))) =
        .ok (.program position (.declaration info ident v :: ns)) := by
  obtain ⟨ss, f, hin, hsigns, hf, -, hcomment⟩ := slotsIn_of_quiet (fitting_declaring h) hq
  have hdeclaring : signsOf (declaring ps) =
      ⟨.var, "var".toList⟩ :: ⟨.ident, ['x']⟩ :: ⟨.assign, ['=']⟩ :: signsOf ps := rfl
  have htrails : trails false (declaring ps) = false := trails_of_quiet hq
  rw [htrails, Option.isSome_eq_false_iff, Option.isNone_iff_eq_none] at hcomment
  simp only [Writes, hdeclaring, List.map_eq_cons_iff] at hsigns
  obtain ⟨t, _, rfl, ht, i, _, rfl, hi, e, ts, rfl, he, hts⟩ := hsigns
  obtain ⟨v, ns, mid, after, left, left', hP, hv, hns⟩ :=
    hreads (Text.bytes (spelled (declaring ps))) ts f hts hf hcomment
  have ht := Slot.kind_of_sign ht
  have hstatement := Reads.declare ht (Slot.kind_of_sign hi) (Slot.kind_of_sign he) hv
  have hprogram : Reads _ (.statements none (_ :: ns)) _ after left' :=
    .more (by simp [ht]) hstatement hns
  have hname : i.token.text = "x" := Slot.text_of_sign hi
  rw [List.cons_append, List.cons_append, List.cons_append] at hin
  exact ⟨_, _, _, v, ns, hname, hP, parse_of_reads (hin ▸ hprogram)⟩

/-- Nothing stands behind the last statement. -/
theorem reads_end (bytes : List UInt8) {f : Slot} (hf : f.token.kind = .eof)
    (hcomment : f.comment = none) : Reads bytes (.statements none []) [f] [f.bare] none := by
  have hdone : Reads bytes (.statements none (f.comment.toList.map .comment)) [f] [f.bare] none :=
    .done hf
  simpa [hcomment] using hdone

/-- A name alone is a statement. -/
theorem reads_name (bytes : List UInt8) {u f : Slot} (hu : u.token.kind = .ident)
    (hf : f.token.kind = .eof) (hcomment : f.comment = none) :
    Reads bytes (.statements none [.identifier ⟨u.info bytes, u.token.text⟩]) [u, f] [f.bare]
      none := by
  have hname : Reads bytes (.expression (.identifier ⟨u.info bytes, u.token.text⟩)) [u, f] [f]
      none :=
    .named hu (by simp [hf]) (by rw [hf]; rfl)
      (.operation (.name hu (by simp [hf])) (.stop (by rw [hf]; rfl)))
  exact .more (by simp [hu]) (.express (by simp [hu]) hname) (reads_end bytes hf hcomment)

/-- A span of whole microseconds is declared as it is written. -/
theorem exists_parse_whole (hd : Duration.micro ∣ d.nanos) (hlimit : d.nanos ≤ Duration.limit) :
    ∃ position info ident info', ident.name = "x" ∧
      parse (declarationText (.ofDuration d)) =
        .ok (.program position [.declaration info ident (.duration info' d d.render)]) := by
  obtain ⟨n, scale, unit, -, -, hrender, hscanned⟩ := d.render_eq_segment
  have hunit := Duration.isUnitText_of_mem (hscanned (Nat.mod_eq_zero_of_dvd hd))
  have hwhole := isWhole_natText 10 (by decide) (by decide) n
  have hfit : Fitting .pattern [.sign ⟨.duration, natText 10 n ++ unit.toList⟩] :=
    ⟨List.append_ne_nil_of_left_ne_nil (Sign.ne_nil_of_isWhole hwhole) _,
      Sign.fits_duration hwhole hunit clear_nil, trivial⟩
  have hspelled : String.ofList (spelled [.sign ⟨.duration, natText 10 n ++ unit.toList⟩]) =
      d.render := by
    rw [spelled_sign, spelled_nil, List.append_nil, hrender]
  obtain ⟨position, info, ident, _, _, hident, ⟨info', rfl, rfl⟩, hparse⟩ :=
    exists_parse_declaring (P := fun v ns => ∃ info', v = .duration info' d d.render ∧ ns = [])
      hfit rfl fun bytes ts f hts hf hcomment => by
    obtain ⟨v, rfl, hv⟩ : ∃ v, ts = [v] ∧ v.sign = ⟨.duration, natText 10 n ++ unit.toList⟩ := by
      simpa [signsOf, List.map_eq_cons_iff] using hts
    have hkind := Slot.kind_of_sign hv
    have hvalue : Node.durationOfText (v.info bytes) v.token.text =
        .ok (.duration (v.info bytes) d d.render) := by
      have hread := d.parse_render
      rw [if_pos hlimit] at hread
      rw [Slot.text_of_sign hv, ← hrender, Node.durationOfText, hread]
    refine ⟨_, [], [f], [f.bare], none, none, ⟨v.info bytes, rfl, rfl⟩, ?_, ?_⟩
    · exact .unnamed (by simp [hkind]) (by simp [hkind]) (by simp [hkind])
        (.operation (.duration hkind hvalue) (.stop (by rw [hf]; rfl)))
    · exact reads_end bytes hf hcomment
  rw [declarationText_ofDuration hspelled]
  exact ⟨position, info, ident, info', hident, hparse⟩

/-- Digits are a number up to the unit that the scanner does not know, and that is a name. -/
theorem fitting_number_ns {ds : List Char} (h : Sign.isWhole ds = true) :
    Fitting .pattern [.sign ⟨.number, ds⟩, .sign ⟨.ident, ['n', 's']⟩] := by
  refine ⟨Sign.ne_nil_of_isWhole h, Sign.fits_number h ?_, by decide,
    Sign.fits_ident (by decide) clear_nil, trivial⟩
  rintro c hc
  obtain rfl : 'n' = c := by simpa using hc
  decide

/-- A span that is not of whole microseconds is written in nanoseconds. -/
theorem Duration.render_of_not_dvd (hd : ¬micro ∣ d.nanos) :
    d.render = String.ofList (natText 10 d.nanos ++ ['n', 's']) := by
  obtain ⟨n, scale, unit, hmem, hn, hrender, -⟩ := d.render_eq_segment
  have hdvd : ∀ u ∈ scannedUnits, micro ∣ u.1 := by decide
  rcases mem_units_iff.1 hmem with hmem | heq
  · exact absurd (hn ▸ Dvd.dvd.mul_left (hdvd _ hmem) n) hd
  · cases heq
    rw [hrender, hn, Nat.mul_one]
    rfl

/-- A number of nanoseconds that a literal may spell is an integer. -/
theorem exists_ofText_natText {n : Nat} (h : n ≤ Duration.limit) :
    ∃ value : Int64, value.toInt = n ∧
      Number.ofText? (natText 10 n) = some (.int value Node.decimalBase) := by
  have hvalue : (Int64.ofNat n).toInt = n := Int64.toInt_ofNat_of_lt (by
    rw [Duration.limit] at h
    omega)
  have hread := Number.ofText?_digits (.inr rfl) n
  rw [← hvalue, int64OfInt?_toInt, Number.digits_decimal] at hread
  exact ⟨_, hvalue, hread⟩

/-- A span that is not of whole microseconds is taken apart: its number is declared, and its unit is
a name of its own. -/
theorem exists_parse_part (hd : ¬Duration.micro ∣ d.nanos) (hlimit : d.nanos ≤ Duration.limit) :
    ∃ position info ident info' info'', ∃ value : Int64, ident.name = "x" ∧
      value.toInt = d.nanos ∧
      parse (declarationText (.ofDuration d)) =
        .ok (.program position
          [.declaration info ident (.number info' (.int value Node.decimalBase)),
            .identifier ⟨info'', "ns"⟩]) := by
  obtain ⟨value, hvalue, hread⟩ := exists_ofText_natText hlimit
  have hwhole := isWhole_natText 10 (by decide) (by decide) d.nanos
  have hspelled : String.ofList (spelled [.sign ⟨.number, natText 10 d.nanos⟩,
      .sign ⟨.ident, ['n', 's']⟩]) = d.render := by
    rw [Duration.render_of_not_dvd hd]
    simp
  -- The scanner knows no nanoseconds: it ends the number, and `ns` is the next word.
  obtain ⟨position, info, ident, _, _, hident, ⟨info', info'', rfl, rfl⟩, hparse⟩ :=
    exists_parse_declaring (P := fun v ns => ∃ info' info'',
        v = .number info' (.int value Node.decimalBase) ∧
        ns = [.identifier ⟨info'', "ns"⟩])
      (fitting_number_ns hwhole) rfl fun bytes ts f hts hf hcomment => by
    obtain ⟨v, u, rfl, hv, hu⟩ : ∃ v u, ts = [v, u] ∧ v.sign = ⟨.number, natText 10 d.nanos⟩ ∧
        u.sign = ⟨.ident, ['n', 's']⟩ := by
      simpa [signsOf, List.map_eq_cons_iff] using hts
    have hkind := Slot.kind_of_sign hv
    have huk := Slot.kind_of_sign hu
    have hname : u.token.text = "ns" := Slot.text_of_sign hu
    have hnumber : Number.ofText v.token.text = .ok (.int value Node.decimalBase) := by
      rw [Number.ofText, Slot.text_of_sign hv, String.toList_ofList, hread]
    refine ⟨_, _, [u, f], [f.bare], none, none, ⟨v.info bytes, u.info bytes, rfl, rfl⟩, ?_, ?_⟩
    · exact .unnamed (by simp [hkind]) (by simp [hkind]) (by simp [hkind])
        (.operation (.number hkind hnumber) (.stop (by rw [huk]; rfl)))
    · rw [← hname]
      exact reads_name bytes huk hf hcomment
  rw [declarationText_ofDuration hspelled]
  exact ⟨position, info, ident, info', info'', _, hident, hvalue, hparse⟩

end

/-- **A span is declared as it is written just if it is of whole microseconds.** The text of any
other span is a script too: it declares the number of nanoseconds, and its unit is a statement. -/
theorem declaration_iff_whole {d : Duration} (hlimit : d.nanos ≤ Duration.limit) :
    ((∃ position info ident info' literal, ident.name = "x" ∧
        parse (declarationText (.ofDuration d)) =
          .ok (.program position [.declaration info ident (.duration info' d literal)])) ↔
      Duration.micro ∣ d.nanos) ∧
    (¬Duration.micro ∣ d.nanos →
      ∃ position info ident info' info'', ∃ value : Int64, ident.name = "x" ∧
        value.toInt = d.nanos ∧
        parse (declarationText (.ofDuration d)) =
          .ok (.program position
            [.declaration info ident (.number info' (.int value Node.decimalBase)),
              .identifier ⟨info'', "ns"⟩])) := by
  refine ⟨⟨?_, fun hd => ?_⟩, fun hd => exists_parse_part hd hlimit⟩
  · rintro ⟨position, info, ident, info', literal, -, hparse⟩
    by_contra hd
    obtain ⟨_, _, _, _, _, _, -, -, hpart⟩ := exists_parse_part hd hlimit
    rw [hparse] at hpart
    simp at hpart
  · obtain ⟨position, info, ident, info', hname, hparse⟩ := exists_parse_whole hd hlimit
    exact ⟨position, info, ident, info', _, hname, hparse⟩

end

open scoped PatternEngine

/-- A microsecond and a half is no whole number of them, a thousand times that is. -/
theorem declaration_iff_whole_half :
    (1500000 ≤ Duration.limit ∧ Duration.micro ∣ 1500000 ∧
      ∃ position info ident info' literal, ident.name = "x" ∧
        parse (declarationText (.ofDuration ⟨1500000⟩)) =
          .ok (.program position [.declaration info ident (.duration info' ⟨1500000⟩ literal)])) ∧
    (1500 ≤ Duration.limit ∧ ¬Duration.micro ∣ 1500 ∧
      ∃ position info ident info' info'', ∃ value : Int64, ident.name = "x" ∧ value.toInt = 1500 ∧
        parse (declarationText (.ofDuration ⟨1500⟩)) =
          .ok (.program position
            [.declaration info ident (.number info' (.int value Node.decimalBase)),
              .identifier ⟨info'', "ns"⟩])) := by
  have hlong : 1500000 ≤ Duration.limit := by decide
  have hwhole : Duration.micro ∣ 1500000 := by decide
  have hshort : 1500 ≤ Duration.limit := by decide
  have hpart : ¬Duration.micro ∣ 1500 := by decide
  exact ⟨⟨hlong, hwhole, (declaration_iff_whole hlong).1.2 hwhole⟩,
    ⟨hshort, hpart, (declaration_iff_whole hshort).2 hpart⟩⟩

end PipelineScript
