import PipelineScript.Proofs.Entries
import PipelineScript.Proofs.Reflow

/-!
Where the slots of a written text stand.

`slotsAt` gives the slots of pieces that stand at an offset of a script, with the offset of every
sign and the comment before it. Its lemmas follow the pieces from left to right: a comment in front
of a sign becomes the comment of its slot, with the lines that were written (`slotsAt_lead`), and
pieces that leave no comment behind can be looked at on their own (`slotsAt_append`).
-/
namespace PipelineScript

variable {engine : PatternEngine}

/-! ## Texts at an offset -/

namespace Text

theorem bytes_append (xs ys : List Char) : bytes (xs ++ ys) = bytes xs ++ bytes ys := by
  simp [bytes]

/-- The byte that ends a line is in no other character. -/
theorem newline_mem_encode {c : Char} :
    Position.newline ∈ String.utf8EncodeChar c ↔ c = '\n' := by
  constructor
  · intro h
    have hbyte : ∀ n : Nat, 128 ≤ n → n < 256 → Position.newline ≠ UInt8.ofNat n := by
      intro n hlow hhigh heq
      have hten := congrArg UInt8.toNat heq
      rw [UInt8.toNat_ofNat_of_lt' hhigh] at hten
      have hnewline : Position.newline.toNat = 10 := rfl
      omega
    have hvalue : c.val.toNat = 10 := by
      simp only [String.utf8EncodeChar] at h
      split at h
      · rename_i hle
        have hsmall : c.val.toNat < UInt8.size := Nat.lt_of_le_of_lt hle (by decide)
        have hten := congrArg UInt8.toNat (List.mem_singleton.1 h)
        rw [UInt8.toNat_ofNat_of_lt' hsmall] at hten
        exact hten.symm
      · split at h
        · simp only [List.mem_cons, List.not_mem_nil, or_false] at h
          rcases h with h | h <;> exact absurd h (hbyte _ (by omega) (by omega))
        · split at h <;> simp only [List.mem_cons, List.not_mem_nil, or_false] at h
          · rcases h with h | h | h <;> exact absurd h (hbyte _ (by omega) (by omega))
          · rcases h with h | h | h | h <;> exact absurd h (hbyte _ (by omega) (by omega))
    exact Char.ext (UInt32.toNat_inj.1 hvalue)
  · rintro rfl
    decide

theorem contains_newline_bytes (cs : List Char) :
    (bytes cs).contains Position.newline = hasNewline cs := by
  induction cs with
  | nil => rfl
  | cons c cs ih =>
    have hc : (String.utf8EncodeChar c).contains Position.newline = ('\n' == c) := by
      rw [Bool.eq_iff_iff, List.contains_iff_mem, newline_mem_encode, beq_iff_eq, eq_comm]
    show (String.utf8EncodeChar c ++ bytes cs).contains Position.newline = _
    rw [List.contains_append, hc, ih]
    rfl

end Text

/-- A text stands at an offset of a script. -/
def StandsAt (bytes : List UInt8) (offset : Nat) (text : List Char) : Prop :=
  ∃ before behind, bytes = Text.bytes (before ++ (text ++ behind)) ∧ offset = Text.size before

section

variable {bytes : List UInt8} {offset : Nat} {text u v : List Char}

theorem StandsAt.left (h : StandsAt bytes offset (u ++ v)) : StandsAt bytes offset u := by
  obtain ⟨before, behind, hb, ho⟩ := h
  exact ⟨before, v ++ behind, by simpa using hb, ho⟩

theorem StandsAt.right (h : StandsAt bytes offset (u ++ v)) :
    StandsAt bytes (offset + Text.size u) v := by
  obtain ⟨before, behind, hb, ho⟩ := h
  exact ⟨before ++ u, behind, by simpa using hb, by rw [ho, Text.size_append]⟩

/-- A newline between two offsets is one in the text between them. -/
theorem StandsAt.breaksIn (h : StandsAt bytes offset text) :
    breaksIn bytes offset (offset + Text.size text) = hasNewline text := by
  obtain ⟨before, behind, rfl, rfl⟩ := h
  have hstop : Text.size before + Text.size text = (Text.bytes (before ++ text)).length := by
    rw [Text.length_bytes, Text.size_append]
  have hle : (Text.bytes (before ++ text)).length ≤
      (Text.bytes (before ++ text) ++ Text.bytes behind).length := by
    rw [List.length_append]
    omega
  rw [PipelineScript.breaksIn, hstop, ← List.append_assoc,
    Text.bytes_append (before ++ text), decide_eq_true hle, Bool.true_and, List.take_left,
    Text.bytes_append, ← Text.length_bytes, List.drop_left, Text.contains_newline_bytes]

end

/-! ## The slots of pieces -/

/-- The tokens of pieces that stand at an offset. -/
def tokensOf (offset : Nat) : List Piece → List Token
  | [] => []
  | .blank b :: ps => tokensOf (offset + Text.size b) ps
  | .sign g :: ps =>
    ⟨g.kind, offset, String.ofList g.text⟩ :: tokensOf (offset + Text.size g.text) ps

theorem tokensAt_append (offset : Nat) (ps qs : List Piece) :
    tokensAt offset (ps ++ qs) =
      tokensOf offset ps ++ tokensAt (offset + Text.size (spelled ps)) qs := by
  induction ps generalizing offset with
  | nil => rfl
  | cons p ps ih =>
    cases p <;>
      simp only [List.cons_append, tokensAt, tokensOf, ih, spelled_blank, spelled_sign,
        Text.size_append, Nat.add_assoc]

theorem tokensOf_append (offset : Nat) (ps qs : List Piece) :
    tokensOf offset (ps ++ qs) =
      tokensOf offset ps ++ tokensOf (offset + Text.size (spelled ps)) qs := by
  induction ps generalizing offset with
  | nil => rfl
  | cons p ps ih =>
    cases p <;>
      simp only [List.cons_append, tokensOf, ih, spelled_blank, spelled_sign, Text.size_append,
        Nat.add_assoc]

theorem trails_append_eq (r : Bool) (ps qs : List Piece) :
    trails r (ps ++ qs) = trails (trails r ps) qs := by
  induction ps generalizing r with
  | nil => rfl
  | cons p ps ih => cases p <;> exact ih _

section

variable {bytes : List UInt8}

/-- Comment tokens are kept for the slot behind them. -/
theorem slotsBehind_comments {before cs : List Token} (h : ∀ t ∈ cs, t.kind = .comment)
    (ts : List Token) :
    slotsBehind bytes before (cs ++ ts) = slotsBehind bytes (before ++ cs) ts := by
  induction cs generalizing before with
  | nil => simp
  | cons c cs ih =>
    have hc : Lookahead.isComment c = true := by simp [Lookahead.isComment, h c]
    rw [List.cons_append, slotsBehind, if_pos hc, ih fun t ht => h t (by simp [ht])]
    simp

/-- If no comment stands at the end of some pieces, the slots behind them begin anew. -/
theorem slotsBehind_tokensOf {before : List Token} {ps : List Piece}
    (h : trails (!before.isEmpty) ps = false) (offset : Nat) (ts : List Token) :
    slotsBehind bytes before (tokensOf offset ps ++ ts) =
      slotsBehind bytes before (tokensOf offset ps) ++ slotsBehind bytes [] ts := by
  induction ps generalizing before offset with
  | nil =>
    have hempty : before = [] := by simpa [trails] using h
    subst hempty
    rfl
  | cons p ps ih =>
    cases p with
    | blank b => exact ih h _
    | sign g =>
      by_cases hc : g.kind = .comment
      · have hsome : ∀ t : Token, (before ++ [t]).isEmpty = false := by simp
        simp only [tokensOf, List.cons_append, slotsBehind, Lookahead.isComment, hc,
          beq_self_eq_true, if_true]
        exact ih (by simpa [trails, hc, hsome] using h) _
      · simp only [tokensOf, List.cons_append, slotsBehind, Lookahead.isComment,
          beq_eq_false_iff_ne.2 hc, Bool.false_eq_true, if_false]
        rw [ih (by simpa [trails, beq_eq_false_iff_ne.2 hc] using h)]

/-- The slots of pieces that stand at an offset. -/
def slotsAt (bytes : List UInt8) (offset : Nat) (ps : List Piece) : List Slot :=
  slotsBehind bytes [] (tokensOf offset ps)

@[simp] theorem slotsAt_nil (offset : Nat) : slotsAt bytes offset [] = [] := rfl

@[simp] theorem slotsAt_blank (offset : Nat) (b : List Char) (ps : List Piece) :
    slotsAt bytes offset (.blank b :: ps) = slotsAt bytes (offset + Text.size b) ps := rfl

theorem slotsAt_append {ps : List Piece} (h : trails false ps = false) (offset : Nat)
    (qs : List Piece) :
    slotsAt bytes offset (ps ++ qs) =
      slotsAt bytes offset ps ++ slotsAt bytes (offset + Text.size (spelled ps)) qs := by
  have hnone : trails (!([] : List Token).isEmpty) ps = false := h
  rw [slotsAt, tokensOf_append, slotsBehind_tokensOf hnone]
  rfl

theorem slotsAt_sign {g : Sign} (h : g.kind ≠ .comment) (offset : Nat) (ps : List Piece) :
    slotsAt bytes offset (.sign g :: ps) =
      ⟨⟨g.kind, offset, String.ofList g.text⟩, none⟩ ::
        slotsAt bytes (offset + Text.size g.text) ps := by
  have hc : Lookahead.isComment ⟨g.kind, offset, String.ofList g.text⟩ = false :=
    beq_eq_false_iff_ne.2 h
  rw [slotsAt, tokensOf, slotsBehind, if_neg (by simp [hc])]
  rfl

/-- The slots of pieces are their signs. -/
theorem map_sign_slotsAt (bytes : List UInt8) (offset : Nat) (ps : List Piece) :
    (slotsAt bytes offset ps).map Slot.sign = signsOf ps := by
  have hall : ∀ before : List Token,
      (slotsBehind bytes before (tokensOf offset ps)).map Slot.sign = signsOf ps := by
    intro before
    induction ps generalizing before offset with
    | nil => rfl
    | cons p ps ih =>
      cases p with
      | blank b => exact ih _ _
      | sign g =>
        by_cases h : g.kind = .comment
        · simp only [tokensOf, slotsBehind, Lookahead.isComment, h, beq_self_eq_true, if_true,
            signsOf_comment ps h, ih]
        · simp only [tokensOf, slotsBehind, Lookahead.isComment, beq_eq_false_iff_ne.2 h,
            Bool.false_eq_true, if_false, List.map_cons, signsOf_sign ps h, ih]
          simp [Slot.sign]
  exact hall []

end

/-! ## Comments are read as they were written -/

/-- The texts of the signs of pieces. -/
def textsOf : List Piece → List String
  | [] => []
  | .blank _ :: ps => textsOf ps
  | .sign g :: ps => String.ofList g.text :: textsOf ps

theorem map_text_tokensOf (offset : Nat) (ps : List Piece) :
    (tokensOf offset ps).map (·.text) = textsOf ps := by
  induction ps generalizing offset with
  | nil => rfl
  | cons p ps ih => cases p <;> simp [tokensOf, textsOf, ih]

namespace Comment

theorem joinTexts_cons {a b line : String} (h : linesOf a = line :: linesOf b)
    (texts : List String) : joinTexts (a :: texts) = line :: joinTexts (b :: texts) := by
  cases texts <;> simp [joinTexts, h]

/-- The tokens of the lines of a comment make the comment again, also behind a line. -/
theorem joinTexts_lines {indent tail : List Char} (hi : Margin indent) (ht : Margin tail)
    {lines : List String} (h : TidyLines lines) :
    joinTexts (String.ofList (continued indent tail lines).1 ::
        textsOf (continued indent tail lines).2) = lines ∧
      textsOf (remarks indent tail lines) ≠ [] ∧
      joinTexts (textsOf (remarks indent tail lines)) = lines := by
  have hbare : ∀ {line : String}, TidyLine line → ∀ rest : List Char,
      linesOf (String.ofList (lineText line ++ rest)) = line :: linesOf (String.ofList rest) :=
    fun hline rest => linesOf_lineText margin_nil hline rest
  induction h with
  | @last line hline =>
    have hlast := hbare hline tail
    have hmore := linesOf_lineText hi hline tail
    rw [linesOf_margin ht] at hlast hmore
    simp only [continued, remarks, if_neg hline.ne_gap, textsOf, joinTexts]
    exact ⟨hmore, by simp, hlast⟩
  | @line line lines hline _ ih =>
    simp only [continued, remarks, if_neg hline.ne_gap, textsOf]
    refine ⟨?_, by simp, ?_⟩
    · rw [joinTexts_cons (linesOf_lineText hi hline _), ih.1]
    · rw [joinTexts_cons (hbare hline _), ih.1]
  | @gap line lines hline _ ih =>
    obtain ⟨-, hne, hrest⟩ := ih
    have hjoin : ∀ a : String, linesOf a = [line] →
        joinTexts (a :: textsOf (remarks indent tail lines)) = line :: Comment.gap :: lines := by
      intro a ha
      cases hts : textsOf (remarks indent tail lines) with
      | nil => exact absurd hts hne
      | cons t ts =>
        rw [joinTexts, ha, ← hts, hrest, List.singleton_append]
        simp
    have hlast := hbare hline []
    have hmore := linesOf_lineText hi hline []
    rw [linesOf_margin margin_nil] at hlast hmore
    simp only [continued, remarks, if_neg hline.ne_gap, if_true, textsOf]
    exact ⟨hjoin _ hmore, by simp, hjoin _ hlast⟩

theorem kind_of_mem_tokensOf {indent tail : List Char} (lines : List String) (offset : Nat) :
    (∀ t ∈ tokensOf offset (continued indent tail lines).2, t.kind = .comment) ∧
      ∀ t ∈ tokensOf offset (remarks indent tail lines), t.kind = .comment := by
  induction lines generalizing offset with
  | nil => simp [continued, remarks, tokensOf]
  | cons line lines ih =>
    by_cases h : line = gap
    · simp only [continued, remarks, if_pos h, tokensOf]
      exact ⟨(ih _).2, (ih _).2⟩
    · simp only [continued, remarks, if_neg h, tokensOf, List.forall_mem_cons]
      exact ⟨(ih _).1, trivial, (ih _).1⟩

end Comment

/-- Two comments have the same lines, or there is neither. -/
def SameLines (c d : Option Comment) : Prop := c.map Comment.lines = d.map Comment.lines

/-- What stands before something is the comment of the slot behind it. -/
theorem slotsBehind_lead (bytes : List UInt8) (fresh : Bool) {c : Option Comment}
    {indent tail : List Char} (hc : Remarked c) (hi : Spaces indent) (ht : Spaces tail)
    (offset : Nat) {t : Token} (hk : t.kind ≠ .comment) (ts : List Token) :
    ∃ d, SameLines d c ∧
      slotsBehind bytes [] (tokensOf offset (lead c indent tail fresh) ++ t :: ts) =
        ⟨t, d⟩ :: slotsBehind bytes [] ts := by
  have hnext : ∀ before : List Token, slotsBehind bytes before (t :: ts) =
      ⟨t, Lookahead.foldComments bytes before⟩ :: slotsBehind bytes [] ts := by
    intro before
    rw [slotsBehind, if_neg (by simpa [Lookahead.isComment] using hk)]
  cases c with
  | none => exact ⟨none, rfl, hnext []⟩
  | some c =>
    obtain ⟨-, hne, hjoin⟩ := Comment.joinTexts_lines hi.margin ht.margin (hc c rfl)
    let o := offset + Text.size (if fresh then [] else ['\n'])
    let tokens := tokensOf o (Comment.remarks indent tail c.lines)
    refine ⟨Lookahead.foldComments bytes tokens, ?_, ?_⟩
    · have htexts : tokens.map (·.text) = textsOf (Comment.remarks indent tail c.lines) :=
        map_text_tokensOf o _
      cases htokens : tokens with
      | nil =>
        rw [htokens] at htexts
        exact absurd htexts.symm hne
      | cons u us =>
        rw [htokens] at htexts
        rw [SameLines, Lookahead.foldComments, htexts]
        exact congrArg some hjoin
    · rw [lead, tokensOf, slotsBehind_comments (Comment.kind_of_mem_tokensOf c.lines _).2, hnext]
      rfl

/-- A sign with a comment before it. -/
theorem slotsAt_lead (bytes : List UInt8) (fresh : Bool) {c : Option Comment}
    {indent tail : List Char} (hc : Remarked c) (hi : Spaces indent) (ht : Spaces tail)
    (offset : Nat) {g : Sign} (hk : g.kind ≠ .comment) (ps : List Piece) :
    let place := offset + Text.size (spelled (lead c indent tail fresh))
    ∃ d, SameLines d c ∧
      slotsAt bytes offset (lead c indent tail fresh ++ .sign g :: ps) =
        ⟨⟨g.kind, place, String.ofList g.text⟩, d⟩ ::
          slotsAt bytes (place + Text.size g.text) ps := by
  intro place
  obtain ⟨d, hd, hslots⟩ := slotsBehind_lead bytes fresh hc hi ht offset
    (t := ⟨g.kind, place, String.ofList g.text⟩) hk (tokensOf (place + Text.size g.text) ps)
  refine ⟨d, hd, ?_⟩
  rw [slotsAt, tokensOf_append]
  exact hslots

/-- No comment of a spellable tree stands at its end. -/
theorem Spellable.trails_pieces {place : Place} {n : Node} (h : Spellable place n)
    (indent : List Char) (fresh parens : Bool) :
    trails false (n.pieces indent fresh parens) = false := by
  have hquiet := h.quiets false indent fresh parens [] rfl false
  rw [List.append_nil] at hquiet
  exact trails_of_quiet hquiet

/-- No slot of a spellable tree that closes something has a comment. -/
theorem Spellable.closesBare_slotsAt {place : Place} {n : Node} (h : Spellable place n)
    (bytes : List UInt8) (offset : Nat) (indent : List Char) (fresh parens : Bool) :
    ClosesBare (slotsAt bytes offset (n.pieces indent fresh parens)) := by
  have hquiet := h.quiets false indent fresh parens [] rfl false
  rw [List.append_nil] at hquiet
  obtain ⟨ts, e, hts, -, hb, -⟩ := slotsBehind_of_quiet bytes [] offset hquiet
  have hat := tokensAt_append offset (n.pieces indent fresh parens) []
  rw [List.append_nil] at hat
  have htrails : trails (!([] : List Token).isEmpty) (n.pieces indent fresh parens) = false :=
    trails_of_quiet hquiet
  rw [hat, slotsBehind_tokensOf htrails] at hts
  obtain rfl := (List.append_inj' hts rfl).1
  exact hb

end PipelineScript
