import PipelineScript.Proofs.Grammar

/-!
Idle tokens.

A scanner that stands still gives an empty regex again and again. An empty regex is an operand, and
nothing can stand behind it in an operation, a list or a chain but another kind of token. So a
phrase takes at most one of the idle tokens at the end of what is ahead, and looks at one more:
`Reads.idling`.
-/
namespace PipelineScript

variable {engine : PatternEngine}

/-- The kind of a token that may be idle. -/
def TokenKind.isRegex : TokenKind → Bool
  | .regex => true
  | _ => false

/-- A token of a scanner that stands still. -/
structure Token.IsIdle (t : Token) : Prop where
  kind : t.kind = .regex
  text : t.text = ""

/-- The slots end in at least so many idle tokens. -/
def EndsIdle (n : Nat) (as : List Slot) : Prop :=
  ∃ idle, idle <:+ as ∧ n ≤ idle.length ∧ ∀ a ∈ idle, a.token.IsIdle

/-- What is left of slots that end in three idle tokens: three of them, or two and nothing else. -/
def Idling (as : List Slot) : Prop :=
  EndsIdle 3 as ∨ 2 ≤ as.length ∧ ∀ a ∈ as, a.token.IsIdle

section

variable {n : Nat} {a : Slot} {as : List Slot} {kind : TokenKind}

/-- Behind a token that is not idle the idle tokens are still ahead. -/
theorem EndsIdle.behind (h : EndsIdle n (a :: as)) (ha : a.token.kind = kind)
    (hk : kind.isRegex = false) : EndsIdle n as := by
  obtain ⟨idle, hsuffix, hlen, hidle⟩ := h
  rcases List.suffix_cons_iff.1 hsuffix with rfl | hsuffix
  · rw [← ha, (hidle a List.mem_cons_self).kind] at hk
    cases hk
  · exact ⟨idle, hsuffix, hlen, hidle⟩

theorem EndsIdle.tail (h : EndsIdle 3 (a :: as)) : Idling as := by
  obtain ⟨idle, hsuffix, hlen, hidle⟩ := h
  rcases List.suffix_cons_iff.1 hsuffix with rfl | hsuffix
  · rw [List.length_cons] at hlen
    exact .inr ⟨by omega, fun b hb => hidle b (List.mem_cons_of_mem _ hb)⟩
  · exact .inl ⟨idle, hsuffix, hlen, hidle⟩

theorem EndsIdle.length_le (h : EndsIdle n as) : n ≤ as.length := by
  obtain ⟨idle, hsuffix, hlen, -⟩ := h
  exact Nat.le_trans hlen hsuffix.length_le

theorem EndsIdle.ne_nil (h : EndsIdle 3 as) : as ≠ [] := by
  rintro rfl
  exact absurd h.length_le (by decide)

theorem Idling.behind (h : Idling (a :: as)) (ha : a.token.kind = kind)
    (hk : kind.isRegex = false) : EndsIdle 3 as := by
  rcases h with h | ⟨-, hidle⟩
  · exact h.behind ha hk
  · rw [← ha, (hidle a List.mem_cons_self).kind] at hk
    cases hk

theorem Idling.ne_nil (h : Idling as) : as ≠ [] := by
  rcases h with h | ⟨hlen, -⟩
  · exact h.ne_nil
  · rintro rfl
    exact absurd hlen (by decide)

end

/-- Where a phrase must begin so that it does not come to where the idle tokens have been cut off.
What goes on behind an operand or a name may begin behind an idle token. -/
def Phrase.Roomy (before : List Slot) : Phrase → Prop
  | .climb .. => Idling before
  | .chain .. => Idling before
  | .statements .. => False
  | _ => EndsIdle 3 before

theorem Phrase.Roomy.ne_nil {ph : Phrase} {before : List Slot} (h : ph.Roomy before) :
    before ≠ [] := by
  cases ph with
  | climb => exact Idling.ne_nil h
  | chain => exact Idling.ne_nil h
  | statements => exact h.elim
  | _ => exact EndsIdle.ne_nil h

theorem ListSort.roomy_element [PatternEngine] (sort : ListSort) (n : Node) {before : List Slot} :
    (sort.element n).Roomy before ↔ EndsIdle 3 before := by
  cases sort <;> rfl

theorem UnaryOp.isRegex_tokenKind (op : UnaryOp) : op.tokenKind.isRegex = false := by
  cases op <;> rfl

/-- **A phrase takes at most one idle token**, so behind it there are two at least. -/
theorem Reads.idling {bytes : List UInt8} {ph : Phrase} {before after : List Slot}
    {left : Option Comment} (h : Reads bytes ph before after left) (hr : ph.Roomy before) :
    Idling after := by
  induction h with
  | paren ht _ hc ih => exact .inl ((ih (hr.behind ht rfl)).behind hc rfl)
  | bracket ht _ hc ih => exact .inl ((ih (hr.behind ht rfl)).behind hc rfl)
  | number | string | bool | duration | regex | star | reference | itemName | itemString
  | itemStar => exact hr.tail
  | name ht | stepName _ ht => exact .inl (hr.behind ht rfl)
  | applied ht ho _ hc ih | function ht ho _ hc ih =>
    exact .inl ((ih ((hr.behind ht rfl).behind ho rfl)).behind hc rfl)
  | unary ht _ ih => exact ih (hr.behind ht (UnaryOp.isRegex_tokenKind _))
  | operation _ _ ihf ihn => exact ihn (ihf hr)
  | stop | chainEnd => exact hr
  | listEnd => exact .inl hr
  | join ht _ _ _ _ ihf ihr ihn => exact ihn (ihr (ihf (hr.behind ht rfl)))
  | listLast _ _ _ ih => exact ih ((ListSort.roomy_element _ _).2 hr)
  | listMore _ _ ht _ ih ihs =>
    exact ihs ((ih ((ListSort.roomy_element _ _).2 hr)).behind ht rfl)
  | lambda ht _ ih => exact ih (hr.behind ht rfl)
  | unnamed _ _ _ _ ih | named _ _ _ _ ih | express _ _ ih | stepCall _ _ ih => exact ih hr
  | chained ht _ _ ih => exact ih (.inl (hr.behind ht rfl))
  | callChained _ _ _ _ _ ihf ihn | callJoined _ _ _ _ _ ihf ihn => exact ihn (ihf hr)
  | chainStep ht _ _ ihr ihn => exact ihn (ihr (hr.behind ht rfl))
  | declare ht hi he _ ih => exact ih (((hr.behind ht rfl).behind hi rfl).behind he rfl)
  | declareType ht hi hy => exact .inl (((hr.behind ht rfl).behind hi rfl).behind hy rfl)
  | done | more => exact hr.elim

end PipelineScript
