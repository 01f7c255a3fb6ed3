import PipelineScript.Parse.Parser

/-!
The buffer as a plain cursor.

A `Lookahead` shuffles two slots; what the grammar sees of it is simpler: the slot that was given
out last and the slots still to come. `Lookahead.At` says what those are, and each step of a
parser is described by what it does to them. After this module nobody opens the buffer.
-/
namespace PipelineScript

/-! ## The slots that tokens make -/

/-- The slots of a run of tokens; `before` are the comment tokens that no slot holds yet. -/
def slotsBehind (bytes : List UInt8) : List Token → List Token → List Slot
  | _, [] => []
  | before, t :: ts =>
    if Lookahead.isComment t then slotsBehind bytes (before ++ [t]) ts
    else ⟨t, Lookahead.foldComments bytes before⟩ :: slotsBehind bytes [] ts

/-- The slots of a run of tokens: every token of the grammar with the comment before it. -/
def slotsOf (bytes : List UInt8) (ts : List Token) : List Slot := slotsBehind bytes [] ts

theorem slotsBehind_eq_cons {bytes : List UInt8} {before ts : List Token} {a : Slot}
    {as : List Slot} (h : slotsBehind bytes before ts = a :: as) :
    ∃ rest, ts.dropWhile Lookahead.isComment = a.token :: rest ∧
      a.comment = Lookahead.foldComments bytes (before ++ ts.takeWhile Lookahead.isComment) ∧
      slotsOf bytes rest = as := by
  induction ts generalizing before with
  | nil => simp [slotsBehind] at h
  | cons t ts ih =>
    by_cases ht : Lookahead.isComment t = true
    · simp only [slotsBehind, ht, if_true] at h
      obtain ⟨rest, hd, hc, hr⟩ := ih h
      exact ⟨rest, by simp [ht, hd], by simp [ht, hc], hr⟩
    · simp only [slotsBehind, if_neg ht, List.cons.injEq] at h
      obtain ⟨rfl, h⟩ := h
      exact ⟨ts, by simp [ht], by simp [ht], h⟩

/-- The tokens in the slots are those that are no comments. -/
theorem map_token_slotsBehind (bytes : List UInt8) (before ts : List Token) :
    (slotsBehind bytes before ts).map (·.token) = ts.filter (fun t => !Lookahead.isComment t) := by
  induction ts generalizing before with
  | nil => rfl
  | cons t ts ih =>
    rw [slotsBehind]
    cases ht : Lookahead.isComment t <;> simp [ht, ih]

namespace Lookahead

/-- The slot that was given out last, while it can be put back. -/
def last (s : Lookahead) : Slot :=
  match s.held with
  | 0 => s.newest
  | 1 => s.older
  | _ => emptySlot

/-- The slots still to come. -/
def ahead (s : Lookahead) : List Slot :=
  match s.held with
  | 0 => slotsOf s.bytes s.pending
  | 1 => s.newest :: slotsOf s.bytes s.pending
  | _ => s.older :: s.newest :: slotsOf s.bytes s.pending

/-- Where a reader stands: behind `last` and before the slots `ahead`, in a stream that stops as
`ending` says. -/
structure At (s : Lookahead) (bytes : List UInt8) (ending : StreamEnd) (last : Slot)
    (ahead : List Slot) : Prop where
  bytes_eq : s.bytes = bytes
  ending_eq : s.ending = ending
  last_eq : s.last = last
  ahead_eq : s.ahead = ahead
  held_le : s.held ≤ 2

variable {s : Lookahead} {bytes : List UInt8} {ending : StreamEnd} {last a : Slot} {as : List Slot}

theorem fetch_of_slotsOf (h : slotsOf s.bytes s.pending = a :: as) :
    ∃ pending, s.fetch = .ok (a, pending) ∧ slotsOf s.bytes pending = as := by
  obtain ⟨rest, hd, hc, hr⟩ := slotsBehind_eq_cons h
  refine ⟨rest, ?_, hr⟩
  simp only [fetch, hd]
  rw [← List.nil_append (s.pending.takeWhile isComment), ← hc]

theorem At.next (h : s.At bytes ending last (a :: as)) :
    ∃ s', s.next = .ok (a.token, s') ∧ s'.At bytes ending a as ∧ s'.held ≤ 1 := by
  obtain ⟨hb, he, -, ha, hh⟩ := h
  subst hb he
  match hheld : s.held with
  | 0 =>
    simp only [ahead, hheld] at ha
    obtain ⟨pending, hf, hp⟩ := fetch_of_slotsOf ha
    refine ⟨{ s with pending, newest := a }, by simp [Lookahead.next, hheld, hf], ?_,
      by simp [hheld]⟩
    exact ⟨rfl, rfl, by simp [Lookahead.last, hheld], by simp [ahead, hheld, hp], by simp [hheld]⟩
  | 1 =>
    simp only [ahead, hheld, List.cons.injEq] at ha
    obtain ⟨rfl, rfl⟩ := ha
    refine ⟨{ s with held := 0 }, by simp [Lookahead.next, hheld, given], ?_, by simp⟩
    exact ⟨rfl, rfl, rfl, rfl, by simp⟩
  | 2 =>
    simp only [ahead, hheld, List.cons.injEq] at ha
    obtain ⟨rfl, rfl⟩ := ha
    refine ⟨{ s with held := 1 }, by simp [Lookahead.next, hheld, given], ?_, by simp⟩
    exact ⟨rfl, rfl, rfl, rfl, by simp⟩
  | n + 3 => omega

theorem At.peek (h : s.At bytes ending last (a :: as)) :
    ∃ s', s.peek = .ok (a.token, s') ∧ s'.At bytes ending last (a :: as) ∧
      (s.held ≤ 1 → s'.held = 1) := by
  obtain ⟨hb, he, hl, ha, hh⟩ := h
  subst hb he
  match hheld : s.held with
  | 0 =>
    simp only [ahead, hheld] at ha
    simp only [Lookahead.last, hheld] at hl
    obtain ⟨pending, hf, hp⟩ := fetch_of_slotsOf ha
    refine ⟨{ s with pending, newest := a, older := s.newest, held := 1 },
      by simp [Lookahead.peek, hheld, hf], ?_, by simp⟩
    exact ⟨rfl, rfl, by simp [Lookahead.last, hl], by simp [ahead, hp], by simp⟩
  | 1 =>
    simp only [ahead, hheld, List.cons.injEq] at ha
    obtain ⟨rfl, rfl⟩ := ha
    exact ⟨s, by simp [Lookahead.peek, hheld], ⟨rfl, rfl, hl, by simp [ahead, hheld], hh⟩,
      fun _ => hheld⟩
  | 2 =>
    simp only [ahead, hheld, List.cons.injEq] at ha
    obtain ⟨rfl, rfl⟩ := ha
    exact ⟨s, by simp [Lookahead.peek, hheld], ⟨rfl, rfl, hl, by simp [ahead, hheld], hh⟩, by simp⟩
  | n + 3 => omega

theorem At.backup (h : s.At bytes ending a as) (hh : s.held ≤ 1) :
    s.backup.At bytes ending s.backup.last (a :: as) := by
  obtain ⟨hb, he, hl, ha, -⟩ := h
  subst hb he
  refine ⟨rfl, rfl, rfl, ?_, by simp only [Lookahead.backup]; omega⟩
  match hheld : s.held with
  | 0 =>
    simp only [Lookahead.last, hheld] at hl
    simp only [ahead, hheld] at ha
    simp [ahead, Lookahead.backup, hheld, hl, ha]
  | 1 =>
    simp only [Lookahead.last, hheld] at hl
    simp only [ahead, hheld] at ha
    simp [ahead, Lookahead.backup, hheld, hl, ← ha]
  | n + 2 => omega

theorem At.takeComment (h : s.At bytes ending last as) :
    ∃ s', s.takeComment = (last.comment, s') ∧ s'.At bytes ending { last with comment := none } as ∧
      s'.held = s.held := by
  obtain ⟨hb, he, hl, ha, hh⟩ := h
  subst hb he hl ha
  match hheld : s.held with
  | 0 =>
    refine ⟨{ s with newest := { s.newest with comment := none } }, ?_,
      ⟨rfl, rfl, ?_, ?_, ?_⟩, hheld⟩ <;>
      simp [Lookahead.takeComment, Lookahead.last, ahead, hheld]
  | 1 =>
    refine ⟨{ s with older := { s.older with comment := none } }, ?_,
      ⟨rfl, rfl, ?_, ?_, ?_⟩, hheld⟩ <;>
      simp [Lookahead.takeComment, Lookahead.last, ahead, hheld]
  | 2 =>
    refine ⟨s, ?_, ⟨rfl, rfl, ?_, ?_, ?_⟩, hheld⟩ <;>
      simp [Lookahead.takeComment, Lookahead.last, ahead, hheld, emptySlot]
  | n + 3 => omega

/-- Behind the last statement the comments left in the slots are the one before the last token and
the one before the end. -/
theorem At.takeRest (h : s.At bytes ending last (a :: as)) (hh : s.held = 1) :
    s.takeRest.1 = last.comment.toList ++ a.comment.toList ∧
      s.takeRest.2.At bytes ending { last with comment := none }
        ({ a with comment := none } :: as) := by
  obtain ⟨hb, he, hl, ha, -⟩ := h
  subst hb he
  simp only [Lookahead.last, hh] at hl
  simp only [ahead, hh, List.cons.injEq] at ha
  obtain ⟨rfl, rfl⟩ := ha
  subst hl
  refine ⟨rfl, ⟨rfl, rfl, ?_, ?_, ?_⟩⟩ <;> simp [Lookahead.takeRest, Lookahead.last, ahead, hh]

end Lookahead

end PipelineScript
