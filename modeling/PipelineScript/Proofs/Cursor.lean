import PipelineScript.Proofs.Agreement

/-!
A reader anywhere in a script.

`Lookahead.At` describes a reader by the slots that the script has left. Here a reader may also have
given out the end of the text, again and again, or have stopped where a call failed. Its place is a
number: how many tokens of the stream are given out and not put back (`Standing`). `Tracks` carries
this through each step of the buffer, and `Retains` says when a token may be put back: behind
`next`, and as long as the reader only looks ahead after that.
-/
namespace PipelineScript

/-! ### The stream of slots -/

/-- What stands behind the last token. -/
def endOfText (bytes : List UInt8) : Token := ⟨.eof, bytes.length, ""⟩

/-- The slot at a place of the stream: the token with the comment that the comment tokens right
before it make. `before` are comment tokens in front of the others. -/
def slotAt (bytes : List UInt8) (ending : StreamEnd) : List Token → List Token → Nat → Option Slot
  | before, [], i =>
    if ending = .ended then
      some ⟨endOfText bytes, if i = 0 then Lookahead.foldComments bytes before else none⟩
    else none
  | before, t :: ts, i =>
    if Lookahead.isComment t then slotAt bytes ending (before ++ [t]) ts i
    else
      match i with
      | 0 => some ⟨t, Lookahead.foldComments bytes before⟩
      | i + 1 => slotAt bytes ending [] ts i

section

variable {bytes : List UInt8} {ending : StreamEnd} {t : Token}

theorem slotAt_comment (ht : Lookahead.isComment t = true) (before ts : List Token) (i : Nat) :
    slotAt bytes ending before (t :: ts) i = slotAt bytes ending (before ++ [t]) ts i := by
  cases i <;> rw [slotAt, if_pos ht]

theorem slotAt_zero (ht : ¬ Lookahead.isComment t = true) (before ts : List Token) :
    slotAt bytes ending before (t :: ts) 0 = some ⟨t, Lookahead.foldComments bytes before⟩ := by
  rw [slotAt, if_neg ht]

theorem slotAt_succ (ht : ¬ Lookahead.isComment t = true) (before ts : List Token) (i : Nat) :
    slotAt bytes ending before (t :: ts) (i + 1) = slotAt bytes ending [] ts i := by
  rw [slotAt, if_neg ht]

end

/-- The token at a place of the stream: the tokens that reach the grammar, then ends of text. -/
def tokenAt (bytes : List UInt8) (ending : StreamEnd) (ts : List Token) (i : Nat) : Option Token :=
  match (grammarTokens ts)[i]? with
  | some t => some t
  | none => if ending = .ended then some (endOfText bytes) else none

/-- The slots hold the tokens that reach the grammar. -/
theorem map_token_slotAt (bytes : List UInt8) (ending : StreamEnd) (before ts : List Token)
    (i : Nat) : (slotAt bytes ending before ts i).map (·.token) = tokenAt bytes ending ts i := by
  induction ts generalizing before i with
  | nil => by_cases h : ending = .ended <;> simp [slotAt, tokenAt, grammarTokens, h]
  | cons t ts ih =>
    by_cases ht : Lookahead.isComment t = true
    · have hskip : grammarTokens (t :: ts) = grammarTokens ts := by simp [grammarTokens, ht]
      rw [slotAt_comment ht, ih, tokenAt, tokenAt, hskip]
    · have htake : grammarTokens (t :: ts) = t :: grammarTokens ts := by simp [grammarTokens, ht]
      rw [tokenAt, htake]
      cases i with
      | zero =>
        rw [slotAt_zero ht]
        rfl
      | succ i =>
        rw [slotAt_succ ht]
        exact ih [] i

theorem slotAt_comments {bytes : List UInt8} {ending : StreamEnd} {before comments ts : List Token}
    (h : ∀ t ∈ comments, Lookahead.isComment t = true) (i : Nat) :
    slotAt bytes ending before (comments ++ ts) i =
      slotAt bytes ending (before ++ comments) ts i := by
  induction comments generalizing before with
  | nil => simp
  | cons t comments ih =>
    rw [List.forall_mem_cons] at h
    rw [List.cons_append, slotAt_comment h.1, ih h.2, List.append_assoc, List.singleton_append]

namespace Lookahead

/-- The slots that are still to be filled. -/
def future (s : Lookahead) (i : Nat) : Option Slot := slotAt s.bytes s.ending [] s.pending i

/-- The tokens that no slot holds yet. -/
def unread (s : Lookahead) (i : Nat) : Option Token := tokenAt s.bytes s.ending s.pending i

/-- The slots of the buffer by their numbers. -/
def slot (s : Lookahead) : Nat → Option Slot
  | 0 => some s.newest
  | 1 => some s.older
  | _ => none

/-- The tokens that are still to be given out: those in the slots, and those behind them. -/
def upcoming (s : Lookahead) (i : Nat) : Option Token :=
  if i < s.held then (s.slot (s.held - 1 - i)).map (·.token)
  else s.unread (i - s.held)

variable {s s' : Lookahead}

/-- What is fetched is the next slot of the stream, and the others move up. -/
theorem fetch_cases (s : Lookahead) :
    (∃ slot pending, s.fetch = .ok (slot, pending) ∧ s.future 0 = some slot ∧
      ∀ i, { s with pending }.future i = s.future (i + 1)) ∨
    (∃ e, s.fetch = .error e ∧ s.future 0 = none) := by
  have hsplit : s.pending =
      s.pending.takeWhile isComment ++ s.pending.dropWhile isComment :=
    (List.takeWhile_append_dropWhile ..).symm
  have hcomments : ∀ t ∈ s.pending.takeWhile isComment, isComment t = true :=
    fun t ht => List.mem_takeWhile_imp ht
  have hfuture (i : Nat) : s.future i =
      slotAt s.bytes s.ending (s.pending.takeWhile isComment)
        (s.pending.dropWhile isComment) i := by
    rw [future, hsplit, slotAt_comments hcomments, List.nil_append, ← hsplit]
  cases hd : s.pending.dropWhile isComment with
  | cons t rest =>
    have ht : ¬ isComment t = true := by
      have := List.head?_dropWhile_not isComment s.pending
      simpa [hd] using this
    refine .inl ⟨⟨t, foldComments s.bytes (s.pending.takeWhile isComment)⟩, rest, ?_, ?_,
      fun i => ?_⟩
    · simp only [fetch, hd]
    · rw [hfuture, hd, slotAt_zero ht]
    · rw [hfuture, hd, slotAt_succ ht, future]
  | nil =>
    by_cases he : s.ending = .ended
    · refine .inl ⟨⟨endOfText s.bytes, foldComments s.bytes (s.pending.takeWhile isComment)⟩, [],
        ?_, ?_, fun i => ?_⟩
      · simp only [fetch, hd, he, endOfText]
      · rw [hfuture, hd, slotAt, if_pos he, if_pos rfl]
      · rw [hfuture, hd, slotAt, if_pos he, if_neg (Nat.succ_ne_zero i), future, slotAt,
          if_pos he]
        simp [foldComments]
    · refine .inr ⟨s.ending, fetch_of_not_ended hd he, ?_⟩
      rw [hfuture, hd, slotAt, if_neg he]

end Lookahead

/-! ### A reader at a place -/

/-- A reader at place `k` of the tokens that a first one has not read yet: these are the tokens that
it is still to give out, and a comment that is left in one of its slots is the one that stands
before that token. -/
structure Standing (start : Lookahead) (k : Nat) (s : Lookahead) : Prop where
  held_le : s.held ≤ 2
  upcoming : ∀ i, s.upcoming i = start.unread (k + i)
  comments : ∀ i < s.held, ∃ a b, s.slot i = some a ∧
    start.future (k + (s.held - 1 - i)) = some b ∧ (a.comment = none ∨ a.comment = b.comment)

/-- A slot of the buffer holds a slot of the stream, or what is left of it when the comment was
taken. -/
def Slot.Shows (a : Slot) (b : Option Slot) : Prop :=
  ∃ c, b = some c ∧ a.token = c.token ∧ (a.comment = none ∨ a.comment = c.comment)

namespace Lookahead

/-- The slots that are still to be given out hold the stream from place `k` on. -/
def Holds (s : Lookahead) (stream : Nat → Option Slot) (k : Nat) : Prop :=
  match s.held with
  | 0 => True
  | 1 => s.newest.Shows (stream k)
  | 2 => s.older.Shows (stream k) ∧ s.newest.Shows (stream (k + 1))
  | _ => False

end Lookahead

/-- A reader at a place, with the slots that are still to be filled. -/
structure Tracks (start : Lookahead) (k : Nat) (s : Lookahead) : Prop where
  holds : s.Holds start.future k
  future : ∀ i, s.future i = start.future (k + s.held + i)

/-- The token that was given out last can be put back. -/
def Retains (start : Lookahead) (k : Nat) (s : Lookahead) : Prop :=
  ∃ j, k = j + 1 ∧ Tracks start (j + 1) s ∧ Tracks start j s.backup

section

open Lookahead

variable {start s s' : Lookahead} {k : Nat} {token : Token}

theorem Slot.Shows.token_eq {a : Slot} {b : Option Slot} (h : a.Shows b) :
    b.map (·.token) = some a.token := by
  obtain ⟨c, rfl, ht, -⟩ := h
  rw [Option.map_some, ht]

theorem Slot.Shows.withoutComment {a : Slot} {b : Option Slot} (h : a.Shows b) :
    Slot.Shows { a with comment := none } b := by
  obtain ⟨c, rfl, ht, -⟩ := h
  exact ⟨c, rfl, ht, .inl rfl⟩

theorem Slot.shows_self {a : Slot} {b : Option Slot} (h : b = some a) : a.Shows b :=
  ⟨a, h, rfl, .inr rfl⟩

theorem map_token_future (s : Lookahead) (i : Nat) :
    (s.future i).map (·.token) = s.unread i := map_token_slotAt ..

theorem Tracks.standing (h : Tracks start k s) : Standing start k s := by
  have hrest (i : Nat) (hi : s.held ≤ i) : s.upcoming i = start.unread (k + i) := by
    have hplace : k + s.held + (i - s.held) = k + i := by omega
    rw [upcoming, if_neg (by omega), ← map_token_future, ← map_token_future, h.future, hplace]
  have hh := h.holds
  rw [Holds] at hh
  match hheld : s.held with
  | 0 =>
    refine ⟨by omega, fun i => hrest i (by omega), fun i hi => ?_⟩
    omega
  | 1 =>
    simp only [hheld] at hh
    refine ⟨by omega, fun i => ?_, fun i hi => ?_⟩
    · match i with
      | 0 =>
        rw [← map_token_future, Nat.add_zero, hh.token_eq]
        simp [upcoming, hheld, slot]
      | i + 1 => exact hrest (i + 1) (by omega)
    · obtain rfl : i = 0 := by omega
      obtain ⟨c, hc, -, hcomment⟩ := hh
      exact ⟨s.newest, c, rfl, by simpa [hheld] using hc, hcomment⟩
  | 2 =>
    simp only [hheld] at hh
    refine ⟨by omega, fun i => ?_, fun i hi => ?_⟩
    · match i with
      | 0 =>
        rw [← map_token_future, Nat.add_zero, hh.1.token_eq]
        simp [upcoming, hheld, slot]
      | 1 =>
        rw [← map_token_future, hh.2.token_eq]
        simp [upcoming, hheld, slot]
      | i + 2 => exact hrest (i + 2) (by omega)
    · match i with
      | 0 =>
        obtain ⟨c, hc, -, hcomment⟩ := hh.2
        exact ⟨s.newest, c, rfl, by simpa [hheld] using hc, hcomment⟩
      | 1 =>
        obtain ⟨c, hc, -, hcomment⟩ := hh.1
        exact ⟨s.older, c, rfl, by simpa [hheld] using hc, hcomment⟩
      | i + 2 => omega
  | n + 3 => simp [hheld] at hh

theorem tracks_start (h : start.held = 0) : Tracks start 0 start :=
  ⟨by simp [Holds, h], fun i => by simp [h]⟩

theorem Retains.tracks (h : Retains start k s) : Tracks start k s := by
  obtain ⟨j, rfl, hf, -⟩ := h
  exact hf

/-! ### The steps of the buffer -/

/-- With no slot held, what is fetched is the next slot of the stream, and the others follow. -/
theorem Tracks.fetch (h : Tracks start k s) (hheld : s.held = 0) :
    (∃ a pending, s.fetch = .ok (a, pending) ∧ start.future k = some a ∧
      ∀ i, { s with pending }.future i = start.future (k + 1 + i)) ∨
    (∃ e, s.fetch = .error e ∧ start.future k = none) := by
  have hf (i : Nat) : s.future i = start.future (k + i) := by rw [h.future, hheld, Nat.add_zero]
  rcases s.fetch_cases with ⟨a, pending, hfetch, ha, hmore⟩ | ⟨e, hfetch, hnone⟩
  · refine .inl ⟨a, pending, hfetch, (hf 0).symm.trans ha, fun i => ?_⟩
    rw [hmore, hf, Nat.add_right_comm, Nat.add_assoc]
  · exact .inr ⟨e, hfetch, (hf 0).symm.trans hnone⟩

/-- A token is given out: the place goes on by one, and the token may be put back. -/
theorem Tracks.next (h : Tracks start k s) (hs : s.next = .ok (token, s')) :
    Tracks start (k + 1) s' ∧ Tracks start k s'.backup ∧ s'.held < 2 ∧
      (s'.slot s'.held).map (·.token) = some token ∧ start.unread k = some token := by
  have hfetched := h.fetch
  obtain ⟨hh, hf⟩ := h
  rw [Holds] at hh
  rw [← map_token_future]
  match hheld : s.held with
  | 0 =>
    simp only [Lookahead.next, hheld] at hs
    rcases hfetched hheld with ⟨a, pending, hfetch, hk, hahead⟩ | ⟨e, hfetch, -⟩
    · simp only [hfetch, Except.ok.injEq, Prod.mk.injEq] at hs
      obtain ⟨rfl, rfl⟩ := hs
      refine ⟨⟨by simp [Holds], hahead⟩, ⟨?_, hahead⟩, by simp, by simp [slot], by simp [hk]⟩
      simpa [Holds, Lookahead.backup] using Slot.shows_self hk
    · simp [hfetch] at hs
  | 1 =>
    simp only [Lookahead.next, hheld, given, Except.ok.injEq, Prod.mk.injEq] at hs
    obtain ⟨rfl, rfl⟩ := hs
    simp only [hheld] at hh hf
    refine ⟨⟨by simp [Holds], fun i => hf i⟩, ⟨?_, fun i => hf i⟩, by simp,
      by simp [slot], hh.token_eq⟩
    simpa [Holds, Lookahead.backup] using hh
  | 2 =>
    simp only [Lookahead.next, hheld, given, Except.ok.injEq, Prod.mk.injEq] at hs
    obtain ⟨rfl, rfl⟩ := hs
    simp only [hheld] at hh hf
    refine ⟨⟨by simpa [Holds] using hh.2, fun i => hf i⟩, ⟨?_, fun i => hf i⟩, by simp,
      by simp [slot], hh.1.token_eq⟩
    simpa [Holds, Lookahead.backup] using hh
  | n + 3 => simp [hheld] at hh

/-- No token is given out only where there is none. -/
theorem Tracks.next_error {e : StreamEnd} (h : Tracks start k s) (hs : s.next = .error e) :
    start.unread k = none := by
  rw [← map_token_future, Option.map_eq_none_iff]
  match hheld : s.held with
  | 0 =>
    simp only [Lookahead.next, hheld] at hs
    rcases h.fetch hheld with ⟨a, pending, hfetch, -, -⟩ | ⟨e, hfetch, hnone⟩
    · simp [hfetch] at hs
    · exact hnone
  | n + 1 => simp [Lookahead.next, hheld] at hs

theorem Tracks.peek_error {e : StreamEnd} (h : Tracks start k s) (hs : s.peek = .error e) :
    start.unread k = none := by
  match hheld : s.held with
  | 0 =>
    have hn : s.next = .error e := by
      simp only [Lookahead.peek, hheld] at hs
      simp only [Lookahead.next, hheld]
      cases hf : s.fetch with
      | ok r => simp [hf] at hs
      | error f => simpa [hf] using hs
    exact h.next_error hn
  | 1 => simp [Lookahead.peek, hheld] at hs
  | n + 2 => simp [Lookahead.peek, hheld] at hs

/-- A token is shown: the place stays. -/
theorem Tracks.peek (h : Tracks start k s) (hs : s.peek = .ok (token, s')) :
    Tracks start k s' ∧ start.unread k = some token := by
  have hfetched := h.fetch
  obtain ⟨hh, hf⟩ := h
  rw [Holds] at hh
  rw [← map_token_future]
  match hheld : s.held with
  | 0 =>
    simp only [Lookahead.peek, hheld] at hs
    rcases hfetched hheld with ⟨a, pending, hfetch, hk, hahead⟩ | ⟨e, hfetch, -⟩
    · simp only [hfetch, Except.ok.injEq, Prod.mk.injEq] at hs
      obtain ⟨rfl, rfl⟩ := hs
      exact ⟨⟨by simpa [Holds] using Slot.shows_self hk, hahead⟩, by simp [hk]⟩
    · simp [hfetch] at hs
  | 1 =>
    simp only [Lookahead.peek, hheld, Except.ok.injEq, Prod.mk.injEq] at hs
    obtain ⟨rfl, rfl⟩ := hs
    have hshows : s.newest.Shows (start.future k) := by simpa [hheld] using hh
    exact ⟨⟨by simpa [Holds, hheld] using hshows, hf⟩, hshows.token_eq⟩
  | 2 =>
    simp only [Lookahead.peek, hheld, Except.ok.injEq, Prod.mk.injEq] at hs
    obtain ⟨rfl, rfl⟩ := hs
    simp only [hheld] at hh
    exact ⟨⟨by simpa [Holds, hheld] using hh, hf⟩, hh.1.token_eq⟩
  | n + 3 => simp [hheld] at hh

/-- The two readers differ in comments that the second one has no longer. -/
structure Lookahead.Fades (s s' : Lookahead) : Prop where
  bytes_eq : s'.bytes = s.bytes
  pending_eq : s'.pending = s.pending
  ending_eq : s'.ending = s.ending
  held_eq : s'.held = s.held
  newest : ∀ b, s.newest.Shows b → s'.newest.Shows b
  older : ∀ b, s.older.Shows b → s'.older.Shows b

theorem Lookahead.Fades.tracks (h : s.Fades s') (hs : Tracks start k s) : Tracks start k s' := by
  obtain ⟨hh, hf⟩ := hs
  rw [Holds] at hh
  refine ⟨?_, fun i => ?_⟩
  · rw [Holds, h.held_eq]
    match hheld : s.held with
    | 0 => trivial
    | 1 =>
      simp only [hheld] at hh
      exact h.newest _ hh
    | 2 =>
      simp only [hheld] at hh
      exact ⟨h.older _ hh.1, h.newest _ hh.2⟩
    | n + 3 => simp [hheld] at hh
  · rw [h.held_eq, ← hf i, future, future, h.bytes_eq, h.pending_eq, h.ending_eq]

theorem Lookahead.fades_takeComment (s : Lookahead) : s.Fades s.takeComment.2 := by
  rw [takeComment]
  split
  · exact ⟨rfl, rfl, rfl, rfl, fun _ h => h.withoutComment, fun _ h => h⟩
  · exact ⟨rfl, rfl, rfl, rfl, fun _ h => h, fun _ h => h.withoutComment⟩
  · exact ⟨rfl, rfl, rfl, rfl, fun _ h => h, fun _ h => h⟩

theorem Lookahead.fades_takeRest (s : Lookahead) : s.Fades s.takeRest.2 :=
  ⟨rfl, rfl, rfl, rfl, fun _ h => h.withoutComment, fun _ h => h.withoutComment⟩

/-- Looking ahead does not lose the token that can be put back. -/
theorem Retains.peek (h : Retains start k s) (hs : s.peek = .ok (token, s')) :
    Retains start k s' := by
  obtain ⟨j, rfl, hf, hb⟩ := h
  refine ⟨j, rfl, (hf.peek hs).1, ?_⟩
  have hh := hb.holds
  rw [Holds] at hh
  match hheld : s.held with
  | 0 =>
    -- the token given out last moves to the older slot
    simp only [Lookahead.backup, hheld] at hh
    simp only [Lookahead.peek, hheld] at hs
    rcases hf.fetch hheld with ⟨a, pending, hfetch, hk, hahead⟩ | ⟨e, hfetch, -⟩
    · simp only [hfetch, Except.ok.injEq, Prod.mk.injEq] at hs
      obtain ⟨rfl, rfl⟩ := hs
      exact ⟨by simpa [Holds, Lookahead.backup] using ⟨hh, Slot.shows_self hk⟩, hahead⟩
    · simp [hfetch] at hs
  | 1 =>
    simp only [Lookahead.peek, hheld, Except.ok.injEq, Prod.mk.injEq] at hs
    obtain ⟨rfl, rfl⟩ := hs
    exact hb
  | n + 2 => simp [Lookahead.backup, hheld] at hh

end

end PipelineScript
