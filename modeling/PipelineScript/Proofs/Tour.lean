import PipelineScript.Proofs.Cursor

/-!
Tours of a script.

Whatever the grammar does to the buffer is a `Tour` of the stream of tokens: each `next` goes on by
one token and each `backup` back by one, and in between the reader always stands at a place of the
stream. The steps of a parser are seen on a `Watch`, which is a reader that notes them.
-/
namespace PipelineScript

/-- A reader and what it has been through: each step with the reader behind it. -/
structure Watch where
  reader : Lookahead
  past : List (BufferStep × Lookahead)
deriving DecidableEq, Repr

instance : TokenReader Watch where
  buffer w := w.reader
  note w step s := ⟨s, w.past ++ [(step, s)]⟩

/-- A way through the tokens of `start`: the steps of the buffer from a reader at one place to a
reader at another, with the reader behind each step. -/
inductive Tour (start : Lookahead) :
    Nat → Lookahead → List (BufferStep × Lookahead) → Nat → Lookahead → Prop
  | stop {k : Nat} {s : Lookahead} (stands : Standing start k s) : Tour start k s [] k s
  | next {k k' : Nat} {s s₁ s' : Lookahead} {token : Token} {more : List (BufferStep × Lookahead)}
      (stands : Standing start k s) (gives : s.next = .ok (token, s₁))
      (is_token : start.unread k = some token) (inBounds : s₁.held < 2)
      (inSlot : (s₁.slot s₁.held).map (·.token) = some token)
      (goes : Tour start (k + 1) s₁ more k' s') :
      Tour start k s ((.next token, s₁) :: more) k' s'
  | peek {k k' : Nat} {s s₁ s' : Lookahead} {token : Token} {more : List (BufferStep × Lookahead)}
      (stands : Standing start k s) (shows : s.peek = .ok (token, s₁))
      (is_token : start.unread k = some token) (goes : Tour start k s₁ more k' s') :
      Tour start k s ((.peek token, s₁) :: more) k' s'
  | backup {k k' : Nat} {s s' : Lookahead} {more : List (BufferStep × Lookahead)}
      (stands : Standing start (k + 1) s) (goes : Tour start k s.backup more k' s') :
      Tour start (k + 1) s ((.backup, s.backup) :: more) k' s'
  | takeComment {k k' : Nat} {s s' : Lookahead} {more : List (BufferStep × Lookahead)}
      (stands : Standing start k s) (goes : Tour start k s.takeComment.2 more k' s') :
      Tour start k s ((.takeComment s.takeComment.1, s.takeComment.2) :: more) k' s'
  | takeRest {k k' : Nat} {s s' : Lookahead} {more : List (BufferStep × Lookahead)}
      (stands : Standing start k s) (goes : Tour start k s.takeRest.2 more k' s') :
      Tour start k s ((.takeRest s.takeRest.1, s.takeRest.2) :: more) k' s'
  /-- A token is asked for behind the last one that there is. -/
  | stuck {k k' : Nat} {s s' : Lookahead} {more : List (BufferStep × Lookahead)}
      (stands : Standing start k s) (none_left : start.unread k = none)
      (goes : Tour start k s more k' s') : Tour start k s ((.stuck, s) :: more) k' s'

section

variable {start : Lookahead} {k k' k'' : Nat} {s s' s'' : Lookahead}

theorem Tour.append {before after : List (BufferStep × Lookahead)}
    (h : Tour start k s before k' s') (hmore : Tour start k' s' after k'' s'') :
    Tour start k s (before ++ after) k'' s'' := by
  induction h with
  | stop => exact hmore
  | next stands gives is_token inBounds inSlot _ ih =>
    exact .next stands gives is_token inBounds inSlot (ih hmore)
  | peek stands shows is_token _ ih => exact .peek stands shows is_token (ih hmore)
  | backup stands _ ih => exact .backup stands (ih hmore)
  | takeComment stands _ ih => exact .takeComment stands (ih hmore)
  | takeRest stands _ ih => exact .takeRest stands (ih hmore)
  | stuck stands none_left _ ih => exact .stuck stands none_left (ih hmore)

/-- Behind the last token there are ends of text. -/
theorem Lookahead.unread_ne_none (h : start.ending = .ended) (i : Nat) :
    start.unread i ≠ none := by
  rw [Lookahead.unread, tokenAt]
  cases (grammarTokens start.pending)[i]? <;> simp [h]

theorem Tour.ne_stuck {past : List (BufferStep × Lookahead)}
    (h : Tour start k s past k' s') (he : start.ending = .ended) :
    ∀ entry ∈ past, entry.1 ≠ .stuck := by
  induction h with
  | stop => simp
  | next _ _ _ _ _ _ ih => exact List.forall_mem_cons.2 ⟨by simp, ih⟩
  | peek _ _ _ _ ih => exact List.forall_mem_cons.2 ⟨by simp, ih⟩
  | backup _ _ ih => exact List.forall_mem_cons.2 ⟨by simp, ih⟩
  | takeComment _ _ ih => exact List.forall_mem_cons.2 ⟨by simp, ih⟩
  | takeRest _ _ ih => exact List.forall_mem_cons.2 ⟨by simp, ih⟩
  | stuck _ none_left => exact absurd none_left (start.unread_ne_none he _)

end

end PipelineScript
