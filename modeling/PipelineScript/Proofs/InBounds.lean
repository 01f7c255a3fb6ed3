import PipelineScript.Proofs.ByteScanner

/-!
A scanner stays in the script.

Unless a slash stands before a character of more than one byte, the scanner on bytes never comes to
a fault and does what `Scanner` does, token by token. A scanner is described by the text behind the
beginning of the token: what it has read of it (`lexeme`) and what is left (`rest`). So it is in
bounds wherever it goes back by the character that it has just read (`HasRead`). There is one lemma
for each move, which says what the move gives and where it leaves the scanner (`Gives`).
-/
namespace PipelineScript

namespace ByteScanner

/-! ### Runs without faults -/

variable {α β : Type} {s s' : ByteScanner}

/-- From this scanner a move comes to no fault, and `Q` holds of its result and of the scanner
behind it. -/
def Gives (x : Moves α) (s : ByteScanner) (Q : α → ByteScanner → Prop) : Prop :=
  ∃ a s', x s = .ok a s' ∧ Q a s'

variable {x : Moves α} {P Q : α → ByteScanner → Prop} {R : β → ByteScanner → Prop}

theorem Gives.bind {f : α → Moves β} (hx : Gives x s P)
    (hf : ∀ a s', P a s' → Gives (f a) s' R) : Gives (x >>= f) s R := by
  obtain ⟨a, s', hx, hp⟩ := hx
  obtain ⟨b, s'', hf, hr⟩ := hf a s' hp
  refine ⟨b, s'', ?_, hr⟩
  simp only [Bind.bind, EStateM.bind, hx, hf]

theorem gives_get {f : ByteScanner → Moves β} (h : Gives (f s) s R) : Gives (get >>= f) s R := h

theorem gives_set {f : PUnit → Moves β} (h : Gives (f ⟨⟩) s' R) : Gives (set s' >>= f) s R := h

theorem gives_modify {f : PUnit → Moves β} {g : ByteScanner → ByteScanner}
    (h : Gives (f ⟨⟩) (g s) R) : Gives (modify g >>= f) s R := h

theorem gives_pure {a : α} (h : Q a s) : Gives (pure a) s Q := ⟨a, s, rfl, h⟩

theorem Gives.mono (hx : Gives x s P) (h : ∀ a s', P a s' → Q a s') : Gives x s Q := by
  obtain ⟨a, s', hx, hp⟩ := hx
  exact ⟨a, s', hx, h a s' hp⟩

end ByteScanner

/-! ### Places -/

/-- The beginning of the token is not behind the place, and both are places between characters of
the script. -/
structure Head.InBounds (source : List Char) (head : Head) : Prop where
  start_le : head.start ≤ head.pos
  pos_le : head.pos ≤ Text.size source
  start : (Text.suffixAt source head.start).isSome
  pos : (Text.suffixAt source head.pos).isSome

theorem Head.inBounds_of_suffixAt {source lexeme rest : List Char} {offset width : Nat}
    (h : Text.suffixAt source offset = some (lexeme ++ rest)) :
    Head.InBounds source ⟨offset, offset + Text.size lexeme, width⟩ := by
  have hpos := Text.suffixAt_add h
  obtain ⟨before, rfl, hsize⟩ := Text.suffixAt_eq_some_iff.1 h
  refine ⟨Nat.le_add_right _ _, ?_, by rw [h]; rfl, by rw [hpos]; rfl⟩
  simp only [Text.size_append]
  omega

namespace ByteScanner

/-- A scanner in a script: the token began at an offset, the scanner has read `lexeme` since then,
and `rest` is left. It has always been in bounds. -/
structure At (source : List Char) (emitted : Option Token) (offset : Nat) (lexeme rest : List Char)
    (s : ByteScanner) : Prop where
  place : Text.suffixAt source offset = some (lexeme ++ rest)
  start_eq : s.head.start = offset
  pos_eq : s.head.pos = offset + Text.size lexeme
  emitted_eq : s.emitted = emitted
  past : ∀ head ∈ s.past, head.InBounds source

/-- A scanner that has read the next character behind `lexeme`, if there is one, and can go back by
it. -/
def HasRead (source : List Char) (emitted : Option Token) (offset : Nat)
    (lexeme rest : List Char) (s : ByteScanner) : Prop :=
  match rest with
  | [] => s.At source emitted offset lexeme [] ∧ s.head.width = 0
  | c :: cs => s.At source emitted offset (lexeme ++ [c]) cs ∧ s.head.width = c.utf8Size

section

variable {β : Type} {s : ByteScanner} {source lexeme rest cs : List Char} {emitted : Option Token}
variable {offset : Nat} {c : Char} {p : Char → Bool}

theorem At.rest_place (h : s.At source emitted offset lexeme rest) :
    Text.suffixAt source (offset + Text.size lexeme) = some rest :=
  Text.suffixAt_add h.place

theorem At.length_lt (h : s.At source emitted offset lexeme rest) : rest.length < fuel source := by
  obtain ⟨before, hsource, -⟩ := Text.suffixAt_eq_some_iff.1 h.rest_place
  rw [fuel, hsource, List.length_append]
  omega

/-- Going to another place of the script. -/
theorem At.move (h : s.At source emitted offset lexeme rest) {head : Head} {offset' : Nat}
    {lexeme' rest' : List Char} (hp : Text.suffixAt source offset' = some (lexeme' ++ rest'))
    (hs : head.start = offset') (he : head.pos = offset' + Text.size lexeme') :
    Gives (move head) s fun _ s' => s'.At source emitted offset' lexeme' rest' ∧
      s'.head.width = head.width := by
  refine ⟨(), _, rfl, ⟨hp, hs, he, h.emitted_eq, fun place hplace => ?_⟩, rfl⟩
  rcases List.mem_append.1 hplace with hplace | hplace
  · exact h.past place hplace
  · obtain rfl := List.mem_singleton.1 hplace
    have hin : Head.InBounds source ⟨offset', offset' + Text.size lexeme', place.width⟩ :=
      Head.inBounds_of_suffixAt hp
    rwa [← he, ← hs] at hin

theorem nextChar_gives (h : s.At source emitted offset lexeme rest) :
    Gives (nextChar source) s fun a s' => a = rest.head? ∧
      s'.HasRead source emitted offset lexeme rest := by
  have hplace : Text.suffixAt source s.head.pos = some rest := by rw [h.pos_eq, h.rest_place]
  refine gives_get ?_
  cases rest with
  | nil =>
    simp only [hplace]
    exact Gives.bind (h.move h.place h.start_eq h.pos_eq) fun _ s' hs' => gives_pure ⟨rfl, hs'⟩
  | cons c cs =>
    simp only [hplace]
    have hc : Text.suffixAt source offset = some ((lexeme ++ [c]) ++ cs) := by
      simpa using h.place
    refine Gives.bind (h.move hc h.start_eq ?_) fun _ s' hs' => gives_pure ⟨rfl, hs'⟩
    simp [h.pos_eq, Nat.add_assoc]

/-- What has just been read can be put back. -/
theorem backup_gives (h : s.HasRead source emitted offset lexeme rest) :
    Gives backup s fun _ s' => s'.At source emitted offset lexeme rest ∧
      s'.head.width = s.head.width := by
  refine gives_get ?_
  cases rest with
  | nil =>
    obtain ⟨hs, hw⟩ := h
    rw [if_neg (by omega)]
    exact hs.move hs.place hs.start_eq (by simp [hw, hs.pos_eq])
  | cons c cs =>
    obtain ⟨hs, hw⟩ := h
    have hpos := hs.pos_eq
    simp only [Text.size_append, Text.size_cons, Text.size_nil] at hpos
    rw [if_neg (by omega)]
    have hplace : Text.suffixAt source offset = some (lexeme ++ c :: cs) := by
      simpa using hs.place
    exact hs.move hplace hs.start_eq (by simp only; omega)

/-- The width that stays behind a look at the next character. -/
def nextWidth (rest : List Char) : Nat := (rest.head?.map Char.utf8Size).getD 0

theorem HasRead.width_eq (h : s.HasRead source emitted offset lexeme rest) :
    s.head.width = nextWidth rest := by
  cases rest <;> exact h.2

theorem peek_gives (h : s.At source emitted offset lexeme rest) :
    Gives (peek source) s fun a s' => a = rest.head? ∧
      s'.At source emitted offset lexeme rest ∧ s'.head.width = nextWidth rest := by
  refine (nextChar_gives h).bind ?_
  rintro _ s₁ ⟨rfl, h₁⟩
  refine (backup_gives h₁).bind ?_
  rintro _ s₂ ⟨h₂, hw⟩
  exact gives_pure ⟨rfl, h₂, hw.trans h₁.width_eq⟩

theorem nextChar_cons (h : s.At source emitted offset lexeme (c :: cs)) :
    Gives (nextChar source) s fun a s' => a = some c ∧
      s'.At source emitted offset (lexeme ++ [c]) cs ∧ s'.head.width = c.utf8Size :=
  nextChar_gives h

theorem gives_current (h : s.At source emitted offset lexeme rest) {f : List Char → Moves β}
    {R : β → ByteScanner → Prop} (hf : Gives (f lexeme) s R) :
    Gives (current source >>= f) s R := by
  have hslice := Text.slice?_of_suffixAt h.place
  rw [current, bind_assoc]
  refine gives_get ?_
  simp only [h.start_eq, h.pos_eq, hslice, pure_bind]
  exact hf

theorem ignore_gives (h : s.At source emitted offset lexeme rest) :
    Gives ignore s fun _ s' => s'.At source emitted (offset + Text.size lexeme) [] rest ∧
      s'.head.width = s.head.width := by
  refine gives_get ?_
  exact h.move h.rest_place h.pos_eq (by simp [h.pos_eq])

theorem emit_gives (kind : TokenKind) (h : s.At source emitted offset lexeme rest) :
    Gives (emit source kind) s fun _ s' =>
      s'.At source (some ⟨kind, offset, String.ofList lexeme⟩) (offset + Text.size lexeme) []
        rest := by
  refine gives_current h ?_
  refine gives_get ?_
  have hmodify : Gives (modify fun s' => { s' with
      emitted := some ⟨kind, s.head.start, String.ofList lexeme⟩ }) s fun _ s' =>
      s'.At source (some ⟨kind, offset, String.ofList lexeme⟩) offset lexeme rest :=
    ⟨(), _, rfl, h.place, h.start_eq, h.pos_eq, by simp [h.start_eq], h.past⟩
  refine hmodify.bind fun _ s₁ h₁ => ?_
  exact (ignore_gives h₁).mono fun _ _ h₂ => h₂.1

theorem error_gives (message : String) (h : s.At source emitted offset lexeme rest) :
    Gives (error message) s fun a s' => a = none ∧
      s'.At source (some ⟨.error, offset, message⟩) offset lexeme rest := by
  refine gives_get ?_
  exact ⟨none, _, rfl, rfl, h.place, h.start_eq, h.pos_eq, by simp [h.start_eq], h.past⟩

/-! ### Runs of characters -/

theorem accept_taken (h : s.At source emitted offset lexeme (c :: cs)) (hp : p c = true) :
    Gives (accept source p) s fun _ s' => s'.At source emitted offset (lexeme ++ [c]) cs := by
  refine (peek_gives h).bind ?_
  rintro _ s₁ ⟨rfl, h₁, -⟩
  simp only [List.head?_cons, Option.any_some, hp, if_true]
  refine (nextChar_cons h₁).bind ?_
  rintro _ s₂ ⟨rfl, h₂, -⟩
  exact gives_pure h₂

theorem accept_left (h : s.At source emitted offset lexeme rest) (hp : rest.head?.any p = false) :
    Gives (accept source p) s fun _ s' => s'.At source emitted offset lexeme rest := by
  refine (peek_gives h).bind ?_
  rintro _ s₁ ⟨rfl, h₁, -⟩
  simp only [hp, Bool.false_eq_true, if_false]
  exact gives_pure h₁

theorem skip_gives {n : Nat} (h : s.At source emitted offset lexeme rest) (hn : rest.length < n) :
    Gives (skip source p n) s fun a s' => a = (rest.dropWhile p).head? ∧
      s'.HasRead source emitted offset (lexeme ++ rest.takeWhile p) (rest.dropWhile p) := by
  induction n generalizing s lexeme rest with
  | zero => omega
  | succ n ih =>
    rw [skip]
    refine (nextChar_gives h).bind ?_
    rintro _ s₁ ⟨rfl, h₁⟩
    cases rest with
    | nil => exact gives_pure ⟨rfl, by simpa using h₁⟩
    | cons c cs =>
      simp only [List.head?_cons, Option.any_some]
      by_cases hp : p c = true
      · simp only [hp, if_true, List.takeWhile_cons, List.dropWhile_cons]
        have hs := ih h₁.1 (by simpa using hn)
        simpa using hs
      · simp only [hp, Bool.false_eq_true, if_false, List.takeWhile_cons, List.dropWhile_cons]
        exact gives_pure ⟨rfl, by simpa using h₁⟩

theorem ignoreSpaces_gives {n : Nat} (h : s.At source emitted offset [] rest)
    (hn : rest.length < n) :
    Gives (ignoreSpaces source n) s fun _ s' =>
      s'.HasRead source emitted (offset + Text.size (Lexeme.blank rest).1) []
        (Lexeme.blank rest).2 := by
  induction n generalizing s offset rest with
  | zero => omega
  | succ n ih =>
    rw [ignoreSpaces]
    refine (nextChar_gives h).bind ?_
    rintro _ s₁ ⟨rfl, h₁⟩
    cases rest with
    | nil => exact gives_pure (by simpa [Lexeme.blank] using h₁)
    | cons c cs =>
      simp only [List.head?_cons, Option.any_some]
      by_cases hp : Text.isSpace c = true
      · simp only [hp, if_true]
        refine (ignore_gives h₁.1).bind fun _ s₂ h₂ => ?_
        have hs := ih h₂.1 (by simpa using hn)
        simpa [Lexeme.blank, hp, Nat.add_assoc] using hs
      · simp only [hp, Bool.false_eq_true, if_false]
        exact gives_pure (by simpa [Lexeme.blank, hp] using h₁)

theorem ignoreSpace_gives (h : s.At source emitted offset [] rest) :
    Gives (ignoreSpace source) s fun _ s' =>
      s'.At source emitted (offset + Text.size (Lexeme.blank rest).1) []
        (Lexeme.blank rest).2 := by
  refine (ignoreSpaces_gives h h.length_lt).bind fun _ s₁ h₁ => ?_
  exact (backup_gives h₁).mono fun _ _ h₂ => h₂.1

end

end ByteScanner

end PipelineScript
