/-!
Text measured in bytes.

Offsets into a script count the bytes of its UTF-8 form, while the text itself is a list of
characters. This module relates the two: the size and bytes of a text, the part of a text that
stands at an offset, and the text that a run of bytes stands for when it may begin or end inside
a character.
-/
namespace PipelineScript.Text

/-- The number of bytes that a text takes. -/
def size : List Char → Nat
  | [] => 0
  | c :: cs => c.utf8Size + size cs

/-- The bytes of a text. -/
def bytes (cs : List Char) : List UInt8 :=
  cs.flatMap String.utf8EncodeChar

@[simp] theorem size_nil : size [] = 0 := rfl

@[simp] theorem size_cons (c : Char) (cs : List Char) :
    size (c :: cs) = c.utf8Size + size cs := rfl

@[simp] theorem size_append (xs ys : List Char) : size (xs ++ ys) = size xs + size ys := by
  induction xs with
  | nil => simp
  | cons c cs ih => simp [ih, Nat.add_assoc]

theorem size_pos {cs : List Char} (h : cs ≠ []) : 0 < size cs := by
  obtain ⟨c, ds, rfl⟩ := List.exists_cons_of_ne_nil h
  exact Nat.add_pos_left c.utf8Size_pos _

theorem length_bytes (cs : List Char) : (bytes cs).length = size cs := by
  induction cs with
  | nil => rfl
  | cons c cs ih => simpa [bytes, String.length_utf8EncodeChar] using ih

/-- The rest of the text from a byte offset on, or `none` if the offset is past the end or inside
a character. -/
def suffixAt : List Char → Nat → Option (List Char)
  | cs, 0 => some cs
  | [], _ + 1 => none
  | c :: cs, n + 1 => if c.utf8Size ≤ n + 1 then suffixAt cs (n + 1 - c.utf8Size) else none

/-- A place behind the first character is a place in what follows it. -/
theorem suffixAt_cons_add (c : Char) (cs : List Char) (n : Nat) :
    suffixAt (c :: cs) (c.utf8Size + n) = suffixAt cs n := by
  have hpos := c.utf8Size_pos
  obtain ⟨m, hm⟩ : ∃ m, c.utf8Size + n = m + 1 := ⟨c.utf8Size + n - 1, by omega⟩
  have hrest : m + 1 - c.utf8Size = n := by omega
  rw [hm, suffixAt, if_pos (by omega), hrest]

/-- What stands at an offset behind a beginning stands at that offset in what follows it. -/
theorem suffixAt_behind (start text : List Char) (offset : Nat) :
    suffixAt (start ++ text) (size start + offset) = suffixAt text offset := by
  induction start with
  | nil => simp
  | cons c cs ih => rw [List.cons_append, size_cons, Nat.add_assoc, suffixAt_cons_add, ih]

theorem suffixAt_size_append (xs ys : List Char) : suffixAt (xs ++ ys) (size xs) = some ys := by
  have h := suffixAt_behind xs ys 0
  cases ys <;> exact h

/-- The first `n` bytes of a text as characters, or `none` if it is shorter or has a character
across that bound. -/
def takeBytes? : List Char → Nat → Option (List Char)
  | _, 0 => some []
  | [], _ + 1 => none
  | c :: cs, n + 1 =>
    if c.utf8Size ≤ n + 1 then (takeBytes? cs (n + 1 - c.utf8Size)).map (c :: ·) else none

theorem takeBytes?_cons_add (c : Char) (cs : List Char) (n : Nat) :
    takeBytes? (c :: cs) (c.utf8Size + n) = (takeBytes? cs n).map (c :: ·) := by
  have hpos := c.utf8Size_pos
  obtain ⟨m, hm⟩ : ∃ m, c.utf8Size + n = m + 1 := ⟨c.utf8Size + n - 1, by omega⟩
  have hrest : m + 1 - c.utf8Size = n := by omega
  rw [hm, takeBytes?, if_pos (by omega), hrest]

theorem takeBytes?_size_append (xs ys : List Char) : takeBytes? (xs ++ ys) (size xs) = some xs := by
  induction xs with
  | nil => cases ys <;> rfl
  | cons c cs ih => rw [List.cons_append, size_cons, takeBytes?_cons_add, ih, Option.map_some]

/-- The mark that stands for bytes that form no character. -/
def replacement : Char := '\uFFFD'

/-- A byte of the form that continues a character. -/
def isTail (b : UInt8) : Bool := 0x80 ≤ b && b ≤ 0xBF

/-- Whether `second` may follow the first byte of a three-byte character. -/
def opensThree (first second : UInt8) : Bool :=
  if first == 0xE0 then 0xA0 ≤ second && second ≤ 0xBF
  else if first == 0xED then 0x80 ≤ second && second ≤ 0x9F
  else isTail second

/-- Whether `second` may follow the first byte of a four-byte character. -/
def opensFour (first second : UInt8) : Bool :=
  if first == 0xF0 then 0x90 ≤ second && second ≤ 0xBF
  else if first == 0xF4 then 0x80 ≤ second && second ≤ 0x8F
  else isTail second

/-- The low bits that a continuing byte carries. -/
def tailBits (b : UInt8) : Nat := b.toNat % 64

/-- The character that stands for the first bytes, the first of them `a`, and how many bytes that
is. Bytes that begin a character and do not complete it stand together for one `replacement`. -/
def decodeFirst (a : UInt8) (rest : List UInt8) : Char × Nat :=
  if a < 0x80 then (Char.ofNat a.toNat, 1)
  else if 0xC2 ≤ a && a ≤ 0xDF then
    match rest with
    | b :: _ =>
      if isTail b then (Char.ofNat (a.toNat % 32 * 64 + tailBits b), 2) else (replacement, 1)
    | [] => (replacement, 1)
  else if 0xE0 ≤ a && a ≤ 0xEF then
    match rest with
    | b :: c :: _ =>
      if !opensThree a b then (replacement, 1)
      else if !isTail c then (replacement, 2)
      else (Char.ofNat ((a.toNat % 16 * 64 + tailBits b) * 64 + tailBits c), 3)
    | [b] => (replacement, if opensThree a b then 2 else 1)
    | [] => (replacement, 1)
  else if 0xF0 ≤ a && a ≤ 0xF4 then
    match rest with
    | b :: c :: d :: _ =>
      if !opensFour a b then (replacement, 1)
      else if !isTail c then (replacement, 2)
      else if !isTail d then (replacement, 3)
      else
        (Char.ofNat (((a.toNat % 8 * 64 + tailBits b) * 64 + tailBits c) * 64 + tailBits d), 4)
    | [b, c] =>
      (replacement, if !opensFour a b then 1 else if !isTail c then 2 else 3)
    | [b] => (replacement, if opensFour a b then 2 else 1)
    | [] => (replacement, 1)
  else (replacement, 1)

/-- Reads at most `fuel` characters from bytes. -/
def decodeUpTo : Nat → List UInt8 → List Char
  | 0, _ => []
  | _ + 1, [] => []
  | fuel + 1, a :: rest =>
    let (c, taken) := decodeFirst a rest
    c :: decodeUpTo fuel ((a :: rest).drop taken)

/-- Reads bytes as text. Each longest run of bytes that begins a character and does not complete
it, and each byte that begins none, becomes one `replacement`. -/
def decodeLossy (bytes : List UInt8) : List Char := decodeUpTo bytes.length bytes

end PipelineScript.Text
