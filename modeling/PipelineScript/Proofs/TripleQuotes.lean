import PipelineScript.Proofs.Quoting

/-!
Texts in triple quotes.

A text in triple quotes should end at the next three quotes in a row. The scanner counts the quotes
that are still missing, and any other character starts the count again, except a backslash behind
two quotes: it leaves the count at one, and it hides a quote that follows. So two quotes, some
backslashes and two more quotes close the text too, and a quote behind a backslash may come between
the backslashes. Where no two pairs of quotes are joined in this way, the text ends where it should
(`tokenize_triple_iff`).
-/
namespace PipelineScript

section

variable {engine : PatternEngine}

/-! ## Pairs of quotes -/

namespace Text

/-- Backslashes and quotes only. -/
def IsMarks (cs : List Char) : Prop := ∀ c ∈ cs, c = '\\' ∨ c = '\''

/-- No two pairs of adjacent quotes have only backslashes and quotes between them. -/
def PairsApart (text : List Char) : Prop :=
  ∀ between, IsMarks between → ¬(['\'', '\''] ++ between ++ ['\'', '\'']) <:+: text

/-- A text that does not begin with backslashes and quotes up to a pair of adjacent quotes. -/
def PairAway (text : List Char) : Prop :=
  ∀ before, IsMarks before → ¬(before ++ ['\'', '\'']) <+: text

variable {c : Char} {cs : List Char}

theorem pairAway_of_plain (hb : c ≠ '\\') (hq : c ≠ '\'') : PairAway (c :: cs) := by
  intro before hbefore h
  cases before with
  | nil =>
    rw [List.nil_append, List.cons_prefix_cons] at h
    exact hq h.1.symm
  | cons d ds =>
    rw [List.cons_append, List.cons_prefix_cons] at h
    rcases hbefore d List.mem_cons_self with hd | hd
    · exact hb (h.1.symm.trans hd)
    · exact hq (h.1.symm.trans hd)

/-- A mark that begins no pair makes no difference. -/
theorem pairAway_cons (hc : c = '\\' ∨ c = '\'') (h : c = '\'' → cs.head? ≠ some '\'') :
    PairAway (c :: cs) ↔ PairAway cs := by
  constructor
  · intro haway before hbefore hpre
    refine haway (c :: before) ?_ (List.cons_prefix_cons.2 ⟨rfl, hpre⟩)
    intro d hd
    rcases List.mem_cons.1 hd with rfl | hd
    · exact hc
    · exact hbefore d hd
  · intro haway before hbefore hpre
    cases before with
    | nil =>
      rw [List.nil_append, List.cons_prefix_cons] at hpre
      obtain ⟨rfl, rest, rfl⟩ := hpre
      exact h rfl rfl
    | cons d ds =>
      rw [List.cons_append, List.cons_prefix_cons] at hpre
      exact haway ds (fun e he => hbefore e (List.mem_cons_of_mem _ he)) hpre.2

theorem not_pairAway_pair : ¬PairAway ('\'' :: '\'' :: cs) :=
  fun h => h [] (by simp [IsMarks]) ⟨cs, rfl⟩

/-- A character that begins no pair makes no difference. -/
theorem pairsApart_cons (h : c = '\'' → cs.head? ≠ some '\'') :
    PairsApart (c :: cs) ↔ PairsApart cs := by
  refine forall₂_congr fun between _ => ?_
  rw [List.infix_cons_iff, not_or, and_iff_right]
  rintro ⟨rest, hrest⟩
  cases hrest
  exact h rfl rfl

theorem pairsApart_pair :
    PairsApart ('\'' :: '\'' :: cs) ↔ PairAway cs ∧ PairsApart ('\'' :: cs) := by
  rw [PairsApart, PairAway, PairsApart, ← forall₂_and]
  refine forall₂_congr fun between _ => ?_
  rw [List.infix_cons_iff, not_or]
  simp

end Text

/-! ## The count of missing quotes -/

namespace Sign

open Lexeme

/-- A text in triple quotes, of whose closing quotes some are missing, closes at its end. -/
def ClosesFrom (missing : Nat) (text : List Char) : Prop :=
  Lexeme.closingQuotes 3 missing text = some (text, [])

theorem closesFrom_iff {missing : Nat} {text : List Char} :
    ClosesFrom missing text ↔ Closed '\'' 3 missing text := by
  rw [ClosesFrom, closingQuotes_eq_some_iff, List.append_nil, and_iff_right rfl]

variable {c : Char} {cs : List Char}

/-- A text that may stand between triple quotes. -/
structure Inner (text : List Char) : Prop where
  not_triple : ¬['\'', '\'', '\''] <:+: text
  getLast?_ne : text.getLast? ≠ some '\''

theorem Inner.tail (h : Inner (c :: cs)) : Inner cs where
  not_triple := fun hin => h.not_triple (List.infix_cons hin)
  getLast?_ne := by
    intro hlast
    apply h.getLast?_ne
    rw [List.getLast?_cons, hlast]
    rfl

/-- Behind a quote the text goes on. -/
theorem Inner.exists_cons (h : Inner ('\'' :: cs)) : ∃ d ds, cs = d :: ds := by
  cases cs with
  | nil => exact absurd rfl h.getLast?_ne
  | cons d ds => exact ⟨d, ds, rfl⟩

/-- The quotes that close the text. -/
def tripleQuote : List Char := ['\'', '\'', '\'']

open Text

mutual

/-- **The count of three.** A text closes at the quotes behind it just if no two pairs of quotes are
joined by backslashes. -/
theorem closesFrom_three_iff : ∀ {text : List Char}, Inner text →
    (ClosesFrom 3 (text ++ tripleQuote) ↔ PairsApart (text ++ tripleQuote))
  | [], _ => by
    have hcloses : ClosesFrom 3 tripleQuote := by unfold ClosesFrom; decide
    have hapart : PairsApart tripleQuote := by
      intro between _ hin
      have hlen := hin.length_le
      simp only [tripleQuote, List.length_append, List.length_cons, List.length_nil] at hlen
      omega
    exact iff_of_true hcloses hapart
  | c :: cs, h => by
    have ih := closesFrom_three_iff h.tail
    rw [List.cons_append]
    by_cases hc : c = '\''
    · subst hc
      obtain ⟨d, ds, rfl⟩ := h.exists_cons
      rw [closesFrom_iff, closed_counted_iff (by decide)]
      by_cases hd : d = '\''
      · -- Two quotes: one is missing, and what follows is no quote.
        subst hd
        obtain ⟨e, es, rfl⟩ := h.tail.exists_cons
        have he : e ≠ '\'' := by
          rintro rfl
          exact h.not_triple ⟨[], es, rfl⟩
        have ihp := closesFrom_one_iff h.tail.tail (by simp) (by simpa using he)
        rw [List.cons_append, closed_counted_iff (by decide), ← closesFrom_iff, pairsApart_pair,
          ihp, pairsApart_cons (fun _ => by simpa using he)]
      · have ih' := closesFrom_three_iff h.tail.tail
        rw [List.cons_append, closed_plain_iff hd (by simp), ← closesFrom_iff,
          pairsApart_cons (by simpa using hd), pairsApart_cons (fun he => absurd he hd), ih']
    · rw [closesFrom_iff, closed_plain_iff hc (by simp), ← closesFrom_iff,
        pairsApart_cons (fun he => absurd he hc), ih]
termination_by text => text.length

/-- **The count of one.** Behind two quotes a text closes at the quotes behind it just if, besides,
backslashes do not lead on to a pair of quotes. -/
theorem closesFrom_one_iff : ∀ {text : List Char}, Inner text → text ≠ [] →
    text.head? ≠ some '\'' →
    (ClosesFrom 1 (text ++ tripleQuote) ↔
      PairAway (text ++ tripleQuote) ∧ PairsApart (text ++ tripleQuote))
  | [], _, hne, _ => absurd rfl hne
  | c :: cs, h, _, hq => by
    have hc : c ≠ '\'' := by simpa using hq
    rw [List.cons_append]
    by_cases hb : c = '\\'
    · subst hb
      rw [pairsApart_cons (by simp), pairAway_cons (.inl rfl) (by simp)]
      cases cs with
      | nil =>
        -- The first of the three quotes is hidden, and the second one closes.
        have hopen : ¬ClosesFrom 1 ('\\' :: tripleQuote) := by unfold ClosesFrom; decide
        exact iff_of_false hopen fun hp => not_pairAway_pair hp.1
      | cons d ds =>
        by_cases hd : d = '\''
        · subst hd
          obtain ⟨e, es, rfl⟩ := h.tail.exists_cons
          rw [List.cons_append, closesFrom_iff, closed_hidden_iff, ← closesFrom_iff]
          by_cases he : e = '\''
          · subst he
            rw [List.cons_append, closesFrom_iff, closed_last_iff (by decide)]
            exact iff_of_false (by simp [tripleQuote]) fun hp => not_pairAway_pair hp.1
          · have ih := closesFrom_one_iff h.tail.tail (by simp) (by simpa using he)
            rw [pairsApart_cons (fun _ => by simpa using he),
              pairAway_cons (.inr rfl) (fun _ => by simpa using he), ih]
        · have ih := closesFrom_one_iff h.tail (by simp) (by simpa using hd)
          rw [List.cons_append, closesFrom_iff, closed_backslash_iff hd, ← closesFrom_iff,
            ← List.cons_append, ih]
    · have ih := closesFrom_three_iff h.tail
      rw [closesFrom_iff, closed_plain_iff hc fun he => hb he.1, ← closesFrom_iff,
        pairsApart_cons (fun he => absurd he hc), ih]
      simp [pairAway_of_plain hb hc]
termination_by text => text.length

end

theorem closesTriple_iff {text : List Char} (h : Inner text) :
    ClosesTriple text ↔ PairsApart (text ++ tripleQuote) := closesFrom_three_iff h

end Sign

/-! ## Texts in triple quotes -/

/-- A text in triple quotes. -/
def tripled (w : String) : String := "'''" ++ w ++ "'''"

theorem toList_tripled (w : String) :
    (tripled w).toList = Sign.tripleQuote ++ (w.toList ++ Sign.tripleQuote) := by
  rw [tripled, String.toList_append, String.toList_append, List.append_assoc]
  rfl

/-- The first token of a script is what the scanner reads at its beginning. -/
theorem exists_tokenize_eq_cons {source : String} {t : Token} {after : Option Cursor}
    (h : Scanner.read source.toList ⟨.operand, 0, source.toList⟩ = .token t after) :
    ∃ ts, (tokenize source).tokens = t :: ts :=
  ⟨_, by
    rw [tokenize, TokenStream.ofSource, Scanner.ofSource,
      Scanner.run_succ (show Scanner.next ⟨source.toList, some ⟨.operand, 0, source.toList⟩⟩ =
        .token t after from h)]⟩

/-- A text in triple quotes is one token just if it closes at its end. -/
theorem tokenize_tripled_iff (w : String) :
    tokenize (tripled w) = .lone .string (tripled w) ↔ Sign.ClosesTriple w.toList := by
  have hsource :
      tripled w = String.ofList (Sign.tripleQuote ++ (w.toList ++ Sign.tripleQuote)) := by
    rw [← toList_tripled, String.ofList_toList]
  constructor
  · intro h
    have hread : Scanner.read (tripled w).toList ⟨.operand, 0, (tripled w).toList⟩ =
        Scan.quoted 0 Sign.tripleQuote (w.toList ++ Sign.tripleQuote) := by
      rw [toList_tripled]
      exact Sign.read_quote
    rw [Scan.quoted] at hread
    split at hread
    · rename_i lexeme rest hclosing
      -- The token is the whole text, so nothing is left behind it.
      obtain ⟨ts, hts⟩ := exists_tokenize_eq_cons hread
      rw [h] at hts
      have htext : tripled w = String.ofList (Sign.tripleQuote ++ lexeme) :=
        congrArg Token.text (List.cons.inj hts).1
      rw [hsource, String.ofList_inj] at htext
      obtain rfl := List.append_cancel_left htext
      have happ := Lexeme.closingQuotes_append hclosing
      have hrest : rest = [] := by simpa using happ
      rw [hrest] at hclosing
      exact hclosing
    · obtain ⟨ts, hts⟩ := exists_tokenize_eq_cons hread
      rw [h] at hts
      cases (List.cons.inj hts).1
  · intro h
    have hsign : Sign.Delimited ⟨.string, Sign.tripleQuote ++ (w.toList ++ Sign.tripleQuote)⟩ [] :=
      .triple h
    rw [hsource]
    exact tokenize_lone hsign rfl

/-- **Triple quotes.** A text without three quotes in a row that does not end in a quote is, between
triple quotes, one token if and only if in it, with the closing quotes behind it, no two pairs of
adjacent quotes have only backslashes and quotes between them. The node that is made of the whole
is that text, taken as it is. -/
theorem tokenize_triple_iff (w : String) (info : Info) (htriple : ¬"'''".toList <:+: w.toList)
    (hlast : w.toList.getLast? ≠ some '\'') :
    (tokenize (tripled w) = .lone .string (tripled w) ↔
        Text.PairsApart (w.toList ++ "'''".toList)) ∧
      Node.stringOfText? info (tripled w) = some (.string info w true) := by
  constructor
  · exact (tokenize_tripled_iff w).trans (Sign.closesTriple_iff ⟨htriple, hlast⟩)
  · have hbody : Node.stringBody? (Sign.tripleQuote ++ (w.toList ++ Sign.tripleQuote)) =
        some (w.toList, true) := Node.stringBody?_triple rfl
    rw [Node.stringOfText?, toList_tripled, hbody]
    simp

end

open scoped PatternEngine

/-- Two pairs of quotes with a letter between them, and backslashes on both sides. -/
theorem tokenize_triple_iff_letters :
    (¬"'''".toList <:+: "''\\a\\''b".toList ∧
      "''\\a\\''b".toList.getLast? ≠ some '\'') ∧
    (tokenize (tripled "''\\a\\''b") = .lone .string (tripled "''\\a\\''b") ↔
        Text.PairsApart ("''\\a\\''b".toList ++ "'''".toList)) ∧
      Node.stringOfText? .built (tripled "''\\a\\''b") =
        some (.string .built "''\\a\\''b" true) := by
  have htriple : ¬"'''".toList <:+: "''\\a\\''b".toList := by decide +kernel
  have hlast : "''\\a\\''b".toList.getLast? ≠ some '\'' := by decide
  exact ⟨⟨htriple, hlast⟩, tokenize_triple_iff "''\\a\\''b" .built htriple hlast⟩

/-- Behind two quotes a backslash at the end of the text hides the first of the closing quotes, the
second one closes, and the third one opens a string that nothing closes. -/
theorem tokenize_triple_backslash :
    (¬"'''".toList <:+: "''\\".toList ∧ "''\\".toList.getLast? ≠ some '\'') ∧
    tokenize (tripled "''\\") =
        ⟨[⟨.string, 0, "'''''\\''"⟩, ⟨.error, 8, "unterminated string"⟩], .ended⟩ ∧
      tokenize (tripled "''\\") ≠ .lone .string (tripled "''\\") := by
  have htriple : ¬"'''".toList <:+: "''\\".toList := by decide +kernel
  have hlast : "''\\".toList.getLast? ≠ some '\'' := by decide
  have htokens : tokenize (tripled "''\\") =
      ⟨[⟨.string, 0, "'''''\\''"⟩, ⟨.error, 8, "unterminated string"⟩], .ended⟩ := by
    decide +kernel
  refine ⟨⟨htriple, hlast⟩, htokens, ?_⟩
  rw [htokens]
  simp [TokenStream.lone]

end PipelineScript
