import SchemaMock.Proofs.Token.Lexemes

/-! # Nothing is lost between tokens

The tokens of a source stand in it one after another, each on a text of its own, and the texts
between them are blanks, comments up to the end of their line, and attributes.
-/

namespace SchemaMock.Token

/-! ## Lengths in bytes -/

theorem foldl_utf8Size (n : Nat) (cs : List Char) :
    cs.foldl (fun n c => n + c.utf8Size) n = n + byteLength cs := by
  unfold byteLength
  induction cs generalizing n with
  | nil => rfl
  | cons c cs ih =>
    rw [List.foldl_cons, List.foldl_cons, ih, ih (0 + _), Nat.zero_add, Nat.add_assoc]

theorem byteLength_append (cs ds : List Char) :
    byteLength (cs ++ ds) = byteLength cs + byteLength ds := by
  rw [byteLength, List.foldl_append, foldl_utf8Size]
  rfl

theorem byteLength_pos {c : Char} {cs : List Char} : 0 < byteLength (c :: cs) := by
  rw [byteLength, List.foldl_cons, foldl_utf8Size, Nat.zero_add]
  exact Nat.lt_of_lt_of_le c.utf8Size_pos (Nat.le_add_right _ _)

theorem utf8ByteSize_ofList (cs : List Char) : (String.ofList cs).utf8ByteSize = byteLength cs := by
  induction cs with
  | nil => rfl
  | cons c cs ih =>
    rw [String.ofList_cons, String.utf8ByteSize_append, String.utf8ByteSize_singleton, ih]
    rw [byteLength, byteLength, List.foldl_cons, foldl_utf8Size (0 + _), Nat.zero_add, byteLength]

theorem byteLength_toList (s : String) : byteLength s.toList = s.utf8ByteSize := by
  rw [← utf8ByteSize_ofList, String.ofList_toList]

/-! ## Gaps -/

/-- A text that the lexer passes over, with what comes after it: blanks, attributes, and comments,
which go on to the end of their line. -/
inductive Passed (after : List Char) : List Char → Prop where
  | nil : Passed after []
  | blank {c : Char} {cs : List Char} : isGap c = true → Passed after cs → Passed after (c :: cs)
  | comment {body cs : List Char} : (∀ d ∈ body, d ≠ '\n') → (∀ d ∈ (cs ++ after).head?, d = '\n') →
      Passed after cs → Passed after ('/' :: '/' :: body ++ cs)
  | attr {c : Char} {name body cs : List Char} :
      isAttributeStart c = true → (∀ d ∈ name, isAttributeChar d = true) →
      (∀ d ∈ body, d ≠ ')' ∧ d ≠ '\n') → Passed after cs →
      Passed after ('@' :: c :: name ++ '(' :: body ++ ')' :: cs)

theorem Passed.blanks {after bs cs : List Char} (hbs : ∀ d ∈ bs, isGap d = true)
    (h : Passed after cs) : Passed after (bs ++ cs) := by
  induction bs with
  | nil => exact h
  | cons b bs ih =>
    obtain ⟨hb, hbs⟩ := List.forall_mem_cons.mp hbs
    exact .blank hb (ih hbs)

/-- A comment that is cut off goes on to the end of its line. -/
theorem head_of_cut_comment {cs body : List Char} {c : Char}
    (htext : c :: (cut c cs).taken = '/' :: '/' :: body) (hbody : ∀ d ∈ body, d ≠ '\n') :
    ∀ d ∈ (cut c cs).rest.head?, d = '\n' := by
  intro d hd
  obtain ⟨more, hrest⟩ : ∃ more, (cut c cs).rest = d :: more := by
    cases hcut : (cut c cs).rest with
    | nil => rw [hcut] at hd; cases hd
    | cons e more =>
      rw [hcut, List.head?_cons, Option.mem_some_iff] at hd
      exact ⟨more, hd ▸ rfl⟩
  by_contra hnewline
  -- with one more character the comment would be longer
  have hlonger : ∀ e ∈ body ++ [d], e ≠ '\n' :=
    List.forall_mem_append.mpr ⟨hbody, List.forall_mem_singleton.mpr hnewline⟩
  have heq : c :: cs = '/' :: '/' :: (body ++ [d]) ++ more := by
    rw [← cut_append c cs, ← List.cons_append, htext, hrest]
    simp
  have hreach := (reaches_of_form (.comment hlonger) heq).le
  have hlength := congrArg List.length htext
  simp only [List.length_cons, List.length_append, List.length_nil] at hreach hlength
  omega

/-- What is cut off as a gap is passed over. -/
theorem Passed.of_cut {after cs tail : List Char} {c : Char} (hgap : (cut c cs).lexeme = .gap)
    (hrest : (cut c cs).rest = tail ++ after) (h : Passed after tail) :
    Passed after (c :: (cut c cs).taken ++ tail) := by
  have hform := formed_cut c cs (hgap ▸ Lexeme.noConfusion)
  have hline {body : List Char} : c :: (cut c cs).taken = '/' :: '/' :: body →
      (∀ d ∈ body, d ≠ '\n') → ∀ d ∈ (cut c cs).rest.head?, d = '\n' := head_of_cut_comment
  rw [hgap] at hform
  rw [hrest] at hline
  generalize c :: (cut c cs).taken = text at hform hline
  cases hform with
  | blanks hblanks => exact .blanks hblanks h
  | comment hbody => exact .comment hbody (hline rfl hbody) h
  | attr hc hname hbody => simpa using Passed.attr hc hname hbody h

/-! ## Tokens in their text -/

/-- The tokens stand in a text that begins at byte `pos`, one after another, and what is between
them is passed over. The last one is the end of the text. -/
inductive Laid : Nat → List Char → List Token → Prop where
  | eof {pos : Nat} {gap : List Char} : Passed [] gap →
      Laid pos gap [⟨.eof, ⟨pos + byteLength gap, pos + byteLength gap⟩, []⟩]
  | token {pos : Nat} {gap text rest : List Char} {kind : TokenKind} {tokens : List Token} :
      Passed (text ++ rest) gap → Form (.token kind) text →
        Laid (pos + byteLength (gap ++ text)) rest tokens →
      Laid pos (gap ++ text ++ rest)
        (⟨kind, ⟨pos + byteLength gap, pos + byteLength (gap ++ text)⟩, text⟩ :: tokens)

theorem Laid.after_gap {pos : Nat} {cs : List Char} {c : Char} {tokens : List Token}
    (hgap : (cut c cs).lexeme = .gap)
    (h : Laid (pos + byteLength (c :: (cut c cs).taken)) (cut c cs).rest tokens) :
    Laid pos (c :: cs) tokens := by
  have hcs : c :: cs = c :: (cut c cs).taken ++ (cut c cs).rest := by
    rw [List.cons_append, cut_append]
  have hpassed {after tail : List Char} : (cut c cs).rest = tail ++ after → Passed after tail →
      Passed after (c :: (cut c cs).taken ++ tail) := Passed.of_cut hgap
  generalize c :: (cut c cs).taken = front at h hcs hpassed
  generalize (cut c cs).rest = rest at h hcs hpassed
  rw [hcs]
  cases h with
  | eof hpass =>
    rw [Nat.add_assoc, ← byteLength_append]
    exact .eof (hpassed (List.append_nil _).symm hpass)
  | @token _ gap text rest kind tokens hpass hform h =>
    rw [Nat.add_assoc, Nat.add_assoc, ← byteLength_append, ← byteLength_append, ← List.append_assoc,
      ← List.append_assoc]
    rw [Nat.add_assoc, ← byteLength_append, ← List.append_assoc] at h
    exact .token (hpassed (List.append_assoc _ _ _) hpass) hform h

theorem laid_of_tokenizeFrom {pos : Nat} {cs : List Char} {tokens : List Token}
    (h : tokenizeFrom pos cs = .ok tokens) : Laid pos cs tokens := by
  fun_induction tokenizeFrom pos cs generalizing tokens
  case case1 =>
    cases h
    exact .eof .nil
  case case2 => cases h
  case case3 hgap ih => exact .after_gap hgap (ih h)
  case case4 pos c cs piece text stop kind hkind ih =>
    obtain ⟨later, hlater, h⟩ := Except.exists_of_bind_eq_ok h
    cases h
    have hform : Form (.token kind) text := hkind ▸ formed_cut c cs (hkind ▸ Lexeme.noConfusion)
    have hcs : c :: cs = [] ++ text ++ piece.rest := by
      rw [List.nil_append, List.cons_append, cut_append]
    rw [hcs]
    exact .token .nil hform (ih hlater)

theorem Form.ne_eof {kind : TokenKind} {text : List Char} (h : Form (.token kind) text) :
    kind ≠ .eof := by
  rintro rfl
  cases h with
  | sign h => revert h; simp [signs]
  | keyword h => revert h; simp [keywords]

theorem Form.ne_nil {lx : Lexeme} {text : List Char} (h : Form lx text) : text ≠ [] := by
  cases h with
  | sign h =>
    rintro rfl
    revert h
    simp [signs]
  | keyword h =>
    obtain ⟨c, name, rfl, -⟩ := exists_of_keyword h
    exact List.cons_ne_nil _ _
  | float hwhole => simp [hwhole.1]
  | _ => simp

namespace Laid

variable {pos : Nat} {cs : List Char} {tokens : List Token}

theorem le_start (h : Laid pos cs tokens) : ∀ t ∈ tokens, pos ≤ t.span.start := by
  induction h with
  | eof => simp
  | token _ _ _ ih =>
    refine List.forall_mem_cons.mpr ⟨Nat.le_add_right _ _, fun t ht => ?_⟩
    exact Nat.le_trans (Nat.le_add_right _ _) (ih t ht)

theorem ordered (h : Laid pos cs tokens) :
    tokens.Pairwise fun t u => t.span.stop ≤ u.span.start := by
  induction h with
  | eof => exact List.pairwise_singleton _ _
  | token _ _ h ih => exact List.pairwise_cons.mpr ⟨h.le_start, ih⟩

/-- Only the end of the text is empty. -/
theorem ended (h : Laid pos cs tokens) : ∃ front,
    tokens = front ++ [⟨.eof, ⟨pos + byteLength cs, pos + byteLength cs⟩, []⟩] ∧
    ∀ t ∈ front, t.kind ≠ .eof ∧ t.span.start < t.span.stop := by
  induction h with
  | eof => exact ⟨[], rfl, List.forall_mem_nil _⟩
  | @token pos gap text rest kind tokens _ hform _ ih =>
    obtain ⟨front, rfl, hall⟩ := ih
    obtain ⟨c, text, rfl⟩ := List.exists_cons_of_ne_nil hform.ne_nil
    have hlt : byteLength gap < byteLength (gap ++ c :: text) := by
      rw [byteLength_append]
      exact Nat.lt_add_of_pos_right byteLength_pos
    refine ⟨⟨kind, ⟨pos + byteLength gap, pos + byteLength (gap ++ c :: text)⟩, c :: text⟩ ::
      front, ?_, ?_⟩
    · rw [Nat.add_assoc, ← byteLength_append, List.cons_append]
    · exact List.forall_mem_cons.mpr ⟨⟨hform.ne_eof, Nat.add_lt_add_left hlt pos⟩, hall⟩

/-- Every token is a piece of the text. -/
theorem whole (h : Laid pos cs tokens) :
    ∀ t ∈ tokens, ∃ before after, cs = before ++ t.text ++ after ∧
    t.span = ⟨pos + byteLength before, pos + byteLength (before ++ t.text)⟩ := by
  induction h with
  | @eof _ gap => simpa using ⟨gap, ⟨[], by simp⟩, rfl⟩
  | @token pos gap text rest kind tokens _ _ _ ih =>
    refine List.forall_mem_cons.mpr ⟨⟨gap, rest, rfl, rfl⟩, fun t ht => ?_⟩
    obtain ⟨before, after, rfl, hspan⟩ := ih t ht
    refine ⟨gap ++ text ++ before, after, by simp, ?_⟩
    rw [hspan, List.append_assoc (gap ++ text), byteLength_append (gap ++ text),
      byteLength_append (gap ++ text), Nat.add_assoc, Nat.add_assoc]

/-- Up to every token, from the one before it on, the text is passed over. -/
theorem passed (h : Laid pos cs tokens) {before after : List Token} {t : Token}
    (ht : tokens = before ++ t :: after) :
    ∃ head gap tail, cs = head ++ gap ++ tail ∧
      pos + byteLength head = (before.getLast?.map (·.span.stop)).getD pos ∧
      pos + byteLength (head ++ gap) = t.span.start ∧ Passed tail gap := by
  induction h generalizing before with
  | @eof _ gap hpass =>
    cases before with
    | nil =>
      cases ht
      exact ⟨[], gap, [], by simp, by rfl, rfl, hpass⟩
    | cons u before => simp at ht
  | @token pos gap text rest kind tokens hpass _ _ ih =>
    cases before with
    | nil =>
      cases ht
      exact ⟨[], gap, text ++ rest, by simp, rfl, rfl, hpass⟩
    | cons u before =>
      rw [List.cons_append, List.cons.injEq] at ht
      obtain ⟨rfl, ht⟩ := ht
      obtain ⟨head, gap', tail, rfl, hhead, hstart, hpass'⟩ := ih ht
      refine ⟨gap ++ text ++ head, gap', tail, by simp, ?_, ?_, hpass'⟩
      · rw [byteLength_append, ← Nat.add_assoc, hhead]
        cases hlast : before.getLast? <;> simp [List.getLast?_cons, hlast]
      · rw [List.append_assoc (gap ++ text), byteLength_append (gap ++ text),
          ← Nat.add_assoc, hstart]

end Laid

/-- The tokens lie in the source in order, each on its own text; the end of the source is the last
and the only one that is empty; and from one token to the next there is only what the lexer passes
over. -/
structure Covers (source : String) (tokens : List Token) : Prop where
  ordered : tokens.Pairwise fun t u => t.span.stop ≤ u.span.start
  ended : ∃ front, tokens = front ++ [⟨.eof, ⟨source.utf8ByteSize, source.utf8ByteSize⟩, []⟩] ∧
    ∀ t ∈ front, t.kind ≠ .eof ∧ t.span.start < t.span.stop
  whole : ∀ t ∈ tokens, ∃ before after, source.toList = before ++ t.text ++ after ∧
    t.span = ⟨byteLength before, byteLength (before ++ t.text)⟩
  passed : ∀ before t after, tokens = before ++ t :: after → ∃ head gap tail,
    source.toList = head ++ gap ++ tail ∧
    byteLength head = (before.getLast?.map (·.span.stop)).getD 0 ∧
      byteLength (head ++ gap) = t.span.start ∧
    Passed tail gap

/-- The lexer loses nothing: what is not in a token is blanks, comments and attributes. -/
theorem covers_of_tokenize {source : String} {tokens : List Token}
    (h : tokenize source = .ok tokens) : Covers source tokens := by
  have hlaid := laid_of_tokenizeFrom h
  refine ⟨hlaid.ordered, ?_, ?_, fun before t after ht => ?_⟩
  · simpa [byteLength_toList] using hlaid.ended
  · simpa using hlaid.whole
  · simpa using hlaid.passed ht

theorem covers_commented : Covers "a: @tag(x, \"y\") _|_ // é\n"
    [⟨.ident, ⟨0, 1⟩, ['a']⟩, ⟨.colon, ⟨1, 2⟩, [':']⟩, ⟨.bottom, ⟨16, 19⟩, ['_', '|', '_']⟩,
      ⟨.newline, ⟨25, 26⟩, ['\n']⟩, ⟨.eof, ⟨26, 26⟩, []⟩] :=
  covers_of_tokenize (by decide +kernel)

end SchemaMock.Token
