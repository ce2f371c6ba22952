import SchemaMock.Proofs.Token.Coverage

/-! # Spans as byte ranges

A text can be cut by bytes only where a character ends. The spans of tokens can all be cut out, each
gives the text of its token, and where the lexer refuses a text its fault stands at a piece of it.
-/

namespace SchemaMock

/-- The characters after the first `n` bytes, which may not end inside a character. -/
def Text.dropBytes : Nat → List Char → Option (List Char)
  | 0, cs => some cs
  | _ + 1, [] => none
  | n + 1, c :: cs => if c.utf8Size ≤ n + 1 then dropBytes (n + 1 - c.utf8Size) cs else none

/-- The characters in the first `n` bytes, which may not end inside a character. -/
def Text.takeBytes : Nat → List Char → Option (List Char)
  | 0, _ => some []
  | _ + 1, [] => none
  | n + 1, c :: cs =>
    if c.utf8Size ≤ n + 1 then (c :: ·) <$> takeBytes (n + 1 - c.utf8Size) cs else none

namespace Span

def slice? (s : Span) (cs : List Char) : Option (List Char) :=
  if s.start ≤ s.stop then (Text.dropBytes s.start cs).bind (Text.takeBytes (s.stop - s.start))
    else none

/-- The span is a piece of the source: in order, within its bytes, and not cutting a character. -/
structure Within (s : Span) (source : String) : Prop where
  ordered : s.start ≤ s.stop
  bounded : s.stop ≤ source.utf8ByteSize
  startBoundary : String.Pos.Raw.IsValid source ⟨s.start⟩
  stopBoundary : String.Pos.Raw.IsValid source ⟨s.stop⟩

end Span

namespace Token

variable {c : Char} {cs before text after : List Char}

theorem byteLength_cons : byteLength (c :: cs) = c.utf8Size + byteLength cs := by
  rw [byteLength, List.foldl_cons, foldl_utf8Size, Nat.zero_add]

theorem dropBytes_cons {n : Nat} :
    Text.dropBytes (c.utf8Size + n) (c :: cs) = Text.dropBytes n cs := by
  obtain ⟨k, hk⟩ :=
    Nat.exists_eq_add_of_lt (Nat.lt_of_lt_of_le c.utf8Size_pos (Nat.le_add_right _ n))
  rw [Nat.zero_add] at hk
  rw [hk, Text.dropBytes, ← hk, if_pos (Nat.le_add_right _ n), Nat.add_sub_cancel_left]

theorem takeBytes_cons {n : Nat} :
    Text.takeBytes (c.utf8Size + n) (c :: cs) = (c :: ·) <$> Text.takeBytes n cs := by
  obtain ⟨k, hk⟩ :=
    Nat.exists_eq_add_of_lt (Nat.lt_of_lt_of_le c.utf8Size_pos (Nat.le_add_right _ n))
  rw [Nat.zero_add] at hk
  rw [hk, Text.takeBytes, ← hk, if_pos (Nat.le_add_right _ n), Nat.add_sub_cancel_left]

theorem dropBytes_append (before cs : List Char) :
    Text.dropBytes (byteLength before) (before ++ cs) = some cs := by
  induction before with
  | nil => rw [byteLength, List.foldl_nil, Text.dropBytes, List.nil_append]
  | cons c before ih => rw [byteLength_cons, List.cons_append, dropBytes_cons, ih]

theorem takeBytes_append (text cs : List Char) :
    Text.takeBytes (byteLength text) (text ++ cs) = some text := by
  induction text with
  | nil => rw [byteLength, List.foldl_nil, Text.takeBytes]
  | cons c text ih =>
    rw [byteLength_cons, List.cons_append, takeBytes_cons, ih]
    rfl

theorem slice?_append (before text after : List Char) :
    Span.slice? ⟨byteLength before, byteLength (before ++ text)⟩ (before ++ text ++ after) =
      some text := by
  have hle : byteLength before ≤ byteLength (before ++ text) := by
    rw [byteLength_append]
    exact Nat.le_add_right _ _
  rw [Span.slice?, if_pos hle, List.append_assoc, dropBytes_append]
  show Text.takeBytes (byteLength (before ++ text) - byteLength before) (text ++ after) = some text
  rw [byteLength_append, Nat.add_sub_cancel_left, takeBytes_append]

/-- A position between two pieces of a text cuts no character. -/
theorem isValid_byteLength {source : String} (h : source.toList = before ++ after) :
    String.Pos.Raw.IsValid source ⟨byteLength before⟩ := by
  refine String.Pos.Raw.isValid_iff_exists_append.mpr ⟨String.ofList before,
    String.ofList after, ?_, ?_⟩
  · rw [← String.ofList_append, ← h, String.ofList_toList]
  · rw [← utf8ByteSize_ofList]
    rfl

theorem within_of_append {source : String} (h : source.toList = before ++ text ++ after) :
    Span.Within ⟨byteLength before, byteLength (before ++ text)⟩ source where
  ordered := by
    rw [byteLength_append]
    exact Nat.le_add_right _ _
  bounded := by
    rw [← byteLength_toList, h, byteLength_append (before ++ text)]
    exact Nat.le_add_right _ _
  startBoundary := isValid_byteLength (h.trans (List.append_assoc _ _ _))
  stopBoundary := isValid_byteLength h

/-! ## Where tokens and faults stand -/

theorem Covers.slice? {source : String} {tokens : List Token} (h : Covers source tokens) :
    ∀ t ∈ tokens, t.span.slice? source.toList = some t.text := by
  intro t ht
  obtain ⟨before, after, heq, hspan⟩ := h.whole t ht
  rw [hspan, heq, slice?_append]

theorem Covers.within {source : String} {tokens : List Token} (h : Covers source tokens) :
    ∀ t ∈ tokens, t.span.Within source := by
  intro t ht
  obtain ⟨before, after, heq, hspan⟩ := h.whole t ht
  rw [hspan]
  exact within_of_append heq

/-- The text of a string stands between quotes. -/
theorem Laid.quoted {pos : Nat} {tokens : List Token} (h : Laid pos cs tokens) :
    ∀ t ∈ tokens, t.kind = .string → ∃ body, t.text = '"' :: body ++ ['"'] := by
  induction h with
  | eof => simp
  | token _ hform _ ih =>
    refine List.forall_mem_cons.mpr ⟨?_, ih⟩
    rintro rfl
    cases hform with
    | string => exact ⟨_, rfl⟩
    | sign hsign => exact absurd hsign (by simp [signs])
    | keyword hkeyword => exact absurd hkeyword (by simp [keywords])

/-- Where the lexer stops short there is a piece of the text that it refuses. -/
theorem tokenizeFrom_error {pos : Nat} {m : Malformed} (h : tokenizeFrom pos cs = .error m) :
    ∃ before text after, cs = before ++ text ++ after ∧
      m.span = ⟨pos + byteLength before, pos + byteLength (before ++ text)⟩ ∧
      m.fault = .unexpectedText (String.ofList text) := by
  -- a piece of what follows a lexeme is a piece of the whole
  have hlater {pos : Nat} {front rest before text after : List Char}
      (hrest : rest = before ++ text ++ after)
      (hspan : m.span = ⟨pos + byteLength front + byteLength before,
        pos + byteLength front + byteLength (before ++ text)⟩)
      (hfault : m.fault = .unexpectedText (String.ofList text)) :
      ∃ before text after, front ++ rest = before ++ text ++ after ∧
        m.span = ⟨pos + byteLength before, pos + byteLength (before ++ text)⟩ ∧
        m.fault = .unexpectedText (String.ofList text) := by
    refine ⟨front ++ before, text, after, by simp [hrest], ?_, hfault⟩
    rw [hspan, List.append_assoc, byteLength_append front, byteLength_append front, Nat.add_assoc,
      Nat.add_assoc]
  fun_induction tokenizeFrom pos cs
  case case1 => cases h
  case case2 pos c cs piece text stop hbad =>
    cases h
    refine ⟨[], text, piece.rest, ?_, rfl, rfl⟩
    rw [List.nil_append, List.cons_append, cut_append]
  case case3 pos c cs piece text stop hgap ih =>
    obtain ⟨before, text', after, hrest, hspan, hfault⟩ := ih h
    rw [← cut_append c cs, ← List.cons_append]
    exact hlater hrest hspan hfault
  case case4 pos c cs piece text stop kind hkind ih =>
    have herror : tokenizeFrom stop piece.rest = .error m := by
      cases hrest : tokenizeFrom stop piece.rest with
      | error m' => rw [hrest] at h; cases h; rfl
      | ok later => rw [hrest] at h; cases h
    obtain ⟨before, text', after, hrest, hspan, hfault⟩ := ih herror
    rw [← cut_append c cs, ← List.cons_append]
    exact hlater hrest hspan hfault

theorem within_of_tokenize_error {source : String} {m : Malformed}
    (h : tokenize source = .error m) :
    m.span.Within source ∧ ∃ text, m.fault = .unexpectedText text := by
  obtain ⟨before, text, after, heq, hspan, hfault⟩ := tokenizeFrom_error h
  refine ⟨?_, _, hfault⟩
  rw [hspan, Nat.zero_add, Nat.zero_add]
  exact within_of_append heq

end Token

end SchemaMock
