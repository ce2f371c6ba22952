import SchemaMock.Expr.Parser
import SchemaMock.Proofs.Token.Faces

/-! # Newlines that do not count

A list of tokens is spaced out when newlines are put after opening brackets, commas, newlines and
binary operators, and before closing parentheses and brackets and commas. An operator is binary
where an operand ends before it; elsewhere it is a sign, and no newline may follow.
-/

namespace SchemaMock

namespace TokenKind

/-- Newlines after the token are passed over. -/
def opens : TokenKind → Bool
  | openParen | openBracket | openBrace | comma | newline => true
  | _ => false

/-- Newlines before the token are passed over. -/
def closes : TokenKind → Bool
  | closeParen | closeBracket | comma => true
  | _ => false

/-- The token may be the first one of an operand. -/
def startsOperand : TokenKind → Bool
  | ident | definition | int | float | string | trueWord | falseWord | nullWord | bottom => true
  | openParen | openBracket | openBrace => true
  | star | bang | minus | plus | notEq | lt | le | gt | ge => true
  | _ => false

/-- The token may be the last one of an operand. -/
def endsOperand : TokenKind → Bool
  | ident | definition | int | float | string | trueWord | falseWord | nullWord | bottom => true
  | closeParen | closeBracket | closeBrace => true
  | _ => false

/-- Newlines after the token are passed over where it stands, after an operand or not. -/
def breaks (k : TokenKind) (afterOperand : Bool) : Bool :=
  k.opens || ((Parser.binaryOp? k).isSome && afterOperand)

theorem endsOperand_of_newline {k : TokenKind} (h : (k == .newline) = true) :
    k.endsOperand = false :=
  beq_iff_eq.mp h ▸ rfl

theorem breaks_mono {k : TokenKind} {b : Bool} (h : k.breaks b = true) : k.breaks true = true := by
  rw [breaks, Bool.or_eq_true, Bool.and_eq_true] at h ⊢
  exact h.imp_right fun h => ⟨h.1, rfl⟩

end TokenKind

/-- There is a first token, of such a kind. -/
def Heads (p : TokenKind → Prop) : List Token → Prop
  | [] => False
  | t :: _ => p t.kind

abbrev Closing : List Token → Prop := Heads fun k => k.closes = true

/-- Only newlines, and none unless they are allowed. -/
structure Gap (allowed : Prop) (gap : List Token) : Prop where
  newlines : ∀ n ∈ gap, n.kind = .newline
  allowed : gap ≠ [] → allowed

/-- The second list shows the tokens of the first and further newlines that do not count. The flag
says whether an operand ends before the first token. -/
inductive Spaced : Bool → List Token → List Token → Prop
  | last {b : Bool} {t u : Token} : t.face = u.face → Spaced b [t] [u]
  | cons {b : Bool} {t u : Token} {ts us gap : List Token} : t.face = u.face →
      Gap (t.kind.breaks b = true ∨ Closing ts) gap → Spaced t.kind.endsOperand ts us →
      Spaced b (t :: ts) (u :: (gap ++ us))

def Ahead (b : Bool) (ts us : List Token) : Prop :=
  ∃ gap vs, us = gap ++ vs ∧ Gap True gap ∧ Spaced b ts vs

structure Held (b : Bool) (ts us : List Token) : Prop where
  closing : Closing ts
  newline : Heads (· = .newline) us
  ahead : Ahead b ts us

/-- Spaced, with newlines in front at most where they stand before a token that closes. -/
def Loose (b : Bool) (ts us : List Token) : Prop := Spaced b ts us ∨ Held b ts us

def Past (b : Bool) (k : TokenKind) : List Token → List Token → Prop :=
  bif k.breaks b then Ahead k.endsOperand else Loose k.endsOperand

/-- The list after its first tokens of a class; the last token stays. -/
def dropFirst (p : TokenKind → Bool) : List Token → List Token
  | t :: u :: us => if p t.kind then dropFirst p (u :: us) else t :: u :: us
  | ts => ts

theorem dropFirst_append {p : TokenKind → Bool} {gap us : List Token}
    (hgap : ∀ n ∈ gap, p n.kind = true) (hne : us ≠ []) :
    dropFirst p (gap ++ us) = dropFirst p us := by
  induction gap with
  | nil => rfl
  | cons n gap ih =>
    obtain ⟨hn, hgap⟩ := List.forall_mem_cons.mp hgap
    obtain ⟨v, vs, hv⟩ := List.exists_cons_of_ne_nil (show gap ++ us ≠ [] by simp [hne])
    rw [List.cons_append, hv, dropFirst, if_pos hn, ← hv, ih hgap]

theorem Token.kind_eq_of_face {t u : Token} (h : t.face = u.face) : t.kind = u.kind :=
  congrArg Prod.fst h

theorem Token.text_eq_of_face {t u : Token} (h : t.face = u.face) : t.text = u.text :=
  congrArg Prod.snd h

theorem Heads.mono {p q : TokenKind → Prop} {ts : List Token} (hmono : ∀ k, p k → q k)
    (h : Heads p ts) : Heads q ts := by
  cases ts with
  | nil => exact h
  | cons t ts => exact hmono _ h

namespace Gap

variable {allowed : Prop} {gap : List Token}

theorem nil : Gap allowed [] := ⟨nofun, absurd rfl⟩

theorem passed {p : TokenKind → Bool} (hp : p .newline = true) (h : Gap allowed gap) :
    ∀ n ∈ gap, p n.kind = true :=
  fun n hn => h.newlines n hn ▸ hp

theorem mono {allowed' : Prop} (hmono : allowed → allowed') (h : Gap allowed gap) :
    Gap allowed' gap :=
  ⟨h.newlines, fun hne => hmono (h.allowed hne)⟩

theorem head {n : Token} (h : Gap allowed (n :: gap)) : n.kind = .newline :=
  h.newlines n List.mem_cons_self

end Gap

namespace Spaced

variable {b : Bool} {t u : Token} {ts us gap : List Token} {p : TokenKind → Bool}

theorem of_faces (h : ts.map Token.face = us.map Token.face) (hne : ts ≠ []) : Spaced b ts us := by
  induction ts generalizing b us with
  | nil => exact absurd rfl hne
  | cons t ts ih =>
    cases us with
    | nil => cases h
    | cons u us =>
      rw [List.map_cons, List.map_cons, List.cons.injEq] at h
      cases ts with
      | nil =>
        cases us with
        | nil => exact .last h.1
        | cons v vs => cases h.2
      | cons v vs => exact @cons b t u (v :: vs) us [] h.1 .nil (ih h.2 (List.cons_ne_nil _ _))

theorem ne_nil (h : Spaced b ts us) : ts ≠ [] := by
  cases h <;> exact List.cons_ne_nil _ _

theorem ne_nil_right (h : Spaced b ts us) : us ≠ [] := by
  cases h <;> exact List.cons_ne_nil _ _

theorem head (h : Spaced b (t :: ts) (u :: us)) : t.face = u.face := by
  cases h <;> assumption

theorem heads {q : TokenKind → Prop} (h : Spaced b ts us) (hq : Heads q ts) : Heads q us := by
  have hcons {t u : Token} (h : t.face = u.face) (hq : q t.kind) : q u.kind :=
    Token.kind_eq_of_face h ▸ hq
  cases h with
  | last hface => exact hcons hface hq
  | cons hface => exact hcons hface hq

theorem length_le (h : Spaced b ts us) : ts.length ≤ us.length := by
  induction h with
  | last => exact Nat.le_refl _
  | cons _ _ _ ih =>
    rw [List.length_cons, List.length_cons, List.length_append]
    omega

theorem ahead (h : Spaced b ts us) : Ahead b ts us := ⟨[], us, rfl, .nil, h⟩

/-- It is no restriction that an operand ends before. -/
theorem weaken (h : Spaced b ts us) : Spaced true ts us := by
  cases h with
  | last h => exact .last h
  | cons hface hgap hs => exact .cons hface (hgap.mono (.imp_left TokenKind.breaks_mono)) hs

theorem of_false (h : Spaced false ts us) : Spaced b ts us := by
  cases b with
  | false => exact h
  | true => exact h.weaken

/-- The lists past a class of tokens that newlines belong to, none of which ends an operand. -/
theorem drop (hp : p .newline = true) (hends : ∀ k, p k = true → k.endsOperand = false)
    (h : Spaced b ts us) : Spaced b (dropFirst p ts) (dropFirst p us) ∧
      (Heads (p · = true) ts → Spaced false (dropFirst p ts) (dropFirst p us)) := by
  induction h with
  | last h => exact ⟨.last h, fun _ => .last h⟩
  | @cons b t u ts us gap hface hgap hs ih =>
    obtain ⟨v, vs, rfl⟩ := List.exists_cons_of_ne_nil hs.ne_nil
    obtain ⟨w, ws, hw⟩ := List.exists_cons_of_ne_nil (show gap ++ us ≠ [] by simp [hs.ne_nil_right])
    have hkind := Token.kind_eq_of_face hface
    by_cases hpt : p t.kind = true
    · rw [hends _ hpt] at ih
      rw [dropFirst, if_pos hpt, hw, dropFirst, if_pos (hkind ▸ hpt), ← hw,
        dropFirst_append (hgap.passed hp) hs.ne_nil_right]
      exact ⟨ih.1.of_false, fun _ => ih.1⟩
    · rw [dropFirst, if_neg hpt, hw, dropFirst, if_neg (hkind ▸ hpt), ← hw]
      exact ⟨.cons hface hgap hs, fun h => absurd h hpt⟩

end Spaced

namespace Ahead

variable {b : Bool} {ts us : List Token} {p : TokenKind → Bool}

theorem length_le (h : Ahead b ts us) : ts.length ≤ us.length := by
  obtain ⟨gap, vs, rfl, -, h⟩ := h
  rw [List.length_append]
  exact Nat.le_trans h.length_le (Nat.le_add_left _ _)

theorem drop (hp : p .newline = true) (hends : ∀ k, p k = true → k.endsOperand = false)
    (h : Ahead b ts us) : Spaced b (dropFirst p ts) (dropFirst p us) ∧
      (Heads (p · = true) ts → Spaced false (dropFirst p ts) (dropFirst p us)) := by
  obtain ⟨gap, vs, rfl, hgap, h⟩ := h
  rw [dropFirst_append (hgap.passed hp) h.ne_nil_right]
  exact h.drop hp hends

theorem weaken (h : Ahead b ts us) : Ahead true ts us := by
  obtain ⟨gap, vs, hus, hgap, h⟩ := h
  exact ⟨gap, vs, hus, hgap, h.weaken⟩

end Ahead

namespace Loose

variable {b : Bool} {ts us : List Token}

theorem ahead (h : Loose b ts us) : Ahead b ts us := by
  obtain h | h := h
  · exact h.ahead
  · exact h.ahead

theorem weaken (h : Loose b ts us) : Loose true ts us := by
  obtain h | h := h
  · exact .inl h.weaken
  · exact .inr ⟨h.closing, h.newline, h.ahead.weaken⟩

theorem length_le (h : Loose b ts us) : ts.length ≤ us.length := h.ahead.length_le

end Loose

/-! ## Cursors -/

namespace Cursor

variable {b : Bool} {c c' : Cursor} {k : TokenKind}

def tokens (c : Cursor) : List Token := c.current :: c.later

theorem tokens_skip (p : TokenKind → Bool) (c : Cursor) :
    (c.skip p).tokens = dropFirst p c.tokens := by
  suffices h : ∀ ts t, (Cursor.skip.go p c t ts).tokens = dropFirst p (t :: ts) from h _ _
  intro ts
  induction ts with
  | nil => exact fun _ => rfl
  | cons u us ih =>
    intro t
    rw [skip.go, dropFirst]
    split
    · exact ih u
    · rfl

theorem tokens_next {ts : List Token} (h : c.later = ts) (hne : ts ≠ []) : c.next.tokens = ts := by
  obtain ⟨t, us, n⟩ := c
  cases h
  obtain ⟨v, vs, rfl⟩ := List.exists_cons_of_ne_nil hne
  rfl

theorem past_next (h : Spaced b c.tokens c'.tokens) :
    Past b c.current.kind c.next.tokens c'.next.tokens := by
  obtain ⟨t, ts, n⟩ := c
  obtain ⟨u, vs, n'⟩ := c'
  have hloose : ∀ {ts us}, Loose t.kind.endsOperand ts us → Past b t.kind ts us := by
    intro ts us h
    unfold Past
    cases t.kind.breaks b with
    | true => exact h.ahead
    | false => exact h
  cases h with
  | last h => exact hloose (.inl (.last h))
  | @cons _ _ _ _ us gap hface hgap hs =>
    rw [tokens_next rfl hs.ne_nil, tokens_next rfl (by simp [hs.ne_nil_right])]
    cases gap with
    | nil => exact hloose (.inl hs)
    | cons m gap =>
      have hahead : Ahead t.kind.endsOperand ts (m :: gap ++ us) :=
        ⟨_, us, rfl, ⟨hgap.newlines, fun _ => trivial⟩, hs⟩
      obtain hbreaks | hclosing := hgap.allowed (List.cons_ne_nil _ _)
      · show Past b t.kind ts _
        unfold Past
        rw [hbreaks]
        exact hahead
      · exact hloose (.inr ⟨hclosing, hgap.head, hahead⟩)

end Cursor

end SchemaMock
