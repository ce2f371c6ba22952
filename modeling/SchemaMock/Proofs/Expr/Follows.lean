import SchemaMock.Proofs.Expr.Spacing
import SchemaMock.Proofs.Token.Run

/-! # Two runs side by side

A reader follows another if, at related tokens, it gives what the other gives and stops at related
tokens. Two runs may start equally deep, and then stay so. If one starts deeper it may also meet a
limit.
-/

namespace SchemaMock

abbrev TokensRel := List Token → List Token → Prop

def Begins (P : TokensRel) (k : TokenKind) : TokensRel := fun ts us => P ts us ∧ Heads (· = k) ts

/-- Past these tokens and the separators that follow, no operand ends before. -/
def Fresh (ts us : List Token) : Prop :=
  Ahead false ts us ∨ Ahead true ts us ∧ Heads (fun k => (k == .newline || k == .comma) = true) ts

theorem Fresh.length_le {ts us : List Token} (h : Fresh ts us) : ts.length ≤ us.length := by
  obtain h | h := h
  · exact h.length_le
  · exact h.1.length_le

namespace Reader

variable {α β : Type} {even : Prop}

/-- A tree would nest too deep. -/
def Limited (x : Except Malformed α) : Prop := ∃ span n, x = .error ⟨span, .nestedDeeper n⟩

/-- At tokens related by `P`, what the first reader gives the second gives too, and `Q` relates the
tokens that are left. Only from another depth the second may fail, and only by a limit. -/
def Follows (even : Prop) (P : TokensRel) (Q : α → TokensRel) (r r' : Reader α) : Prop :=
  ∀ ⦃c c' a d⦄, P c.tokens c'.tokens → (even → c.deepest = c'.deepest) → r c = .ok (a, d) →
    (∃ d', r' c' = .ok (a, d') ∧ Q a d.tokens d'.tokens ∧ (even → d.deepest = d'.deepest)) ∨
      ¬ even ∧ Limited (r' c')

/-- What relates the tokens after a turn: `I` if there are more, `R` if it was the last. -/
def Turn.Leaves (I : TokensRel) (R : β → TokensRel) : Turn α β → TokensRel
  | .again _ => I
  | .done b => R b

/-- The reader fails at a token of such a kind. -/
def Refuses (p : TokenKind → Prop) (r : Reader α) : Prop := ∀ c x, p c.current.kind → r c ≠ .ok x

namespace Refuses

variable {p q : TokenKind → Prop} {r : Reader α}

theorem mono (h : Refuses p r) (hmono : ∀ k, q k → p k) : Refuses q r :=
  fun c x hq => h c x (hmono _ hq)

theorem bind (h : Refuses p r) (f : α → Reader β) : Refuses p (r >>= f) := by
  intro c x hp hrun
  obtain ⟨a, s, hr, -⟩ := bind_eq_ok hrun
  exact h _ _ hp hr

theorem subtree (h : Refuses p r) (depth : Nat) : Refuses p (subtree depth r) := by
  intro c x hp hrun
  obtain ⟨s, hr, -⟩ := subtree_eq_ok hrun
  exact h { c with deepest := depth } _ hp hr

theorem reach {f : Unit → Reader α} (h : Refuses p (f ())) (depth : Nat) :
    Refuses p (reach depth >>= f) := by
  intro c x hp hrun
  obtain ⟨u, s, hr, hf⟩ := bind_eq_ok hrun
  obtain ⟨-, rfl⟩ := reach_eq_ok hr
  exact h { c with deepest := max c.deepest depth } _ hp hf

theorem current {f : Token → Reader α} (h : ∀ t, p t.kind → Refuses p (f t)) :
    Refuses p (current >>= f) :=
  fun c x hp hrun => h _ hp c x hp hrun

theorem expect {k : TokenKind} (h : ¬ p k) : Refuses p (expect k) := by
  intro c x hp hrun
  exact h ((expect_eq_ok hrun).1 ▸ hp)

end Refuses

namespace Follows

variable {P P' : TokensRel} {Q Q' : α → TokensRel} {R : β → TokensRel} {r r' : Reader α}

theorem mono (h : Follows even P Q r r') (hP : ∀ ts us, P' ts us → P ts us)
    (hQ : ∀ a ts us, Q a ts us → Q' a ts us) : Follows even P' Q' r r' := by
  intro c c' a d hc hdeep hr
  exact (h (hP _ _ hc) hdeep hr).imp_left fun ⟨d', hr', hd, hdeep⟩ => ⟨d', hr', hQ _ _ _ hd, hdeep⟩

theorem pre (h : Follows even P Q r r') (hP : ∀ ts us, P' ts us → P ts us) :
    Follows even P' Q r r' :=
  h.mono hP fun _ _ _ => id

theorem post (h : Follows even P Q r r') (hQ : ∀ a ts us, Q a ts us → Q' a ts us) :
    Follows even P Q' r r' :=
  h.mono (fun _ _ => id) hQ

theorem pure {a : α} (h : ∀ ts us, P ts us → Q a ts us) :
    Follows even P Q (Pure.pure a) (Pure.pure a) := by
  intro c c' b d hc hdeep hr
  cases hr
  exact .inl ⟨c', rfl, h _ _ hc, hdeep⟩

theorem never (h : ∀ c x, r c ≠ .ok x) : Follows even P Q r r' :=
  fun _ _ _ _ _ _ hr => absurd hr (h _ _)

theorem unexpected {what : Expectation} : Follows even P Q (Reader.unexpected what) r' :=
  never fun _ _ => nofun

theorem bind {f f' : α → Reader β} (h : Follows even P Q r r')
    (hf : ∀ a, Follows even (Q a) R (f a) (f' a)) :
    Follows even P R (r >>= f) (r' >>= f') := by
  intro c c' b e hc hdeep hrun
  obtain ⟨a, d, hr, hfa⟩ := bind_eq_ok hrun
  obtain ⟨d', hr', hd, hdeep⟩ | ⟨heven, span, n, hlimit⟩ := h hc hdeep hr
  · rw [bind_of_ok f' hr']
    exact hf a hd hdeep hfa
  · exact .inr ⟨heven, span, n, bind_of_error f' hlimit⟩

theorem map {S : TokensRel} (f : α → β) (h : Follows even P (fun _ => S) r r') :
    Follows even P (fun _ => S) (f <$> r) (f <$> r') :=
  h.bind fun a => pure (a := f a) fun _ _ => id

/-! ## Depth -/

theorem reach {depth depth' : Nat} (h : even → depth = depth') :
    Follows even P (fun _ => P) (Reader.reach depth) (Reader.reach depth') := by
  intro c c' u d hc hdeep hr
  obtain ⟨hle, rfl⟩ := reach_eq_ok hr
  by_cases hle' : maxDepth < depth'
  · exact .inr ⟨fun he => Nat.not_lt.mpr hle (h he ▸ hle'), c'.current.span, maxDepth, if_pos hle'⟩
  · exact .inl ⟨_, if_neg hle', hc, fun he => by rw [hdeep he, h he]⟩

theorem wrap : Follows even P (fun _ => P) Reader.wrap Reader.wrap := fun _ _ _ _ hc hdeep hr =>
  reach (fun he => congrArg (· + 1) (hdeep he)) hc hdeep hr

theorem subtree {depth depth' : Nat} (h : even → depth = depth') (hr : Follows even P Q r r') :
    Follows even P Q (Reader.subtree depth r) (Reader.subtree depth' r') := by
  intro c c' a d hc hdeep hrun
  obtain ⟨s, hs, rfl⟩ := subtree_eq_ok hrun
  have hc : P { c with deepest := depth }.tokens { c' with deepest := depth' }.tokens := hc
  obtain ⟨s', hs', hd, hdeep'⟩ | ⟨heven, span, n, hlimit⟩ := hr hc h hs
  · exact .inl ⟨_, subtree_of_ok hs', hd, fun he => by rw [hdeep he, hdeep' he]⟩
  · exact .inr ⟨heven, span, n, subtree_of_error hlimit⟩

/-! ## Repetition -/

/-- The second loop has at least as many tokens to come, and so does not stop short. -/
theorem loop {I : TokensRel} (hlen : ∀ ts us, I ts us → ts.length ≤ us.length)
    {turn turn' : α → Reader (Turn α β)} (h : ∀ a, Follows even I (Turn.Leaves I R) (turn a) (turn' a)) (a : α) :
    Follows even I R (Reader.loop turn a) (Reader.loop turn' a) := by
  suffices hgo : ∀ n n' a, n ≤ n' → Follows even I R (loop.go turn n a) (loop.go turn' n' a) by
    intro c c' b d hc
    exact hgo c.tokens.length c'.tokens.length a (hlen _ _ hc) hc
  intro n
  induction n with
  | zero => exact fun n' a _ => never fun _ _ => nofun
  | succ n ih =>
    intro n' a hle
    obtain ⟨m, rfl⟩ := Nat.exists_eq_add_of_lt (Nat.lt_of_lt_of_le n.lt_succ_self hle)
    refine bind (h a) fun t => ?_
    cases t with
    | again a => exact ih _ a (Nat.le_add_right n m)
    | done b => exact pure fun _ _ => id

/-! ## Tokens -/

variable {b : Bool} {k : TokenKind} {f f' : Token → Reader α}

theorem current
    (h : ∀ t u, t.face = u.face → Follows even (Begins (Spaced b) t.kind) Q (f t) (f' u)) :
    Follows even (Spaced b) Q (Reader.current >>= f) (Reader.current >>= f') := by
  intro c c' a d hc hdeep hrun
  exact h _ _ hc.head ⟨hc, rfl⟩ hdeep hrun

theorem current_loose
    (h : ∀ t u, t.face = u.face → Follows even (Begins (Spaced b) t.kind) Q (f t) (f' u))
    (hheld : ∀ t u, t.kind.closes = true → u.kind = .newline →
      Follows even (Begins (Held b) t.kind) Q (f t) (f' u)) :
    Follows even (Loose b) Q (Reader.current >>= f) (Reader.current >>= f') := by
  intro c c' a d hc hdeep hrun
  obtain hc | hc := hc
  · exact current h hc hdeep hrun
  · exact hheld _ _ hc.closing hc.newline ⟨hc, rfl⟩ hdeep hrun

theorem advance (h : ∀ t u, t.face = u.face → Follows even (Past b k) Q (f t) (f' u)) :
    Follows even (Begins (Spaced b) k) Q (Reader.advance >>= f) (Reader.advance >>= f') := by
  rintro c c' a d ⟨hc, hk⟩ hdeep hrun
  have hpast : Past b k c.next.tokens c'.next.tokens := hk ▸ Cursor.past_next hc
  exact h _ _ hc.head hpast (fun he => by rw [deepest_next, deepest_next, hdeep he]) hrun

theorem check : Follows even (Spaced b) (fun _ => Spaced b) (Reader.check k) (Reader.check k) := by
  intro c c' yes d hc hdeep hrun
  cases hrun
  refine .inl ⟨c', ?_, hc, hdeep⟩
  rw [Token.kind_eq_of_face hc.head]
  rfl

theorem eat :
    Follows even (Spaced b) (fun yes => bif yes then Past b k else Spaced b) (Reader.eat k)
      (Reader.eat k) := by
  intro c c' yes d hc hdeep hrun
  have hkind := Token.kind_eq_of_face hc.head
  unfold Reader.eat at hrun
  split at hrun <;> cases hrun
  case isTrue hk =>
    have hpast : Past b k c.next.tokens c'.next.tokens := hk ▸ Cursor.past_next hc
    exact .inl ⟨_, if_pos (hkind ▸ hk), hpast, fun he => by rw [deepest_next, deepest_next, hdeep he]⟩
  case isFalse hk => exact .inl ⟨_, if_neg (hkind ▸ hk), hc, hdeep⟩

/-- A token that does not close is not behind a newline. -/
theorem eat_loose (hcloses : k.closes = false) (hnewline : (k == .newline) = false)
    (hpast : ∀ ts us, Past b k ts us → Loose true ts us) :
    Follows even (Loose b) (fun _ => Loose true) (Reader.eat k) (Reader.eat k) := by
  intro c c' yes d hc hdeep hrun
  obtain hc | hc := hc
  · have heat : Follows even (Spaced b) (fun _ => Loose true) (Reader.eat k) (Reader.eat k) := by
      refine eat.post fun yes ts us h => ?_
      cases yes with
      | true => exact hpast ts us h
      | false => exact .inl h.weaken
    exact heat hc hdeep hrun
  · have hclosing : c.current.kind.closes = true := hc.closing
    have hno : c.current.kind ≠ k := fun hk => by rw [hk, hcloses] at hclosing; cases hclosing
    have hno' : c'.current.kind ≠ k := fun hk => by
      rw [← hk, hc.newline] at hnewline; cases hnewline
    rw [Reader.eat, if_neg hno] at hrun
    cases hrun
    exact .inl ⟨c', if_neg hno', .inr ⟨hc.closing, hc.newline, hc.ahead.weaken⟩, hdeep⟩

theorem expect (h : ∀ t u, t.face = u.face → Follows even (Past b k) Q (f t) (f' u)) :
    Follows even (Spaced b) Q (Reader.expect k >>= f) (Reader.expect k >>= f') := by
  intro c c' a d hc hdeep hrun
  obtain ⟨t, s, hs, hf⟩ := bind_eq_ok hrun
  obtain ⟨hk, rfl, rfl⟩ := expect_eq_ok hs
  rw [bind_of_ok f' (expect_of_kind ((Token.kind_eq_of_face hc.head).symm.trans hk))]
  exact advance h ⟨hc, hk⟩ hdeep hf

theorem of_heads {p : TokenKind → Prop} (h : ∀ k, p k → Follows even (Begins P k) Q r r') :
    Follows even (fun ts us => P ts us ∧ Heads p ts) Q r r' :=
  fun c _ _ _ hc hdeep hrun => h c.current.kind hc.2 ⟨hc.1, rfl⟩ hdeep hrun

theorem refused (hr : Refuses (·.closes = true) r) (hP : ∀ ts us, P ts us → Closing ts) :
    Follows even P Q r r' :=
  fun _ _ _ _ hc _ hrun => absurd hrun (hr _ _ (hP _ _ hc))

/-- A reader that fails at a token that closes meets no newline in front. -/
theorem of_refuses (hr : Refuses (·.closes = true) r) (h : Follows even (Spaced b) Q r r') :
    Follows even (Loose b) Q r r' := by
  intro c c' a d hc hdeep hrun
  obtain hc | hc := hc
  · exact h hc hdeep hrun
  · exact refused hr (fun _ _ => Held.closing) hc hdeep hrun

theorem skipNewlines :
    Follows even (Ahead b) (fun _ => Spaced b) Reader.skipNewlines Reader.skipNewlines := by
  intro c c' u d hc hdeep hrun
  cases hrun
  refine .inl ⟨_, rfl, ?_, fun he => by rw [deepest_skip, deepest_skip, hdeep he]⟩
  rw [Cursor.tokens_skip, Cursor.tokens_skip]
  exact (hc.drop rfl fun _ => TokenKind.endsOperand_of_newline).1

theorem skipSeparators :
    Follows even Fresh (fun _ => Spaced false) Reader.skipSeparators Reader.skipSeparators := by
  intro c c' u d hc hdeep hrun
  cases hrun
  refine .inl ⟨_, rfl, ?_, fun he => by rw [deepest_skip, deepest_skip, hdeep he]⟩
  have hends : ∀ k : TokenKind, (k == .newline || k == .comma) = true → k.endsOperand = false := by
    intro k hk
    obtain hk | hk := Bool.or_eq_true_iff.mp hk <;> exact beq_iff_eq.mp hk ▸ rfl
  rw [Cursor.tokens_skip, Cursor.tokens_skip]
  obtain hc | ⟨hc, hhead⟩ := hc
  · exact (hc.drop rfl hends).1
  · exact (hc.drop rfl hends).2 hhead

theorem ofToken {t u : Token} (x : Except SourceFault α) :
    Follows even P (fun _ => P) (Reader.ofToken t x) (Reader.ofToken u x) := by
  cases x with
  | ok a => exact fun _ _ _ _ hc hdeep hrun => by cases hrun; exact .inl ⟨_, rfl, hc, hdeep⟩
  | error fault => exact never fun _ _ => nofun

end Follows

end Reader

end SchemaMock
